/-!
# Decimal numerals

* `natOf_decimal` : a number, written and read, is itself;
* `decimal_injective` : different numbers are written differently.
-/

namespace RelQuery.Text

/-- The character of a digit below ten. -/
def digitChar (n : Nat) : Char :=
  Char.ofNat (48 + n)

/-- The value of a digit character. -/
def digitValue (c : Char) : Nat :=
  c.toNat - 48

/-- A number in base ten, without leading zeros. -/
def decimal (n : Nat) : List Char :=
  if n < 10 then [digitChar n] else decimal (n / 10) ++ [digitChar (n % 10)]
termination_by n

/-- A number in base ten, as a string. -/
def decimalText (n : Nat) : String :=
  String.ofList (decimal n)

/-- The value of a run of digits in the given base. -/
def natOfBase (base : Nat) (value : Char → Nat) (s : List Char) : Nat :=
  s.foldl (fun n c => base * n + value c) 0

/-- The value of a run of decimal digits. -/
def natOf (s : List Char) : Nat :=
  natOfBase 10 digitValue s

theorem digit_digitChar {n : Nat} (h : n < 10) : digitValue (digitChar n) = n ∧ (digitChar n).isDigit = true := by
  match n, h with
  | 0, _ | 1, _ | 2, _ | 3, _ | 4, _ | 5, _ | 6, _ | 7, _ | 8, _ | 9, _ => decide

theorem natOf_append_singleton (s : List Char) (c : Char) : natOf (s ++ [c]) = 10 * natOf s + digitValue c := by
  simp [natOf, natOfBase]

theorem natOf_decimal (n : Nat) : natOf (decimal n) = n := by
  fun_induction decimal n with
  | case1 n h => simp [natOf, natOfBase, (digit_digitChar h).1]
  | case2 n h ih =>
    rw [natOf_append_singleton, ih, (digit_digitChar (Nat.mod_lt n (by decide))).1]
    omega

theorem decimal_injective {m n : Nat} (h : decimal m = decimal n) : m = n := by
  rw [← natOf_decimal m, h, natOf_decimal]

theorem isDigit_of_mem_decimal {n : Nat} {c : Char} (h : c ∈ decimal n) : c.isDigit = true := by
  fun_induction decimal n with
  | case1 n hn =>
    obtain rfl := List.mem_singleton.1 h
    exact (digit_digitChar hn).2
  | case2 n _ ih =>
    rcases List.mem_append.1 h with h | h
    · exact ih h
    · obtain rfl := List.mem_singleton.1 h
      exact (digit_digitChar (Nat.mod_lt n (by decide))).2

theorem decimal_ne_nil (n : Nat) : decimal n ≠ [] := by
  unfold decimal
  split <;> simp

/-- A numeral begins with a digit. -/
theorem decimal_ne_cons {c : Char} (h : c.isDigit = false) (n : Nat) (s : List Char) : decimal n ≠ c :: s := by
  intro hs
  have hc : c.isDigit = true := isDigit_of_mem_decimal (hs ▸ List.mem_cons_self)
  simp [hc] at h

/-! ## Reading -/

/-- The number that a nonempty run of ASCII digits stands for. -/
def nat? (s : List Char) : Option Nat :=
  if s ≠ [] ∧ s.all Char.isDigit = true then some (natOf s) else none

/-- How many numbers a word of 64 bits can hold: 2^64. -/
def wordCount : Nat :=
  18446744073709551616

/-- The number below 2^64 that an unsigned numeral stands for; one `+` may stand in front. -/
def word64? (s : List Char) : Option Nat :=
  let digits := match s with
    | '+' :: rest => rest
    | _ => s
  (nat? digits).filter (· < wordCount)

theorem nat?_decimal (n : Nat) : nat? (decimal n) = some n := by
  have h : (decimal n).all Char.isDigit = true := List.all_eq_true.2 fun _ => isDigit_of_mem_decimal
  simp [nat?, decimal_ne_nil, h, natOf_decimal]

end RelQuery.Text
