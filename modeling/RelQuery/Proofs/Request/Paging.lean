import RelQuery.Request
import RelQuery.Proofs.Text.Trim

/-!
# The two numbers of a request

A request keeps the size of its page and the rows in front of it as text, and reads them as numbers below 2^64, blanks
around them aside.

* `Request.pagingValue_integerText` : which integers are read, and what an integer that is not read is reported as;
* `Request.topValue?_withTop`, `Request.skipValue_withSkip` : a number that is set is read again.
-/

namespace RelQuery

namespace Text

/-! ## Integers in base ten -/

/-- An integer in base ten, with a minus sign in front of a negative one. -/
def integer (z : Int) : List Char :=
  if z < 0 then '-' :: decimal z.natAbs else decimal z.natAbs

/-- An integer in base ten, as a string. -/
def integerText (z : Int) : String :=
  String.ofList (integer z)

theorem integerText_natCast (n : Nat) : integerText n = decimalText n := by
  have hn : ¬((n : Int) < 0) := by omega
  rw [integerText, integer, if_neg hn, Int.natAbs_natCast, decimalText]

theorem isBlank_of_isDigit {c : Char} (h : c.isDigit = true) : isBlank c = false := by
  have hd : 48 ≤ c.toNat ∧ c.toNat ≤ 57 := by
    simpa [Char.isDigit, UInt32.le_iff_toNat_le] using h
  cases hb : isBlank c with
  | false => rfl
  | true =>
    simp only [isBlank, Bool.or_eq_true, Bool.and_eq_true, decide_eq_true_eq, beq_iff_eq] at hb
    omega

/-- No character of a numeral is a blank. -/
theorem isBlank_of_mem_integer {z : Int} {c : Char} (h : c ∈ integer z) : isBlank c = false := by
  unfold integer at h
  split at h
  · rcases List.mem_cons.1 h with rfl | h
    · rfl
    · exact isBlank_of_isDigit (isDigit_of_mem_decimal h)
  · exact isBlank_of_isDigit (isDigit_of_mem_decimal h)

theorem tight_integer (z : Int) : Tight (integer z) :=
  ⟨fun _ hc => isBlank_of_mem_integer (List.mem_of_mem_head? hc),
    fun _ hc => isBlank_of_mem_integer (List.mem_of_mem_getLast? hc)⟩

/-- A number is read if it fits. -/
theorem word64?_decimal (n : Nat) : word64? (decimal n) = if n < wordCount then some n else none := by
  rw [word64?, nat?_decimal, Option.filter_some]
  · simp only [decide_eq_true_eq]
  · exact decimal_ne_cons rfl n

/-- A sign is read only if it is `+`. -/
theorem word64?_minus (s : List Char) : word64? ('-' :: s) = none := by
  simp [word64?, nat?, Char.isDigit]

theorem word64?_integer (z : Int) :
    word64? (integer z) = if 0 ≤ z ∧ z < wordCount then some z.toNat else none := by
  by_cases hz : z < 0
  · rw [integer, if_pos hz, word64?_minus, if_neg (by omega)]
  · obtain ⟨n, rfl⟩ := Int.eq_ofNat_of_zero_le (Int.not_lt.1 hz)
    have hw : (0 ≤ (n : Int) ∧ (n : Int) < wordCount) ↔ n < wordCount := by omega
    rw [integer, if_neg hz, Int.natAbs_natCast, word64?_decimal, Int.toNat_natCast]
    simp only [hw]

end Text

open Text

namespace Request

/-- **The decimal text of an integer** is read as the integer if that is one of 64 bits without sign; otherwise it is
reported as it stands. -/
theorem pagingValue_integerText (key : PagingKey) (z : Int) : pagingValue key (integerText z) =
    if 0 ≤ z ∧ z < wordCount then .ok z.toNat else .error (.invalidPaging key (integerText z)) := by
  have hw : word64? (trim (integerText z).toList) = if 0 ≤ z ∧ z < wordCount then some z.toNat else none := by
    rw [integerText, String.toList_ofList, trim_eq_self (tight_integer z), word64?_integer]
  rw [pagingValue, hw]
  by_cases h : 0 ≤ z ∧ z < wordCount
  · rw [if_pos h, if_pos h]
  · rw [if_neg h, if_neg h]

variable {n : Nat}

theorem pagingValue_decimalText (key : PagingKey) (hn : n < wordCount) :
    pagingValue key (decimalText n) = .ok n := by
  rw [← integerText_natCast, pagingValue_integerText, if_pos (by omega), Int.toNat_natCast]

theorem topValue?_withTop (r : Request) (hn : n < wordCount) : (r.withTop n).topValue? = .ok (some n) := by
  show (pagingValue .top (decimalText n)).map some = .ok (some n)
  rw [pagingValue_decimalText _ hn]
  rfl

theorem skipValue_withSkip (r : Request) (hn : n < wordCount) : (r.withSkip n).skipValue = .ok n :=
  pagingValue_decimalText _ hn

end Request

end RelQuery
