/-!
# Hexadecimal digits

* `Text.hex?` : the number that a run of hexadecimal digits, of either case, stands for.
-/

namespace RelQuery.Text

/-- The hexadecimal digit, in lower case, of a number below sixteen. -/
def hexDigit (n : Nat) : Char :=
  if n < 10 then Char.ofNat (48 + n) else Char.ofNat (87 + n)

/-- The value of a hexadecimal digit of either case. -/
def hexValue? (c : Char) : Option Nat :=
  if c.isDigit then some (c.toNat - 48)
  else if 'a' ≤ c ∧ c ≤ 'f' then some (c.toNat - 87)
  else if 'A' ≤ c ∧ c ≤ 'F' then some (c.toNat - 55)
  else none

/-- The number that a run of hexadecimal digits stands for, behind the digits of `n`. -/
def hexFrom? (n : Nat) : List Char → Option Nat
  | [] => some n
  | c :: s => (hexValue? c).bind fun d => hexFrom? (16 * n + d) s

/-- The number that a run of hexadecimal digits stands for. -/
def hex? (s : List Char) : Option Nat :=
  hexFrom? 0 s

end RelQuery.Text
