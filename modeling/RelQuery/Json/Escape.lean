import RelQuery.Text.Hex

/-!
# Strings in JSON

The text between the quotes of a JSON string. Writing escapes the quote, the backslash and the controls, and leaves all
else as it is; reading also takes `\/` and `\u` escapes, a pair of which may name one character.

* `Json.unescape?` refuses a `\u` escape that leaves half of a surrogate pair alone.
-/

namespace RelQuery.Json

open Text

/-! ## Writing -/

/-- A character as it stands between the quotes. -/
def escapeChar (c : Char) : List Char :=
  match c with
  | '"' => ['\\', '"']
  | '\\' => ['\\', '\\']
  | '\x08' => ['\\', 'b']
  | '\x0c' => ['\\', 'f']
  | '\n' => ['\\', 'n']
  | '\r' => ['\\', 'r']
  | '\t' => ['\\', 't']
  | c => if c.toNat < 0x20 then ['\\', 'u', '0', '0', hexDigit (c.toNat / 16), hexDigit (c.toNat % 16)] else [c]

/-- A text as it stands between the quotes. -/
def escape (s : List Char) : List Char :=
  s.flatMap escapeChar

/-! ## Reading -/

/-- The character of a one-letter escape. -/
def shortEscape? : Char → Option Char
  | '"' => some '"'
  | '\\' => some '\\'
  | '/' => some '/'
  | 'b' => some '\x08'
  | 'f' => some '\x0c'
  | 'n' => some '\n'
  | 'r' => some '\r'
  | 't' => some '\t'
  | _ => none

/-- Splits the text behind an opening quote at the closing one. What stands between is well formed: no control, and
behind every backslash a known escape. -/
def literal? : List Char → Option (List Char × List Char)
  | [] => none
  | '"' :: s => some ([], s)
  | '\\' :: 'u' :: a :: b :: c :: d :: s =>
    if (hex? [a, b, c, d]).isSome then
      (literal? s).map fun (text, rest) => ('\\' :: 'u' :: a :: b :: c :: d :: text, rest)
    else none
  | '\\' :: c :: s =>
    if (shortEscape? c).isSome then (literal? s).map fun (text, rest) => ('\\' :: c :: text, rest) else none
  | c :: s =>
    if c = '\\' ∨ c.toNat < 0x20 then none else (literal? s).map fun (text, rest) => (c :: text, rest)

theorem eq_append_of_literal? {s text rest : List Char} (h : literal? s = some (text, rest)) :
    s = text ++ '"' :: rest := by
  fun_induction literal? s generalizing text with
  | case1 => simp at h
  | case2 => simp_all
  | case3 a b c d s _ ih =>
    obtain ⟨⟨t, r⟩, ht, he⟩ := Option.map_eq_some_iff.1 h
    obtain ⟨rfl, rfl⟩ := by simpa using he
    simp [ih ht]
  | case4 => simp at h
  | case5 c s _ _ ih =>
    obtain ⟨⟨t, r⟩, ht, he⟩ := Option.map_eq_some_iff.1 h
    obtain ⟨rfl, rfl⟩ := by simpa using he
    simp [ih ht]
  | case6 => simp at h
  | case7 => simp at h
  | case8 c s _ _ _ _ ih =>
    obtain ⟨⟨t, r⟩, ht, he⟩ := Option.map_eq_some_iff.1 h
    obtain ⟨rfl, rfl⟩ := by simpa using he
    simp [ih ht]

/-- A character, or the 16-bit unit that a `\u` escape names. -/
inductive Unit16 where
  | char (c : Char)
  | unit (n : Nat)

/-- The characters and units of a text between quotes. -/
def units? : List Char → Option (List Unit16)
  | [] => some []
  | '\\' :: 'u' :: a :: b :: c :: d :: s => do pure (.unit (← hex? [a, b, c, d]) :: (← units? s))
  | '\\' :: c :: s => do pure (.char (← shortEscape? c) :: (← units? s))
  | c :: s => (units? s).map (.char c :: ·)

/-- Joins the halves of surrogate pairs; half of a pair alone stands for nothing. -/
def joinUnits? : List Unit16 → Option (List Char)
  | [] => some []
  | .char c :: us => (joinUnits? us).map (c :: ·)
  | .unit high :: .unit low :: us =>
    if 0xD800 ≤ high ∧ high < 0xDC00 then
      if 0xDC00 ≤ low ∧ low < 0xE000 then
        (joinUnits? us).map (Char.ofNat (0x10000 + (high - 0xD800) * 0x400 + (low - 0xDC00)) :: ·)
      else none
    else if 0xDC00 ≤ high ∧ high < 0xE000 then none
    else (joinUnits? (.unit low :: us)).map (Char.ofNat high :: ·)
  | .unit n :: us => if 0xD800 ≤ n ∧ n < 0xE000 then none else (joinUnits? us).map (Char.ofNat n :: ·)

/-- The text that the characters between two quotes stand for. -/
def unescape? (s : List Char) : Option (List Char) :=
  (units? s).bind joinUnits?

end RelQuery.Json
