import RelQuery.Json.Basic

/-!
# The tokens of a JSON text

* `Json.tokens?` : the tokens of a text, blanks dropped, if every character belongs to one.
-/

namespace RelQuery.Json

/-- A token: a punctuation mark, a number or a string as written, or one of the three words. -/
inductive Token where
  | mark (c : Char)
  | number (literal : List Char)
  | string (literal : List Char)
  | null
  | bool (value : Bool)
  deriving DecidableEq, Repr

/-- The blanks of JSON. -/
def isBlank (c : Char) : Bool :=
  c == ' ' || c == '\n' || c == '\r' || c == '\t'

/-- The punctuation of JSON. -/
def isMark (c : Char) : Bool :=
  c == '{' || c == '}' || c == '[' || c == ']' || c == ':' || c == ','

/-! ## Numbers -/

/-- The characters of numbers. -/
def isNumberChar (c : Char) : Bool :=
  c.isDigit || c == '-' || c == '+' || c == '.' || c == 'e' || c == 'E'

/-- One digit or more. -/
def isDigits (s : List Char) : Bool :=
  !s.isEmpty && s.all Char.isDigit

/-- The integer part of a number: a single zero, or digits that begin with another one. -/
def isWhole (s : List Char) : Bool :=
  isDigits s && (s.length == 1 || s.head? != some '0')

/-- What stands behind the integer part and in front of the exponent: nothing, or a point and digits. -/
def isFraction : List Char → Bool
  | [] => true
  | c :: s => c == '.' && isDigits s

/-- What stands at the end of a number: nothing, or a letter, perhaps a sign, and digits. -/
def isExponent : List Char → Bool
  | [] => true
  | _ :: '+' :: s => isDigits s
  | _ :: '-' :: s => isDigits s
  | _ :: s => isDigits s

/-- Whether a run of number characters is an unsigned number. -/
def isUnsigned (s : List Char) : Bool :=
  let (mantissa, exponent) := s.span fun c => c != 'e' && c != 'E'
  let (whole, fraction) := mantissa.span (· != '.')
  isWhole whole && isFraction fraction && isExponent exponent

/-- Whether a run of number characters is a number. -/
def isNumber : List Char → Bool
  | '-' :: s => isUnsigned s
  | s => isUnsigned s

theorem isNumber_nil : isNumber [] = false := rfl

/-! ## Tokens -/

/-- The token that the text begins with, and what follows it. -/
def token? (s : List Char) : Option (Token × List Char) :=
  match s with
  | [] => none
  | '"' :: rest => (literal? rest).map fun (literal, rest) => (.string literal, rest)
  | 'n' :: 'u' :: 'l' :: 'l' :: rest => some (.null, rest)
  | 't' :: 'r' :: 'u' :: 'e' :: rest => some (.bool true, rest)
  | 'f' :: 'a' :: 'l' :: 's' :: 'e' :: rest => some (.bool false, rest)
  | c :: rest =>
    if isMark c then some (.mark c, rest)
    else
      let run := (c :: rest).takeWhile isNumberChar
      if isNumber run then some (.number run, (c :: rest).dropWhile isNumberChar) else none

/-- Every token takes a character. -/
theorem length_lt_of_token? {s rest : List Char} {token : Token} (h : token? s = some (token, rest)) :
    rest.length < s.length := by
  unfold token? at h
  split at h
  · simp at h
  next tail =>
    obtain ⟨⟨literal, r⟩, hl, he⟩ := Option.map_eq_some_iff.1 h
    obtain ⟨-, rfl⟩ := by simpa using he
    rw [eq_append_of_literal? hl]
    simp only [List.length_cons, List.length_append]
    omega
  · obtain ⟨-, rfl⟩ := by simpa using h
    simp only [List.length_cons]
    omega
  · obtain ⟨-, rfl⟩ := by simpa using h
    simp only [List.length_cons]
    omega
  · obtain ⟨-, rfl⟩ := by simpa using h
    simp only [List.length_cons]
    omega
  next c tail _ _ _ _ =>
    split at h
    · obtain ⟨-, rfl⟩ := by simpa using h
      simp
    · dsimp only at h
      split at h
      next hn =>
        obtain ⟨-, rfl⟩ := by simpa using h
        have hne : (c :: tail).takeWhile isNumberChar ≠ [] := by
          intro he
          simp [he, isNumber_nil] at hn
        have hlen := congrArg List.length (List.takeWhile_append_dropWhile (p := isNumberChar) (l := c :: tail))
        have hpos := List.length_pos_iff.2 hne
        simp only [List.length_append] at hlen
        omega
      next => simp at h

/-- The tokens of a text. -/
def tokens? (s : List Char) : Option (List Token) :=
  match s with
  | [] => some []
  | c :: s =>
    if isBlank c then tokens? s
    else
      match _h : token? (c :: s) with
      | none => none
      | some (token, rest) => (tokens? rest).map (token :: ·)
termination_by s.length
decreasing_by
  · simp
  · exact length_lt_of_token? _h

end RelQuery.Json
