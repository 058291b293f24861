import RelQuery.Text.Decimal
import RelQuery.Text.Hex
import RelQuery.Text.Split

/-!
# The tokens of a TOML document

Blanks and comments are dropped; a line end is a token. A bare token is a key or a numeral, as its place decides.

* `Toml.tokens?` : the tokens of a document, if every character belongs to one.
-/

namespace RelQuery.Toml

/-- A token. -/
inductive Token where
  | mark (c : Char)
  | bare (run : List Char)
  /-- A string; one that may span lines is no key. -/
  | text (value : List Char) (multiline : Bool)
  | lineEnd
  deriving DecidableEq, Repr

/-! ## Characters -/

/-- Blanks within a line. -/
def isBlank (c : Char) : Bool :=
  c == ' ' || c == '\t'

/-- Characters that strings and comments hold as they are: all but the controls, the tab excepted. -/
def isPrintable (c : Char) : Bool :=
  c == '\t' || (0x20 ≤ c.toNat && c.toNat != 0x7F)

/-- Characters of bare keys. -/
def isKeyChar (c : Char) : Bool :=
  c.isAlphanum || c == '_' || c == '-'

/-- Characters of bare keys and of integers. -/
def isBare (c : Char) : Bool :=
  isKeyChar c || c == '+'

/-- Punctuation. -/
def isMark (c : Char) : Bool :=
  c == '=' || c == '.' || c == ',' || c == '[' || c == ']' || c == '\x7b' || c == '\x7d'

/-- What follows a line end. -/
def newline? : List Char → Option (List Char)
  | '\n' :: s => some s
  | '\r' :: '\n' :: s => some s
  | _ => none

/-- The text without a line end at its front. -/
def dropNewline (s : List Char) : List Char :=
  (newline? s).getD s

/-! ## Strings -/

/-- Puts a character in front of the string that is being read. -/
def consChar (c : Char) (r : List Char × List Char) : List Char × List Char :=
  (c :: r.1, r.2)

/-- The character with the given number, unless it is a surrogate or too large. -/
def scalar? (n : Nat) : Option Char :=
  if n < 0xD800 ∨ (0xE000 ≤ n ∧ n < 0x110000) then some (Char.ofNat n) else none

/-- The character that `digits` name, and what follows them. -/
def codePoint? (digits : Nat) (s : List Char) : Option (Char × List Char) :=
  if s.length < digits then none
  else do pure (← scalar? (← Text.hex? (s.take digits)), s.drop digits)

/-- The character of the escape behind a backslash, and what follows it. -/
def escape? : List Char → Option (Char × List Char)
  | 'b' :: s => some ('\x08', s)
  | 't' :: s => some ('\t', s)
  | 'n' :: s => some ('\n', s)
  | 'f' :: s => some ('\x0c', s)
  | 'r' :: s => some ('\r', s)
  | 'e' :: s => some ('\x1b', s)
  | '"' :: s => some ('"', s)
  | '\\' :: s => some ('\\', s)
  | 'x' :: s => codePoint? 2 s
  | 'u' :: s => codePoint? 4 s
  | 'U' :: s => codePoint? 8 s
  | _ => none

theorem length_lt_of_escape? {s rest : List Char} {c : Char} (h : escape? s = some (c, rest)) :
    rest.length < s.length := by
  have code {digits : Nat} {s rest : List Char} {c : Char} (h : codePoint? digits s = some (c, rest)) :
      rest.length ≤ s.length := by
    simp only [codePoint?] at h
    split at h
    · simp at h
    · obtain ⟨n, -, h⟩ := Option.bind_eq_some_iff.1 h
      obtain ⟨d, -, h⟩ := Option.bind_eq_some_iff.1 h
      obtain ⟨-, rfl⟩ := by simpa using h
      simp
  unfold escape? at h
  split at h
  case h_9 | h_10 | h_11 =>
    have := code h
    simp only [List.length_cons]
    omega
  case h_12 => simp at h
  all_goals
    obtain ⟨-, rfl⟩ := by simpa using h
    simp

/-- The rest of a basic string on one line, and what follows its closing quote. -/
def basic? (s : List Char) : Option (List Char × List Char) :=
  match s with
  | [] => none
  | '"' :: s => some ([], s)
  | '\\' :: s =>
    match _h : escape? s with
    | none => none
    | some (c, rest) => (basic? rest).map (consChar c)
  | c :: s => if isPrintable c then (basic? s).map (consChar c) else none
termination_by s.length
decreasing_by
  · have := length_lt_of_escape? _h
    simp only [List.length_cons]
    omega
  · simp

/-- The rest of a literal string on one line, and what follows its closing quote. -/
def literal? : List Char → Option (List Char × List Char)
  | [] => none
  | '\'' :: s => some ([], s)
  | c :: s => if isPrintable c then (literal? s).map (consChar c) else none

/-- Behind three quotes `q`: up to two more belong to the string, the end follows them. -/
def closing (q : Char) : List Char → List Char × List Char
  | a :: b :: s =>
    if a = q then if b = q then ([q, q], s) else ([q], b :: s) else ([], a :: b :: s)
  | [a] => if a = q then ([q], []) else ([], [a])
  | [] => ([], [])

/-- Whether a text is blank up to a line end. -/
def isLineEndAhead (s : List Char) : Bool :=
  (newline? (s.dropWhile isBlank)).isSome

/-- The text without the blanks and line ends at its front. -/
def dropLines : List Char → List Char
  | '\r' :: '\n' :: s => dropLines s
  | c :: s => if isBlank c ∨ c = '\n' then dropLines s else c :: s
  | [] => []

theorem length_dropLines_le (s : List Char) : (dropLines s).length ≤ s.length := by
  fun_induction dropLines s with
  | case1 s ih => simp only [List.length_cons]; omega
  | case2 c s _ _ ih => simp only [List.length_cons]; omega
  | case3 => simp
  | case4 => simp

/-- Whether a string that may span lines holds `c` as it is when `s` follows: a printable character, or one of a line
end. -/
def isLineText (c : Char) (s : List Char) : Bool :=
  isPrintable c || c == '\n' || (c == '\r' && s.head? == some '\n')

/-- The rest of a basic string that may span lines, and what follows it. A backslash at the end of a line drops the line
end and the blanks behind it; every other line end stays as it is written. -/
def longBasic? (s : List Char) : Option (List Char × List Char) :=
  match s with
  | [] => none
  | '"' :: '"' :: '"' :: s => some (closing '"' s)
  | '\\' :: s =>
    if isLineEndAhead s then longBasic? (dropLines s)
    else
      match _h : escape? s with
      | none => none
      | some (c, rest) => (longBasic? rest).map (consChar c)
  | c :: s => if isLineText c s then (longBasic? s).map (consChar c) else none
termination_by s.length
decreasing_by
  · have := length_dropLines_le s
    simp only [List.length_cons]
    omega
  · have := length_lt_of_escape? _h
    simp only [List.length_cons]
    omega
  · simp

/-- The rest of a literal string that may span lines, and what follows it. -/
def longLiteral? : List Char → Option (List Char × List Char)
  | [] => none
  | '\'' :: '\'' :: '\'' :: s => some (closing '\'' s)
  | c :: s => if isLineText c s then (longLiteral? s).map (consChar c) else none

/-- A longer string is still followed by what follows the string. -/
theorem length_le_of_map_consChar {c : Char} {o : Option (List Char × List Char)} {value rest : List Char} {n : Nat}
    (ih : ∀ v, o = some (v, rest) → rest.length ≤ n) (h : o.map (consChar c) = some (value, rest)) :
    rest.length ≤ n := by
  obtain ⟨⟨v, r⟩, hv, he⟩ := Option.map_eq_some_iff.1 h
  obtain ⟨-, rfl⟩ := by simpa [consChar] using he
  exact ih v hv

theorem length_basic?_le {s value rest : List Char} (h : basic? s = some (value, rest)) : rest.length ≤ s.length := by
  fun_induction basic? s generalizing value with
  | case1 => simp at h
  | case2 => simp_all
  | case3 => simp at h
  | case4 s c tail hc ih =>
    have hs := length_lt_of_escape? hc
    have hr := length_le_of_map_consChar (fun _ => ih) h
    simp only [List.length_cons]
    omega
  | case5 c s _ _ _ ih =>
    have hr := length_le_of_map_consChar (fun _ => ih) h
    simp only [List.length_cons]
    omega
  | case6 => simp at h

theorem length_literal?_le {s value rest : List Char} (h : literal? s = some (value, rest)) :
    rest.length ≤ s.length := by
  fun_induction literal? s generalizing value with
  | case1 => simp at h
  | case2 => simp_all
  | case3 c s _ _ ih =>
    have hr := length_le_of_map_consChar (fun _ => ih) h
    simp only [List.length_cons]
    omega
  | case4 => simp at h

theorem length_closing_le (q : Char) (s : List Char) : (closing q s).2.length ≤ s.length := by
  fun_cases closing q s <;> simp only [List.length_cons] <;> omega

theorem length_longBasic?_le {s value rest : List Char} (h : longBasic? s = some (value, rest)) :
    rest.length ≤ s.length := by
  fun_induction longBasic? s generalizing value with
  | case1 => simp at h
  | case2 s =>
    have hs := length_closing_le '"' s
    obtain he : closing '"' s = (value, rest) := by simpa using h
    simp only [he] at hs
    simp only [List.length_cons]
    omega
  | case3 s _ ih =>
    have hs := length_dropLines_le s
    have hr := ih h
    simp only [List.length_cons]
    omega
  | case4 => simp at h
  | case5 s _ c tail hc ih =>
    have hs := length_lt_of_escape? hc
    have hr := length_le_of_map_consChar (fun _ => ih) h
    simp only [List.length_cons]
    omega
  | case6 c s _ _ _ ih =>
    have hr := length_le_of_map_consChar (fun _ => ih) h
    simp only [List.length_cons]
    omega
  | case7 => simp at h

theorem length_longLiteral?_le {s value rest : List Char} (h : longLiteral? s = some (value, rest)) :
    rest.length ≤ s.length := by
  fun_induction longLiteral? s generalizing value with
  | case1 => simp at h
  | case2 s =>
    have hs := length_closing_le '\'' s
    obtain he : closing '\'' s = (value, rest) := by simpa using h
    simp only [he] at hs
    simp only [List.length_cons]
    omega
  | case3 c s _ _ ih =>
    have hr := length_le_of_map_consChar (fun _ => ih) h
    simp only [List.length_cons]
    omega
  | case4 => simp at h

theorem length_newline?_lt {s rest : List Char} (h : newline? s = some rest) : rest.length < s.length := by
  unfold newline? at h
  split at h
  · obtain rfl := by simpa using h
    simp
  · obtain rfl := by simpa using h
    simp only [List.length_cons]
    omega
  · simp at h

theorem length_dropNewline_le (s : List Char) : (dropNewline s).length ≤ s.length := by
  unfold dropNewline
  cases h : newline? s with
  | none => simp
  | some rest => exact Nat.le_of_lt (length_newline?_lt h)

/-- The string that the text begins with, and what follows it. -/
def string? : List Char → Option (Token × List Char)
  | '"' :: '"' :: '"' :: s => (longBasic? (dropNewline s)).map fun (value, rest) => (.text value true, rest)
  | '\'' :: '\'' :: '\'' :: s => (longLiteral? (dropNewline s)).map fun (value, rest) => (.text value true, rest)
  | '"' :: s => (basic? s).map fun (value, rest) => (.text value false, rest)
  | '\'' :: s => (literal? s).map fun (value, rest) => (.text value false, rest)
  | _ => none

/-- A string that is read takes its opening quote at least. -/
theorem length_string?_lt {s rest : List Char} {token : Token} (h : string? s = some (token, rest)) :
    rest.length < s.length := by
  unfold string? at h
  split at h
  next s =>
    obtain ⟨⟨v, r⟩, hv, he⟩ := Option.map_eq_some_iff.1 h
    obtain ⟨-, rfl⟩ := by simpa using he
    have hl := length_longBasic?_le hv
    have hd := length_dropNewline_le s
    simp only [List.length_cons]
    omega
  next s =>
    obtain ⟨⟨v, r⟩, hv, he⟩ := Option.map_eq_some_iff.1 h
    obtain ⟨-, rfl⟩ := by simpa using he
    have hl := length_longLiteral?_le hv
    have hd := length_dropNewline_le s
    simp only [List.length_cons]
    omega
  next s _ =>
    obtain ⟨⟨v, r⟩, hv, he⟩ := Option.map_eq_some_iff.1 h
    obtain ⟨-, rfl⟩ := by simpa using he
    have hl := length_basic?_le hv
    simp only [List.length_cons]
    omega
  next s _ =>
    obtain ⟨⟨v, r⟩, hv, he⟩ := Option.map_eq_some_iff.1 h
    obtain ⟨-, rfl⟩ := by simpa using he
    have hl := length_literal?_le hv
    simp only [List.length_cons]
    omega
  next => simp at h

/-! ## Tokens -/

/-- The token that the text begins with, and what follows it. -/
def token? (s : List Char) : Option (Token × List Char) :=
  match newline? s with
  | some rest => some (.lineEnd, rest)
  | none =>
    match s with
    | [] => none
    | c :: rest =>
      if isMark c then some (.mark c, rest)
      else if isBare c then some (.bare (s.takeWhile isBare), s.dropWhile isBare)
      else string? s

/-- Every token takes a character. -/
theorem length_lt_of_token? {s rest : List Char} {token : Token} (h : token? s = some (token, rest)) :
    rest.length < s.length := by
  unfold token? at h
  split at h
  next hn =>
    obtain ⟨-, rfl⟩ := by simpa using h
    exact length_newline?_lt hn
  next =>
    split at h
    · simp at h
    next c tail _ =>
      split at h
      · obtain ⟨-, rfl⟩ := by simpa using h
        simp
      · split at h
        next hb =>
          obtain ⟨-, rfl⟩ := by simpa using h
          have hd := (List.dropWhile_suffix isBare (l := tail)).length_le
          simp only [List.dropWhile_cons, hb, if_true, List.length_cons]
          omega
        next => exact length_string?_lt h

/-- The tokens of a text. -/
def tokens? (s : List Char) : Option (List Token) :=
  match s with
  | [] => some []
  | c :: s =>
    if isBlank c then tokens? s
    else if c = '#' then tokens? (s.dropWhile isPrintable)
    else
      match _h : token? (c :: s) with
      | none => none
      | some (token, rest) => (tokens? rest).map (token :: ·)
termination_by s.length
decreasing_by
  · simp
  · have := (List.dropWhile_suffix isPrintable (l := s)).length_le
    simp only [List.length_cons]
    omega
  · exact length_lt_of_token? _h

/-! ## Numerals -/

/-- The digits of a numeral, whose underscores must stand between digits. -/
def digits? (isDigit : Char → Bool) (s : List Char) : Option (List Char) :=
  let runs := Text.pieces (· == '_') s
  if runs.all (fun run => !run.isEmpty && run.all isDigit) then some runs.flatten else none

/-- The value of an octal, binary or hexadecimal digit. -/
def digitValue (c : Char) : Nat :=
  (Text.hexValue? c).getD 0

/-- The number that digits in the given base stand for. -/
def based? (base : Nat) (s : List Char) : Option Nat :=
  (digits? (fun c => (Text.hexValue? c).any (· < base)) s).map (Text.natOfBase base digitValue)

/-- The number that decimal digits without needless zeros stand for. -/
def decimal? (s : List Char) : Option Nat :=
  (based? 10 s).filter fun _ => s.length = 1 || s.head? != some '0'

/-- The integer that a bare token stands for: decimal and perhaps signed, or unsigned in another base. -/
def integer? : List Char → Option Int
  | '0' :: 'x' :: s => (based? 16 s).map Int.ofNat
  | '0' :: 'o' :: s => (based? 8 s).map Int.ofNat
  | '0' :: 'b' :: s => (based? 2 s).map Int.ofNat
  | '+' :: s => (decimal? s).map Int.ofNat
  | '-' :: s => (decimal? s).map fun n => -(n : Int)
  | s => (decimal? s).map Int.ofNat

end RelQuery.Toml
