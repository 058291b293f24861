/-!
# Quoted literals

A literal stands between two quotes of one kind, `'` or `"`; inside it that quote is written twice.

* `eq_append_of_closeQuote?` : a run and what follows it are the text;
* `collapse_double` : doubling the quotes of a text and collapsing them again changes nothing;
* `decode_encode` : a text written as a literal reads back.
-/

namespace RelQuery.Text

/-- The characters that open a literal. -/
def isQuote (c : Char) : Bool :=
  c == '\'' || c == '"'

/-- Splits the text after an opening quote `q` behind the closing one; a doubled quote stays inside the literal. -/
def closeQuote? (q : Char) : List Char → Option (List Char × List Char)
  | [] => none
  | [c] => if c = q then some ([q], []) else none
  | c :: d :: s =>
    if c = q then
      if d = q then (closeQuote? q s).map fun (run, rest) => (q :: q :: run, rest)
      else some ([q], d :: s)
    else (closeQuote? q (d :: s)).map fun (run, rest) => (c :: run, rest)

theorem eq_append_of_closeQuote? {q : Char} {s run rest : List Char} (h : closeQuote? q s = some (run, rest)) :
    s = run ++ rest := by
  fun_induction closeQuote? q s generalizing run with
  | case1 => simp at h
  | case2 => simp_all
  | case3 => simp at h
  | case4 s ih =>
    obtain ⟨⟨r, t⟩, hr, he⟩ := Option.map_eq_some_iff.1 h
    obtain ⟨rfl, rfl⟩ := by simpa using he
    simp [ih hr]
  | case5 =>
    obtain ⟨rfl, rfl⟩ := by simpa using h
    rfl
  | case6 c d s _ ih =>
    obtain ⟨⟨r, t⟩, hr, he⟩ := Option.map_eq_some_iff.1 h
    obtain ⟨rfl, rfl⟩ := by simpa using he
    simp [ih hr]

theorem length_le_of_closeQuote? {q : Char} {s run rest : List Char} (h : closeQuote? q s = some (run, rest)) :
    rest.length ≤ s.length := by
  rw [eq_append_of_closeQuote? h]
  simp

/-! ## Writing and reading a literal -/

/-- Writes every `q` twice. -/
def double (q : Char) : List Char → List Char
  | [] => []
  | c :: s => if c = q then q :: q :: double q s else c :: double q s

/-- Turns every doubled `q`, taken from left to right, into a single one. -/
def collapse (q : Char) : List Char → List Char
  | [] => []
  | [c] => [c]
  | c :: d :: s => if c = q ∧ d = q then q :: collapse q s else c :: collapse q (d :: s)

theorem collapse_cons_of_ne {q c : Char} (h : c ≠ q) (s : List Char) : collapse q (c :: s) = c :: collapse q s := by
  cases s <;> simp [collapse, h]

theorem collapse_double (q : Char) (s : List Char) : collapse q (double q s) = s := by
  induction s with
  | nil => rfl
  | cons c s ih =>
    by_cases h : c = q
    · simp [double, h, collapse, ih]
    · simp [double, h, collapse_cons_of_ne h, ih]

/-- The literal between two quotes `q` that stands for `s`. -/
def encode (q : Char) (s : List Char) : List Char :=
  q :: (double q s ++ [q])

/-- The value that a text between two equal quotes stands for; any other text stands for itself. -/
def decode (s : List Char) : List Char :=
  match s with
  | [] => []
  | q :: rest => if isQuote q ∧ rest.getLast? = some q then collapse q rest.dropLast else s

theorem decode_encode {q : Char} (h : isQuote q = true) (s : List Char) : decode (encode q s) = s := by
  simp [decode, encode, h, collapse_double]

end RelQuery.Text
