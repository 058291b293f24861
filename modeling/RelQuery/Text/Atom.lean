import RelQuery.Text.Split
import RelQuery.Text.Quoted

/-!
# Atoms

A text is scanned as a list of atoms: a character outside quotes, or a quoted run as a whole. Parentheses, commas and
keywords count only where they are characters of their own, so a search on atoms never looks into a literal.

* `join_atoms` : the atoms of a text, joined, are the text;
* `eq_append_of_closeParen?` : the inside of a parenthesis, its end and the rest are the text.
-/

namespace RelQuery.Text

/-- A character outside quotes, a quoted run with its quotes, or a run that is never closed. -/
inductive Atom where
  | char (c : Char)
  | quoted (run : List Char)
  | unclosed (run : List Char)
  deriving DecidableEq, Repr

/-- The text of an atom. -/
def Atom.text : Atom → List Char
  | .char c => [c]
  | .quoted run => run
  | .unclosed run => run

/-- The text of a list of atoms. -/
def join (as : List Atom) : List Char :=
  as.flatMap Atom.text

@[simp] theorem join_nil : join [] = [] := rfl

@[simp] theorem join_cons (a : Atom) (as : List Atom) : join (a :: as) = a.text ++ join as := rfl

@[simp] theorem join_append (as bs : List Atom) : join (as ++ bs) = join as ++ join bs := by
  simp [join]

/-- The characters of a word that holds no quotes, as atoms. -/
def plain (word : List Char) : List Atom :=
  word.map .char

theorem join_plain (word : List Char) : join (plain word) = word := by
  induction word with
  | nil => rfl
  | cons c word ih => simpa [plain, Atom.text] using ih

/-- The atoms of a text. -/
def atoms (s : List Char) : List Atom :=
  match s with
  | [] => []
  | c :: s =>
    if isQuote c then
      match _h : closeQuote? c s with
      | some (run, rest) => .quoted (c :: run) :: atoms rest
      | none => [.unclosed (c :: s)]
    else .char c :: atoms s
termination_by s.length
decreasing_by
  · have := length_le_of_closeQuote? _h
    simp only [List.length_cons]
    omega
  · simp

theorem join_atoms (s : List Char) : join (atoms s) = s := by
  fun_induction atoms s with
  | case1 => rfl
  | case2 c s _ run rest h ih => simp [Atom.text, ih, eq_append_of_closeQuote? h]
  | case3 => simp [Atom.text]
  | case4 c s _ ih => simp [Atom.text, ih]

/-! ## Searching outside quotes -/

/-- Puts an atom in front of the left side of a cut. -/
def consLeft (a : Atom) (cut : List Atom × List Atom) : List Atom × List Atom :=
  (a :: cut.1, cut.2)

/-- A cut of a longer list that only puts its first atom on the left still puts the list together. -/
theorem append_of_map_consLeft {a : Atom} {as tail inside rest : List Atom} {cut : Option (List Atom × List Atom)}
    (ih : ∀ i, cut = some (i, rest) → as = i ++ tail) (h : cut.map (consLeft a) = some (inside, rest)) :
    a :: as = inside ++ tail := by
  obtain ⟨⟨i, r⟩, hi, he⟩ := Option.map_eq_some_iff.1 h
  obtain ⟨rfl, rfl⟩ := by simpa [consLeft] using he
  simp [ih i hi]

/-- Splits the atoms behind `depth` open parentheses at the one that closes the outermost of them. -/
def closeParen? : Nat → List Atom → Option (List Atom × List Atom)
  | _, [] => none
  | _, .unclosed _ :: _ => none
  | depth, .quoted run :: as => (closeParen? depth as).map (consLeft (.quoted run))
  | depth, .char c :: as =>
    if c = '(' then (closeParen? (depth + 1) as).map (consLeft (.char c))
    else if c = ')' then
      match depth with
      | 0 => some ([], as)
      | depth + 1 => (closeParen? depth as).map (consLeft (.char c))
    else (closeParen? depth as).map (consLeft (.char c))

theorem eq_append_of_closeParen? {depth : Nat} {as inside rest : List Atom}
    (h : closeParen? depth as = some (inside, rest)) : as = inside ++ .char ')' :: rest := by
  induction as generalizing depth inside with
  | nil => simp [closeParen?] at h
  | cons a as ih =>
    cases a with
    | unclosed run => simp [closeParen?] at h
    | quoted run => exact append_of_map_consLeft (fun _ => ih) (by simpa [closeParen?] using h)
    | char c =>
      simp only [closeParen?] at h
      split at h
      · exact append_of_map_consLeft (fun _ => ih) h
      · split at h
        next hc =>
          cases depth with
          | zero => simp_all
          | succ depth => exact append_of_map_consLeft (fun _ => ih) h
        next => exact append_of_map_consLeft (fun _ => ih) h

theorem length_lt_of_closeParen? {depth : Nat} {as inside rest : List Atom}
    (h : closeParen? depth as = some (inside, rest)) : inside.length < as.length ∧ rest.length < as.length := by
  rw [eq_append_of_closeParen? h]
  simp
  omega

/-- The atoms before and after the first occurrence of `word` outside quotes. -/
def cutOutside? (word : List Char) : List Atom → Option (List Atom × List Atom)
  | [] => none
  | .unclosed _ :: _ => none
  | .quoted run :: as => (cutOutside? word as).map (consLeft (.quoted run))
  | .char c :: as =>
    match strip? (plain word) (.char c :: as) with
    | some rest => some ([], rest)
    | none => (cutOutside? word as).map (consLeft (.char c))

/-- The atoms before and after the first comma outside quotes and parentheses; a `)` too many is not counted. -/
def cutComma? : Nat → List Atom → Option (List Atom × List Atom)
  | _, [] => none
  | _, .unclosed _ :: _ => none
  | depth, .quoted run :: as => (cutComma? depth as).map (consLeft (.quoted run))
  | depth, .char c :: as =>
    if c = ',' ∧ depth = 0 then some ([], as)
    else
      let inner := if c = '(' then depth + 1 else if c = ')' then depth - 1 else depth
      (cutComma? inner as).map (consLeft (.char c))

/-- The inside of a parenthesis and what follows it, for the text behind the opening `(`. -/
def insideParen? (s : List Char) : Option (List Char × List Char) :=
  (closeParen? 0 (atoms s)).map fun (inside, rest) => (join inside, join rest)

/-- The parts of a text around the first occurrence of `word` outside quotes. -/
def aroundOutside? (word s : List Char) : Option (List Char × List Char) :=
  (cutOutside? word (atoms s)).map fun (before, rest) => (join before, join rest)

/-- The parts of a text around the first comma outside quotes and parentheses. -/
def aroundComma? (s : List Char) : Option (List Char × List Char) :=
  (cutComma? 0 (atoms s)).map fun (before, rest) => (join before, join rest)

end RelQuery.Text
