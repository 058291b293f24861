import RelQuery.Condition.Test
import RelQuery.Proofs.Condition.Outline
import RelQuery.Proofs.Text.Cutting
import RelQuery.Proofs.Text.Search

/-!
# The parts of a test

The text of a test is cut into its parts: path, literal and, in a containment, what stands between the word and its
parenthesis. All cuts are made outside quotes, though the parenthesis is searched for in the plain text: were it found
in a literal, the rest would be read with that literal's quote as an opening one, and the quotes would not come out even
(`Test.ofCall?_join_iff`).

* `Test.ofSpan?_join_iff` : a test is read exactly from the parts of its text, and what is checked of them.
-/

namespace RelQuery

open Text Outline

/-! ## Characters among atoms -/

/-- A character that no quote is, and that does not occur in a text, is none of its atoms. -/
theorem Text.char_notMem {c : Char} {as : List Atom} (h : c ∉ join as) : .char c ∉ as := by
  intro hm
  obtain ⟨l, r, rfl⟩ := List.append_of_mem hm
  simp [Atom.text] at h

/-! ## Blank atoms -/

/-- The atoms of a blank text are blanks: a literal holds its quotes. -/
theorem all_isBlankAtom_iff : ∀ {as : List Atom}, Lexed as →
    (as.all isBlankAtom = true ↔ isBlankText (join as) = true)
  | [], _ => by simp [isBlankText]
  | .char c :: as, h => by
    have ih := all_isBlankAtom_iff h.2
    rw [join_cons, isBlankText_append, List.all_cons, Bool.and_eq_true, Bool.and_eq_true, ih]
    simp [isBlankAtom, isBlankText, Atom.text]
  | .quoted run :: as, h => by
    obtain ⟨⟨q, s, hq, rfl, _⟩, _⟩ := h
    constructor
    · intro hb
      simp [isBlankAtom] at hb
    · intro hb
      have hqb := isQuote_of_isBlankText hb q (by simp [Atom.text, encode])
      simp [hq] at hqb
  | .unclosed _ :: _, h => absurd h id

/-- A literal that is never closed begins with its quote. -/
theorem Text.exists_quote_of_unclosed {s run : List Char} (h : .unclosed run ∈ atoms s) :
    ∃ q t, run = q :: t ∧ isQuote q = true := by
  fun_induction atoms s with
  | case1 => simp at h
  | case2 c s hc r rest hr ih => exact ih (by simpa using h)
  | case3 c s hc =>
    obtain rfl : run = c :: s := by simpa using h
    exact ⟨c, s, rfl, hc⟩
  | case4 c s hc ih => exact ih (by simpa using h)

namespace Test

/-! ## Parts -/

/-- The parts of a test's text. -/
inductive Parts where
  | equals (path literal : List Atom)
  | contains (gap path literal : List Atom)

/-- The parts of a test's text: the two sides of ` eq `, or the path and the literal of a call that ends the text. -/
def parts? (as : List Atom) : Option Parts :=
  match cutOutside? eqWord as with
  | some (path, literal) => some (.equals path literal)
  | none => do
    let (_, call) ← cutOutside? containsWord as
    let (gap, opened) ← cutOutside? ['('] call
    let (arguments, rest) ← closeParen? 0 opened
    let (path, literal) ← cutComma? 0 arguments
    if rest.all isBlankAtom then some (.contains gap path literal) else none

namespace Parts

/-- The path of the column. -/
def path : Parts → List Atom
  | equals path _ | contains _ path _ => path

/-- The atoms between the word of a containment and its parenthesis. -/
def gap : Parts → List Atom
  | equals .. => []
  | contains gap .. => gap

/-- The test that the parts make. -/
def test : Parts → Test
  | equals path literal => ⟨columnOf (join path), .equals, decode (trim (join literal))⟩
  | contains _ path literal => ⟨columnOf (join path), .contains, decode (trim (join literal))⟩

/-- What is checked of the parts: there is a column, an equality has a literal, and the first `(` behind the word of a
containment is the one outside quotes. -/
def Valid : Parts → Prop
  | equals path literal => columnOf (join path) ≠ [] ∧ trim (join literal) ≠ []
  | contains gap path _ => columnOf (join path) ≠ [] ∧ '(' ∉ join gap

end Parts

/-- The text behind a parenthesis that is closed in front of blanks has its literals closed. -/
theorem lexed_of_insideParen? {opened inside rest : List Char} (h : insideParen? opened = some (inside, rest))
    (hb : isBlankText rest = true) : Lexed (atoms opened) ∧ ∃ i r, closeParen? 0 (atoms opened) = some (i, r) ∧
      join i = inside ∧ join r = rest := by
  obtain ⟨⟨i, r⟩, hc, he⟩ := Option.map_eq_some_iff.1 h
  obtain ⟨rfl, rfl⟩ : join i = inside ∧ join r = rest := by simpa using he
  obtain ⟨ha, hn⟩ := closeParen?_eq_some_iff.1 hc
  refine ⟨lexed_atoms fun run hm => ?_, i, r, hc, rfl, rfl⟩
  obtain ⟨q, t, rfl, hq⟩ := exists_quote_of_unclosed hm
  rw [ha] at hm
  rcases List.mem_append.1 hm with hm | hm
  · exact closed_of_nest hn _ hm
  · have hr : .unclosed (q :: t) ∈ r := by simpa using hm
    obtain ⟨l, r', rfl⟩ := List.append_of_mem hr
    have hqb := isQuote_of_isBlankText hb q (by simp [Atom.text])
    simp [hq] at hqb

/-- **The parenthesis of a call stands outside quotes**, and so does what is read behind it. -/
theorem exists_atoms_of_insideParen? {call : List Atom} (hl : Lexed call) {before opened inside rest : List Char}
    (hcut : cut? ['('] (join call) = some (before, opened)) (h : insideParen? opened = some (inside, rest))
    (hb : isBlankText rest = true) : ∃ gap, cutOutside? ['('] call = some (gap, atoms opened) ∧ join gap = before := by
  obtain ⟨hlo, _⟩ := lexed_of_insideParen? h hb
  have hnone : QuoteOpen none := by simp [QuoteOpen]
  have he := append_of_cut? hcut
  -- the quotes come out even behind the parenthesis and in the whole, so none is open in front of it
  have hopened : openQuote none opened = none := by simpa [join_atoms] using openQuote_join hlo
  have hwhole : openQuote (openQuote none before) opened = none := by
    have hj := openQuote_join hl
    rw [he, openQuote_append, openQuote_append] at hj
    have hparen : openQuote (openQuote none before) ['('] = openQuote none before :=
      openQuote_of_not_isQuote (hnone.open before) (by simp [isQuote])
    rwa [hparen] at hj
  have hbefore : openQuote none before = none :=
    openQuote_injective (hnone.open before) hnone (hwhole.trans hopened.symm)
  obtain ⟨gap, os, rfl, rfl, rfl⟩ := exists_atoms_of_openQuote (c := '(') (by decide) hl (by simpa using he) hbefore
  have hos : Lexed os := hl.right.2
  have hgap : .char '(' ∉ gap := char_notMem (cut?_singleton_iff.1 hcut).2
  exact ⟨gap, by rw [cutOutside?_singleton hl.left hgap, atoms_join hos], rfl⟩

/-- The test of a call's arguments, from their atoms. -/
theorem ofArguments?_join_iff {arguments : List Atom} (hl : Lexed arguments) {t : Test} :
    ofArguments? (join arguments) = some t ↔ ∃ path literal, cutComma? 0 arguments = some (path, literal) ∧
      columnOf (join path) ≠ [] ∧ t = ⟨columnOf (join path), .contains, decode (trim (join literal))⟩ := by
  rw [ofArguments?, aroundComma?, atoms_join hl]
  cases cutComma? 0 arguments with
  | none => simp
  | some cut =>
    obtain ⟨path, literal⟩ := cut
    simp only [Option.map_some, Option.bind_eq_bind, Option.bind_some]
    constructor
    · intro h
      split at h
      next => cases h
      next hcolumn =>
        obtain rfl := Option.some.inj h
        exact ⟨path, literal, rfl, by simpa using hcolumn, rfl⟩
    · rintro ⟨p, l, he, hcolumn, rfl⟩
      obtain ⟨rfl, rfl⟩ := by simpa using he
      rw [if_neg (by simpa using hcolumn)]

/-- **A call is read** exactly from its atoms, if the first `(` of its text is one of them. -/
theorem ofCall?_join_iff {call : List Atom} (hl : Lexed call) {t : Test} : ofCall? (join call) = some t ↔
    ∃ gap opened arguments rest path literal, cutOutside? ['('] call = some (gap, opened) ∧
      closeParen? 0 opened = some (arguments, rest) ∧ cutComma? 0 arguments = some (path, literal) ∧
        rest.all isBlankAtom = true ∧ '(' ∉ join gap ∧ columnOf (join path) ≠ [] ∧
          t = ⟨columnOf (join path), .contains, decode (trim (join literal))⟩ := by
  constructor
  · intro h
    simp only [ofCall?, Option.bind_eq_bind, Option.bind_eq_some_iff] at h
    obtain ⟨⟨before, opened⟩, hcut, ⟨inside, rest⟩, hin, h⟩ := h
    dsimp only at hin h
    split at h
    next hb =>
      obtain ⟨hlo, i, r, hclose, rfl, rfl⟩ := lexed_of_insideParen? hin hb
      obtain ⟨gap, hgap, rfl⟩ := exists_atoms_of_insideParen? hl hcut hin hb
      have hsplit := eq_append_of_closeParen? hclose
      have hi : Lexed i := (hsplit ▸ hlo).left
      have hr : Lexed r := (hsplit ▸ hlo).right.2
      obtain ⟨path, literal, hcomma, hcolumn, ht⟩ := (ofArguments?_join_iff hi).1 h
      exact ⟨gap, _, i, r, path, literal, hgap, hclose, hcomma, (all_isBlankAtom_iff hr).2 hb,
        (cut?_singleton_iff.1 hcut).2, hcolumn, ht⟩
    next => cases h
  · rintro ⟨gap, opened, arguments, rest, path, literal, hgap, hclose, hcomma, hrest, hparen, hcolumn, ht⟩
    obtain rfl := eq_append_of_cutOutside? (by decide) hgap
    have ho : Lexed opened := hl.right.2
    obtain rfl := eq_append_of_closeParen? hclose
    have hr : Lexed rest := ho.right.2
    have hcut : cut? ['('] (join (gap ++ (plain ['('] ++ (arguments ++ .char ')' :: rest)))) =
        some (join gap, join (arguments ++ .char ')' :: rest)) := by
      rw [join_append, join_append, join_plain]
      exact cut?_singleton_iff.2 ⟨rfl, hparen⟩
    have hin : insideParen? (join (arguments ++ .char ')' :: rest)) = some (join arguments, join rest) := by
      rw [insideParen?, atoms_join ho, hclose]
      rfl
    have hb : isBlankText (join rest) = true := (all_isBlankAtom_iff hr).1 hrest
    simp only [ofCall?, hcut, Option.bind_eq_bind, Option.bind_some, hin, hb, if_true]
    exact (ofArguments?_join_iff ho.left).2 ⟨path, literal, hcomma, hcolumn, ht⟩

/-- **A test is read** exactly from the parts of its text, if what is checked of them holds. -/
theorem ofSpan?_join_iff {as : List Atom} (hl : Lexed as) {t : Test} :
    ofSpan? (join as) = some t ↔ ∃ parts, parts? as = some parts ∧ parts.Valid ∧ t = parts.test := by
  rw [ofSpan?, aroundOutside?, aroundOutside?, atoms_join hl, parts?]
  cases hcut : cutOutside? eqWord as with
  | some cut =>
    obtain ⟨path, literal⟩ := cut
    by_cases hvalid : columnOf (join path) = [] ∨ trim (join literal) = []
    · have hno : ¬(Parts.equals path literal).Valid := fun h => hvalid.elim h.1 h.2
      simp [ofSides?, hvalid, hno]
    · have hyes : (Parts.equals path literal).Valid := ⟨fun h => hvalid (.inl h), fun h => hvalid (.inr h)⟩
      simpa [ofSides?, hvalid, hyes, Parts.test] using eq_comm
  | none =>
    cases hword : cutOutside? containsWord as with
    | none => simp
    | some cut =>
      obtain ⟨before, call⟩ := cut
      have hcall : Lexed call := (eq_append_of_cutOutside? (by decide) hword ▸ hl).right.right
      have hread := ofCall?_join_iff hcall (t := t)
      simp only [Option.map_none, Option.map_some, hread, Option.bind_eq_bind, Option.bind_some]
      constructor
      · rintro ⟨gap, opened, arguments, rest, path, literal, hgap, hclose, hcomma, hrest, hparen, hcolumn, rfl⟩
        refine ⟨.contains gap path literal, ?_, ⟨hcolumn, hparen⟩, rfl⟩
        simp only [hgap, hclose, hcomma, hrest, Option.bind_some, if_true]
      · rintro ⟨parts, hparts, hvalid, rfl⟩
        simp only [Option.bind_eq_some_iff] at hparts
        obtain ⟨⟨gap, opened⟩, hgap, ⟨arguments, rest⟩, hclose, ⟨path, literal⟩, hcomma, hparts⟩ := hparts
        dsimp only at hclose hcomma hparts
        split at hparts
        next hrest =>
          obtain rfl := Option.some.inj hparts
          exact ⟨gap, opened, arguments, rest, path, literal, hgap, hclose, hcomma, hrest, hvalid.2, hvalid.1, rfl⟩
        next => cases hparts

end Test

end RelQuery
