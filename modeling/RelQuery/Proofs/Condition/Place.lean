import RelQuery.Proofs.Condition.Column
import RelQuery.Proofs.Condition.Literals
import RelQuery.Proofs.Condition.Parts
import RelQuery.Proofs.Condition.Reading
import Mathlib.Data.List.Induction
import Mathlib.Data.List.TakeWhile

/-!
# The place of a literal

The place of a literal in a text is marked by an atom that no text has, `hole`; filled with a literal, it is the text
with this literal there. The structure of the text belongs to the place and not to the literal, so it is told of the
text with the hole: in which span the place is (`HasSpan`), whether it is in the column of a test (`InColumn`) or
between the word of a containment and its parenthesis (`InGap`).

* `join_trimAtoms` : blanks may be trimmed from atoms as from texts;
* `Test.parts?_map`, `HasSpan.map` : parts and spans do not depend on literals;
* `columnOf_fill` : what fills a place outside the column does not matter to the column.
-/

namespace RelQuery

open Text Outline

/-! ## Trimming atoms -/

/-- The atoms without the blanks at their end. -/
def trimAtomsEnd (as : List Atom) : List Atom :=
  (as.reverse.dropWhile isBlankAtom).reverse

/-- The atoms without the blanks at both ends. -/
def trimAtoms (as : List Atom) : List Atom :=
  trimAtomsEnd (as.dropWhile isBlankAtom)

theorem trimAtomsEnd_concat (as : List Atom) (a : Atom) :
    trimAtomsEnd (as ++ [a]) = if isBlankAtom a = true then trimAtomsEnd as else as ++ [a] := by
  rw [trimAtomsEnd, List.reverse_append, List.reverse_singleton, List.singleton_append, List.dropWhile_cons]
  split
  · rfl
  · simp

theorem join_dropWhile : ∀ {as : List Atom}, Lexed as → join (as.dropWhile isBlankAtom) = trimStart (join as)
  | [], _ => rfl
  | .char c :: as, h => by
    have ih := join_dropWhile h.2
    cases hc : isBlank c with
    | true => simpa [isBlankAtom, hc, trimStart, Atom.text] using ih
    | false => simp [isBlankAtom, hc, trimStart, Atom.text]
  | .quoted run :: as, h => by
    obtain ⟨⟨q, s, hq, rfl, _⟩, _⟩ := h
    simp [isBlankAtom, trimStart, Atom.text, encode, isBlank_of_isQuote hq]
  | .unclosed _ :: _, h => absurd h id

theorem join_trimAtomsEnd {as : List Atom} (h : Lexed as) : join (trimAtomsEnd as) = trimEnd (join as) := by
  induction as using List.reverseRecOn with
  | nil => rfl
  | append_singleton as a ih =>
    have ha : Lexed [a] := h.right
    rw [trimAtomsEnd_concat, join_append]
    cases a with
    | char c =>
      cases hc : isBlank c with
      | true =>
        rw [if_pos (show isBlankAtom (.char c) = true from hc), ih h.left]
        have hb : trimEnd (join as ++ [c]) = trimEnd (join as) := by simp [trimEnd, hc]
        simpa [Atom.text] using hb.symm
      | false =>
        have hl : ∀ x ∈ (join as ++ [c]).getLast?, isBlank x = false := by simpa using hc
        have hb := trimEnd_of_tight (r := []) rfl hl
        simpa [isBlankAtom, hc, Atom.text] using hb.symm
    | quoted run =>
      obtain ⟨⟨q, s, hq, rfl, _⟩, _⟩ := ha
      have hl : ∀ x ∈ (join as ++ (q :: double q s ++ [q])).getLast?, isBlank x = false := by
        rw [← List.append_assoc, List.getLast?_concat]
        simpa using isBlank_of_isQuote hq
      have hb := trimEnd_of_tight (r := []) rfl hl
      simpa [isBlankAtom, Atom.text, encode] using hb.symm
    | unclosed run => exact absurd ha id

theorem lexed_dropWhile {as : List Atom} (h : Lexed as) : Lexed (as.dropWhile isBlankAtom) :=
  h.of_isInfix (List.dropWhile_suffix isBlankAtom).isInfix

theorem trimAtomsEnd_isPrefix (as : List Atom) : trimAtomsEnd as <+: as := by
  have h := List.reverse_prefix.2 (List.dropWhile_suffix (l := as.reverse) isBlankAtom)
  rwa [List.reverse_reverse] at h

theorem lexed_trimAtoms {as : List Atom} (h : Lexed as) : Lexed (trimAtoms as) :=
  (lexed_dropWhile h).of_isInfix (trimAtomsEnd_isPrefix _).isInfix

/-- What trimming leaves of a text are the trimmed atoms. -/
theorem join_trimAtoms {as : List Atom} (h : Lexed as) : join (trimAtoms as) = trim (join as) := by
  rw [trimAtoms, join_trimAtomsEnd (lexed_dropWhile h), join_dropWhile h, trim]

theorem trimAtoms_eq_nil {as : List Atom} (h : as.all isBlankAtom = true) : trimAtoms as = [] := by
  have hd : as.dropWhile isBlankAtom = [] := List.dropWhile_eq_nil_iff.2 (List.all_eq_true.1 h)
  rw [trimAtoms, hd]
  rfl

theorem dropWhile_map (g : List Char → List Char) : ∀ as : List Atom,
    (mapLiterals g as).dropWhile isBlankAtom = mapLiterals g (as.dropWhile isBlankAtom)
  | [] => rfl
  | .char c :: as => by
    have ih := dropWhile_map g as
    cases hc : isBlank c <;> simp [mapLiterals, isBlankAtom, hc, ih]
  | .quoted _ :: _ => rfl
  | .unclosed _ :: _ => rfl

theorem mapLiterals_reverse (g : List Char → List Char) : ∀ as : List Atom,
    mapLiterals g as.reverse = (mapLiterals g as).reverse
  | [] => rfl
  | .char _ :: as | .quoted _ :: as | .unclosed _ :: as => by
    simp [mapLiterals, mapLiterals_reverse g as]

theorem trimAtoms_map (g : List Char → List Char) (as : List Atom) :
    trimAtoms (mapLiterals g as) = mapLiterals g (trimAtoms as) := by
  simp only [trimAtoms, trimAtomsEnd, dropWhile_map, mapLiterals_reverse]
  rw [← mapLiterals_reverse, dropWhile_map, ← mapLiterals_reverse]

/-! ## Parts -/

/-- There is no test without atoms. -/
theorem Test.parts?_nil : Test.parts? [] = none := rfl

/-- The parts, their literals changed. -/
def Test.Parts.mapLiterals (g : List Char → List Char) : Test.Parts → Test.Parts
  | .equals path literal => .equals (Text.mapLiterals g path) (Text.mapLiterals g literal)
  | .contains gap path literal =>
    .contains (Text.mapLiterals g gap) (Text.mapLiterals g path) (Text.mapLiterals g literal)

theorem Test.Parts.column_mapLiterals (g : List Char → List Char) (parts : Test.Parts) :
    (parts.mapLiterals g).test.column = Test.columnOf (join (Text.mapLiterals g parts.path)) := by
  cases parts <;> rfl

theorem all_isBlankAtom_map (g : List Char → List Char) : ∀ as : List Atom,
    (mapLiterals g as).all isBlankAtom = as.all isBlankAtom
  | [] => rfl
  | .char _ :: as | .quoted _ :: as | .unclosed _ :: as => by
    simp only [mapLiterals, List.all_cons, all_isBlankAtom_map g as, isBlankAtom]

/-- **The parts of a test do not depend on literals.** -/
theorem Test.parts?_map (g : List Char → List Char) (as : List Atom) :
    Test.parts? (mapLiterals g as) = (Test.parts? as).map (Test.Parts.mapLiterals g) := by
  rw [Test.parts?, Test.parts?, cutOutside?_map, cutOutside?_map]
  cases cutOutside? Test.eqWord as with
  | some cut => rfl
  | none =>
    cases cutOutside? Test.containsWord as with
    | none => rfl
    | some cut =>
      obtain ⟨before, call⟩ := cut
      simp only [Option.map_none, Option.map_some, mapCut, Option.bind_eq_bind, Option.bind_some, cutOutside?_map]
      cases cutOutside? ['('] call with
      | none => rfl
      | some cut =>
        obtain ⟨gap, opened⟩ := cut
        simp only [Option.map_some, mapCut, Option.bind_some, closeParen?_map]
        cases closeParen? 0 opened with
        | none => rfl
        | some cut =>
          obtain ⟨arguments, rest⟩ := cut
          simp only [Option.map_some, mapCut, Option.bind_some, cutComma?_map, all_isBlankAtom_map]
          cases cutComma? 0 arguments with
          | none => rfl
          | some cut =>
            simp only [Option.map_some, mapCut, Option.bind_some]
            split <;> rfl

/-! ## Spans -/

/-- The text is one of the spans between connectives and parentheses that tests are read from. -/
inductive HasSpan : List Atom → List Atom → Prop
  | last {as text : List Atom} : span true as = (text, .done) → HasSpan as text
  | first {as text rest : List Atom} {k : Connective} : span true as = (text, .link k rest) → HasSpan as text
  | behind {as text rest t : List Atom} {k : Connective} : span true as = (text, .link k rest) → HasSpan rest t →
      HasSpan as t
  | inside {as text inside rest t : List Atom} : span true as = (text, .group inside rest) → HasSpan inside t →
      HasSpan as t
  | after {as text inside rest t : List Atom} : span true as = (text, .group inside rest) → HasSpan rest t →
      HasSpan as t

namespace HasSpan

variable {as t : List Atom}

theorem map (g : List Char → List Char) (h : HasSpan as t) : HasSpan (mapLiterals g as) (mapLiterals g t) := by
  induction h with
  | last hs => exact .last (by rw [span_map, hs]; rfl)
  | first hs => exact .first (by rw [span_map, hs]; rfl)
  | behind hs _ ih => exact .behind (by rw [span_map, hs]; rfl) ih
  | inside hs _ ih => exact .inside (by rw [span_map, hs]; rfl) ih
  | after hs _ ih => exact .after (by rw [span_map, hs]; rfl) ih

/-- A span is a part of the text. -/
theorem isInfix (h : HasSpan as t) : t <:+: as := by
  induction h with
  | last hs =>
    obtain ⟨rfl, _⟩ := splits_of_span hs
    exact List.infix_rfl
  | first hs =>
    obtain ⟨rfl, _⟩ := splits_of_span hs
    rw [List.append_assoc]
    exact (List.prefix_append _ _).isInfix
  | behind hs _ ih => exact ih.trans (suffix_of_link hs).isInfix
  | inside hs _ ih => exact ih.trans (infix_of_group hs)
  | after hs _ ih => exact ih.trans (suffix_of_group hs).isInfix

theorem lexed (h : HasSpan as t) (hl : Lexed as) : Lexed t :=
  hl.of_isInfix h.isInfix

/-- Without a connective or a parenthesis, all of the text is its only span. -/
theorem eq_of_span {text : List Atom} (h : HasSpan as t) (hs : span true as = (text, .done)) : t = text := by
  cases h with
  | last h => exact (Prod.mk.inj (h.symm.trans hs)).1
  | first h | behind h _ | inside h _ | after h _ => cases (Prod.mk.inj (h.symm.trans hs)).2

end HasSpan

/-! ## The place of a literal -/

/-- The place of a literal. No literal is written without its quotes, so no text has this atom. -/
def hole : Atom := .quoted []

/-- The literal `run` in the place of one. -/
def fill (run : List Char) (literal : List Char) : List Char :=
  if literal = [] then run else literal

theorem hole_notMem_of_lexed : ∀ {as : List Atom}, Lexed as → hole ∉ as
  | [], _ => List.not_mem_nil
  | .char _ :: as, h => by simpa [hole] using hole_notMem_of_lexed h.2
  | .quoted run :: as, h => by
    obtain ⟨⟨q, s, _, rfl, _⟩, hl⟩ := h
    simpa [hole, encode] using hole_notMem_of_lexed hl
  | .unclosed _ :: _, h => absurd h id

theorem mapLiterals_fill_of_notMem (run : List Char) : ∀ {as : List Atom}, hole ∉ as → mapLiterals (fill run) as = as
  | [], _ => rfl
  | .char c :: as, h => by
    have ih := mapLiterals_fill_of_notMem run fun hm : hole ∈ as => h (List.mem_cons_of_mem _ hm)
    simp [mapLiterals, ih]
  | .unclosed r :: as, h => by
    have ih := mapLiterals_fill_of_notMem run fun hm : hole ∈ as => h (List.mem_cons_of_mem _ hm)
    simp [mapLiterals, ih]
  | .quoted r :: as, h => by
    have ih := mapLiterals_fill_of_notMem run fun hm : hole ∈ as => h (List.mem_cons_of_mem _ hm)
    have hr : r ≠ [] := by
      rintro rfl
      exact h List.mem_cons_self
    simp [mapLiterals, fill, hr, ih]

theorem mapLiterals_fill_hole (run : List Char) (as : List Atom) :
    mapLiterals (fill run) (hole :: as) = .quoted run :: mapLiterals (fill run) as := rfl

/-- The characters of a text with its place filled. -/
theorem mem_join_fill {run : List Char} {c : Char} : ∀ as : List Atom,
    c ∈ join (mapLiterals (fill run) as) ↔ c ∈ join as ∨ hole ∈ as ∧ c ∈ run
  | [] => by simp [mapLiterals]
  | .char x :: as => by
    simp [mapLiterals, mem_join_fill as, Atom.text, hole, or_assoc]
  | .unclosed r :: as => by
    simp [mapLiterals, mem_join_fill as, Atom.text, hole, or_assoc]
  | .quoted r :: as => by
    by_cases hr : r = []
    · simp [mapLiterals, mem_join_fill as, Atom.text, hole, hr, fill]
      tauto
    · simp [mapLiterals, mem_join_fill as, Atom.text, hole, hr, fill, or_assoc, Ne.symm hr]

/-! ## Places in a test -/

/-- The last place of an atom in a list. -/
theorem exists_append_hole {as : List Atom} (h : hole ∈ as) : ∃ a b, as = a ++ hole :: b ∧ hole ∉ b := by
  induction as with
  | nil => cases h
  | cons x as ih =>
    by_cases hm : hole ∈ as
    · obtain ⟨a, b, rfl, hb⟩ := ih hm
      exact ⟨x :: a, b, rfl, hb⟩
    · obtain rfl : hole = x := by simpa [hm] using h
      exact ⟨[], as, rfl, hm⟩

namespace Test

/-- The place is in the last segment of the path, which is the column. -/
def Parts.InColumn (parts : Parts) : Prop :=
  ∃ a b, parts.path = a ++ hole :: b ∧ '/' ∉ join b

/-- **Outside the column**, what fills the place does not matter to it. -/
theorem columnOf_fill {parts : Parts} (h : ¬parts.InColumn) (run run' : List Char) :
    columnOf (join (mapLiterals (fill run) parts.path)) = columnOf (join (mapLiterals (fill run') parts.path)) := by
  by_cases hm : hole ∈ parts.path
  · obtain ⟨a, b, hp, hb⟩ := exists_append_hole hm
    have hslash : '/' ∈ join b := by
      by_contra hno
      exact h ⟨a, b, hp, hno⟩
    -- a slash follows the place, and nothing in front of that slash matters
    have hfill : ∀ r, columnOf (join (mapLiterals (fill r) parts.path)) = columnOf (join b) := by
      intro r
      rw [hp, mapLiterals_append, mapLiterals_fill_hole, mapLiterals_fill_of_notMem r hb, join_append, join_cons,
        ← List.append_assoc, columnOf_append hslash]
    rw [hfill run, hfill run']
  · rw [mapLiterals_fill_of_notMem run hm, mapLiterals_fill_of_notMem run' hm]

/-- **In the column**, what fills the place shows. -/
theorem length_le_columnOf_fill {parts : Parts} (h : parts.InColumn) {run : List Char} (hr : '/' ∉ run) :
    (squeeze run).length ≤ (columnOf (join (mapLiterals (fill run) parts.path))).length := by
  obtain ⟨a, b, hp, hb⟩ := h
  have hno : '/' ∉ run ++ join (mapLiterals (fill run) b) := by
    intro hm
    rcases List.mem_append.1 hm with hm | hm
    · exact hr hm
    · rcases (mem_join_fill b).1 hm with hm | ⟨_, hm⟩
      · exact hb hm
      · exact hr hm
  obtain ⟨u, hu⟩ := squeeze_columnOf_append hno (join (mapLiterals (fill run) a))
  have hpath : join (mapLiterals (fill run) parts.path) =
      join (mapLiterals (fill run) a) ++ (run ++ join (mapLiterals (fill run) b)) := by
    rw [hp, mapLiterals_append, mapLiterals_fill_hole, join_append, join_cons]
    rfl
  rw [hpath]
  calc (squeeze run).length ≤ (u ++ squeeze (run ++ join (mapLiterals (fill run) b))).length := by
        simp
        omega
    _ = (squeeze (columnOf (join (mapLiterals (fill run) a) ++ (run ++ join (mapLiterals (fill run) b))))).length := by
        rw [hu]
    _ ≤ _ := List.length_filter_le _ _

/-- The literal of an equality ends the text. -/
theorem suffix_of_parts? {as path literal : List Atom} (h : parts? as = some (.equals path literal)) :
    literal <:+ as := by
  rw [parts?] at h
  cases hcut : cutOutside? eqWord as with
  | some cut =>
    rw [hcut] at h
    obtain ⟨rfl, rfl⟩ : cut.1 = path ∧ cut.2 = literal := by simpa using h
    exact ⟨cut.1 ++ plain eqWord, by rw [List.append_assoc, ← eq_append_of_cutOutside? (by decide) hcut]⟩
  | none =>
    -- a call does not make an equality
    simp only [hcut, Option.bind_eq_bind, Option.bind_eq_some_iff] at h
    obtain ⟨_, _, _, _, _, _, _, _, h⟩ := h
    split at h <;> cases h

/-- A text with parts is not blank, whatever its literals are. -/
theorem isBlankText_of_parts? {text : List Atom} {g : List Char → List Char} {parts : Parts}
    (hl : Lexed (mapLiterals g text)) (h : parts? (trimAtoms text) = some parts) :
    isBlankText (join (mapLiterals g text)) = false := by
  cases hb : isBlankText (join (mapLiterals g text)) with
  | false => rfl
  | true =>
    have hblank := (all_isBlankAtom_iff hl).2 hb
    rw [all_isBlankAtom_map] at hblank
    rw [trimAtoms_eq_nil hblank, parts?_nil] at h
    cases h

/-- A literal is there, whatever it is. -/
theorem trim_ne_nil_map {as literal : List Atom} {g g' : List Char → List Char} (hl : Lexed (mapLiterals g as))
    (hl' : Lexed (mapLiterals g' as)) (hs : literal <:+ as) (h : trim (join (mapLiterals g literal)) ≠ []) :
    trim (join (mapLiterals g' literal)) ≠ [] := by
  obtain ⟨t, rfl⟩ := hs
  rw [mapLiterals_append] at hl hl'
  rw [ne_eq, ← isBlankText_iff, ← all_isBlankAtom_iff hl.right, all_isBlankAtom_map] at h
  rwa [ne_eq, ← isBlankText_iff, ← all_isBlankAtom_iff hl'.right, all_isBlankAtom_map]

/-- The test that is read from a text with its place filled. -/
theorem ofSpan?_fill_iff {text : List Atom} {run : List Char} (hl : Lexed (mapLiterals (fill run) text)) {t : Test} :
    ofSpan? (trim (join (mapLiterals (fill run) text))) = some t ↔ ∃ parts, parts? (trimAtoms text) = some parts ∧
      (parts.mapLiterals (fill run)).Valid ∧ t = (parts.mapLiterals (fill run)).test := by
  rw [← join_trimAtoms hl, ofSpan?_join_iff (lexed_trimAtoms hl), trimAtoms_map, parts?_map]
  simp

/-- **A test keeps its column and its comparison** when a literal outside its column is replaced, by one that brings
no `(` in front of the parenthesis of a call. -/
theorem ofSpan?_fill {text : List Atom} {run run' : List Char} (hl : Lexed (mapLiterals (fill run) text))
    (hl' : Lexed (mapLiterals (fill run') text)) (hcolumn : ∀ parts ∈ parts? (trimAtoms text), ¬parts.InColumn)
    (hgap : ∀ parts ∈ parts? (trimAtoms text), hole ∈ parts.gap → '(' ∉ run') {t : Test}
    (h : ofSpan? (trim (join (mapLiterals (fill run) text))) = some t) :
    ∃ t', ofSpan? (trim (join (mapLiterals (fill run') text))) = some t' ∧ t'.column = t.column ∧
      t'.comparison = t.comparison := by
  obtain ⟨parts, hparts, hvalid, rfl⟩ := (ofSpan?_fill_iff hl).1 h
  have hc := columnOf_fill (hcolumn parts hparts) run run'
  have hg := hgap parts hparts
  cases parts with
  | equals path literal =>
    have hliteral := trim_ne_nil_map (trimAtoms_map (fill run) text ▸ lexed_trimAtoms hl)
      (trimAtoms_map (fill run') text ▸ lexed_trimAtoms hl') (suffix_of_parts? hparts) hvalid.2
    exact ⟨_, (ofSpan?_fill_iff hl').2 ⟨_, hparts, ⟨hc ▸ hvalid.1, hliteral⟩, rfl⟩, hc.symm, rfl⟩
  | contains gap path literal =>
    have hparen : '(' ∉ join (mapLiterals (fill run') gap) := by
      intro hm
      rcases (mem_join_fill gap).1 hm with hm | ⟨hhole, hm⟩
      · exact hvalid.2 ((mem_join_fill gap).2 (.inl hm))
      · exact hg hhole hm
    exact ⟨_, (ofSpan?_fill_iff hl').2 ⟨_, hparts, ⟨hc ▸ hvalid.1, hparen⟩, rfl⟩, hc.symm, rfl⟩

end Test

/-- The place is in the column of one of the tests. -/
def InColumn (as : List Atom) : Prop :=
  ∃ text, HasSpan as text ∧ ∃ parts ∈ Test.parts? (trimAtoms text), parts.InColumn

/-- The place is between the word of a containment and its parenthesis. -/
def InGap (as : List Atom) : Prop :=
  ∃ text, HasSpan as text ∧ ∃ parts ∈ Test.parts? (trimAtoms text), hole ∈ parts.gap

/-- In a text that is one comparison, only a place in the path can be in the column. -/
theorem not_inColumn_of_span {as text path literal : List Atom} (hs : span true as = (text, .done))
    (hparts : Test.parts? (trimAtoms text) = some (.equals path literal)) (hpath : hole ∉ path) : ¬InColumn as := by
  rintro ⟨t, hspan, parts, hp, a, b, he, -⟩
  obtain rfl := hspan.eq_of_span hs
  obtain rfl := Option.some.inj (hparts.symm.trans hp)
  exact hpath (by rw [show path = a ++ hole :: b from he]; simp)

/-! ## Filling a place in a text -/

theorem mapLiterals_fill_append {pre post : List Atom} (hpre : hole ∉ pre) (hpost : hole ∉ post) (run : List Char) :
    mapLiterals (fill run) (pre ++ hole :: post) = pre ++ .quoted run :: post := by
  rw [mapLiterals_append, mapLiterals_fill_hole, mapLiterals_fill_of_notMem run hpre,
    mapLiterals_fill_of_notMem run hpost]

/-- A literal may be replaced by another with the same quotes. -/
theorem Text.Lexed.replace {q : Char} {content : List Char} {post : List Atom} (new : List Char) :
    ∀ {pre : List Atom}, Lexed (pre ++ .quoted (q :: content) :: post) → Lexed (pre ++ .quoted (encode q new) :: post)
  | [], h => by
    obtain ⟨⟨x, s, hx, he, hn⟩, hl⟩ := h
    obtain ⟨rfl, _⟩ := List.cons.inj he
    exact ⟨⟨q, new, hx, rfl, hn⟩, hl⟩
  | .char _ :: pre, h => ⟨h.1, Lexed.replace new h.2⟩
  | .quoted run :: pre, h => by
    obtain ⟨⟨x, s, hx, he, hn⟩, hl⟩ := h
    refine ⟨⟨x, s, hx, he, fun hh => hn ?_⟩, Lexed.replace new hl⟩
    -- both literals begin with the same quote
    cases hj : join pre <;> simpa [hj, encode, Atom.text] using hh
  | .unclosed _ :: _, h => absurd h id

end RelQuery
