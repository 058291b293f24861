import RelQuery.Condition.Sql
import RelQuery.Proofs.Condition.Place

/-!
# Replacing a literal

What stands between the quotes of a literal goes to the bindings and not to the SQL, with one exception: a path may hold
a literal, and one in its last segment is in the column. So a literal may be replaced without a change to the SQL
exactly if its place is not in a column (`Condition.compile_replaced_iff`). In a column it shows
(`Condition.not_forall_compile_replaced`).

* `Reads.mapLiterals` : a text whose tests keep their columns and comparisons is read as the same condition.
-/

namespace RelQuery

open Text Outline

/-! ## Readings of texts that differ in literals -/

theorem Outline.exists_span_of_map {g : List Char → List Char} {as text : List Atom} {stop : Stop}
    (h : span true (mapLiterals g as) = (text, stop)) :
    ∃ t s, span true as = (t, s) ∧ text = mapLiterals g t ∧ stop = s.mapLiterals g := by
  rw [span_map] at h
  obtain ⟨rfl, rfl⟩ := Prod.mk.inj h
  exact ⟨_, _, rfl, rfl, rfl⟩

theorem Outline.span_map_of_span {as text : List Atom} {stop : Stop} (g : List Char → List Char)
    (h : span true as = (text, stop)) : span true (mapLiterals g as) = (mapLiterals g text, stop.mapLiterals g) := by
  rw [span_map, h]
  rfl

/-- The tests read from a text with one and with other literals have the same column and comparison. -/
def KeepsTest (g g' : List Char → List Char) (text : List Atom) : Prop :=
  ∀ t, Test.ofSpan? (trim (join (mapLiterals g text))) = some t →
    ∃ t', Test.ofSpan? (trim (join (mapLiterals g' text))) = some t' ∧ t'.column = t.column ∧
      t'.comparison = t.comparison

/-- Two drafts make the same conditions. -/
def Draft.Alike (cs cs' : Draft) : Prop :=
  ∀ (d : Dialect) (n : Nat), Draft.nodes d n cs' = Draft.nodes d n cs ∧
    (Draft.tests cs').length = (Draft.tests cs).length

theorem HasSpan.isBlankText_map {g g' : List Char → List Char} {as text : List Atom} (h : HasSpan as text)
    (hl : Lexed (mapLiterals g as)) (hl' : Lexed (mapLiterals g' as)) :
    isBlankText (join (mapLiterals g' text)) = isBlankText (join (mapLiterals g text)) := by
  rw [Bool.eq_iff_iff, ← all_isBlankAtom_iff ((h.map g').lexed hl'), ← all_isBlankAtom_iff ((h.map g).lexed hl),
    all_isBlankAtom_map, all_isBlankAtom_map]

/-- **A text whose tests keep their columns and comparisons** under a change of literals is read as before, up to the
values. -/
theorem Reads.mapLiterals {g g' : List Char → List Char} {f : Bool} {as : List Atom} {cs : Draft}
    (h : Reads f as cs) : ∀ {bs : List Atom}, as = Text.mapLiterals g bs → Lexed as → Lexed (Text.mapLiterals g' bs) →
      (∀ text, HasSpan bs text → KeepsTest g g' text) →
        ∃ cs', Reads f (Text.mapLiterals g' bs) cs' ∧ Draft.Alike cs cs' := by
  induction h with
  | blank hs hb =>
    rintro bs rfl hl hl' _
    obtain ⟨text, s, ht, rfl, hstop⟩ := exists_span_of_map hs
    cases s <;> cases hstop
    have hb' := ((HasSpan.last ht).isBlankText_map hl hl').trans hb
    exact ⟨[], .blank (span_map_of_span g' ht) hb', fun _ _ => ⟨rfl, rfl⟩⟩
  | test hs hb hread =>
    rintro bs rfl hl hl' hkeep
    obtain ⟨text, s, ht, rfl, hstop⟩ := exists_span_of_map hs
    cases s <;> cases hstop
    have hb' := ((HasSpan.last ht).isBlankText_map hl hl').trans hb
    obtain ⟨t', hread', hcolumn, hcomparison⟩ := hkeep text (.last ht) _ hread
    exact ⟨_, .test (span_map_of_span g' ht) hb' hread', fun d n => ⟨by simp [Draft.nodes, Clause.node, *], rfl⟩⟩
  | group hs _ _ ih₁ ih₂ =>
    rintro bs rfl hl hl' hkeep
    obtain ⟨text, s, ht, rfl, hstop⟩ := exists_span_of_map hs
    cases s <;> cases hstop
    have ht' := span_map_of_span g' ht
    obtain ⟨cs₁, h₁, ha₁⟩ := ih₁ rfl (hl.of_isInfix (infix_of_group hs)) (hl'.of_isInfix (infix_of_group ht'))
      fun text h => hkeep text (.inside ht h)
    obtain ⟨cs₂, h₂, ha₂⟩ := ih₂ rfl (hl.of_isInfix (suffix_of_group hs).isInfix)
      (hl'.of_isInfix (suffix_of_group ht').isInfix) fun text h => hkeep text (.after ht h)
    refine ⟨_, .group ht' h₁ h₂, fun d n => ?_⟩
    simp [Draft.nodes, Clause.node, Draft.tests, Clause.tests, (ha₁ d _).1, (ha₁ d n).2, (ha₂ d _).1, (ha₂ d n).2]
  | link hs hb _ ih =>
    rintro bs rfl hl hl' hkeep
    obtain ⟨text, s, ht, rfl, hstop⟩ := exists_span_of_map hs
    cases s <;> cases hstop
    have ht' := span_map_of_span g' ht
    have hb' := ((HasSpan.first ht).isBlankText_map hl hl').trans hb
    obtain ⟨cs', h', ha⟩ := ih rfl (hl.of_isInfix (suffix_of_link hs).isInfix)
      (hl'.of_isInfix (suffix_of_link ht').isInfix) fun text h => hkeep text (.behind ht h)
    refine ⟨_, .link ht' hb' h', fun d n => ?_⟩
    simp [Draft.nodes, Clause.node, Draft.tests, Clause.tests, (ha d _).1, (ha d n).2]
  | testLink hs hb hread _ ih =>
    rintro bs rfl hl hl' hkeep
    obtain ⟨text, s, ht, rfl, hstop⟩ := exists_span_of_map hs
    cases s <;> cases hstop
    have ht' := span_map_of_span g' ht
    have hb' := ((HasSpan.first ht).isBlankText_map hl hl').trans hb
    obtain ⟨t', hread', hcolumn, hcomparison⟩ := hkeep text (.first ht) _ hread
    obtain ⟨cs', h', ha⟩ := ih rfl (hl.of_isInfix (suffix_of_link hs).isInfix)
      (hl'.of_isInfix (suffix_of_link ht').isInfix) fun text h => hkeep text (.behind ht h)
    refine ⟨_, .testLink ht' hb' hread' h', fun d n => ?_⟩
    simp [Draft.nodes, Clause.node, Draft.tests, Clause.tests, hcolumn, hcomparison, (ha d _).1, (ha d n).2]

/-- Every span that is not blank is read as a test. -/
theorem Reads.exists_test {f : Bool} {as : List Atom} {cs : Draft} (h : Reads f as cs) :
    ∀ {text : List Atom}, HasSpan as text → isBlankText (join text) = false →
      ∃ t ∈ Draft.tests cs, Test.ofSpan? (trim (join text)) = some t := by
  induction h with
  | blank hs hb =>
    intro text hspan hne
    cases hspan with
    | last h =>
      obtain ⟨rfl, _⟩ := Prod.mk.inj (hs.symm.trans h)
      simp [hb] at hne
    | first h | behind h _ | inside h _ | after h _ => simp [hs] at h
  | @test f as text t hs hb hread =>
    intro text hspan hne
    cases hspan with
    | last h =>
      obtain ⟨rfl, _⟩ := Prod.mk.inj (hs.symm.trans h)
      exact ⟨t, List.mem_singleton.2 rfl, hread⟩
    | first h | behind h _ | inside h _ | after h _ => simp [hs] at h
  | group hs _ _ ih₁ ih₂ =>
    intro text hspan hne
    cases hspan with
    | last h | first h | behind h _ => simp [hs] at h
    | inside h ht =>
      obtain ⟨rfl, rfl⟩ := Stop.group.inj (Prod.mk.inj (hs.symm.trans h)).2
      obtain ⟨t, hm, hread⟩ := ih₁ ht hne
      exact ⟨t, List.mem_append_left _ hm, hread⟩
    | after h ht =>
      obtain ⟨rfl, rfl⟩ := Stop.group.inj (Prod.mk.inj (hs.symm.trans h)).2
      obtain ⟨t, hm, hread⟩ := ih₂ ht hne
      exact ⟨t, List.mem_append_right _ hm, hread⟩
  | link hs hb _ ih =>
    intro text hspan hne
    cases hspan with
    | last h | inside h _ | after h _ => simp [hs] at h
    | first h =>
      obtain ⟨rfl, _⟩ := Prod.mk.inj (hs.symm.trans h)
      simp [hb] at hne
    | behind h ht =>
      obtain ⟨rfl, rfl⟩ := Stop.link.inj (Prod.mk.inj (hs.symm.trans h)).2
      exact ih ht hne
  | @testLink f as text rest k t ds hs hb hread _ ih =>
    intro text hspan hne
    cases hspan with
    | last h | inside h _ | after h _ => simp [hs] at h
    | first h =>
      obtain ⟨rfl, _⟩ := Prod.mk.inj (hs.symm.trans h)
      exact ⟨t, List.mem_cons_self, hread⟩
    | behind h ht =>
      obtain ⟨rfl, rfl⟩ := Stop.link.inj (Prod.mk.inj (hs.symm.trans h)).2
      obtain ⟨t', hm, hread'⟩ := ih ht hne
      exact ⟨t', List.mem_cons_of_mem _ hm, hread'⟩

/-! ## Columns in SQL -/

theorem length_le_intercalate {part : String} (sep : String) : ∀ {parts : List String}, part ∈ parts →
    part.length ≤ (sep.intercalate parts).length
  | [p], h => by
    obtain rfl := List.mem_singleton.1 h
    simp
  | p :: p' :: parts, h => by
    rw [String.intercalate_cons_cons, String.length_append, String.length_append]
    rcases List.mem_cons.1 h with rfl | h
    · omega
    · have := length_le_intercalate sep h
      omega

/-- The column of a test is written in its SQL. -/
theorem Clause.length_column_le_test (d : Dialect) (q : Quoting) (aliasName : String) (n : Nat) (t : Test) :
    t.column.length ≤ (((Clause.test t).node d n).sql q aliasName).length := by
  have h : ((Clause.test t).node d n).sql q aliasName = q.mark ++ aliasName ++ q.mark ++ "." ++
      (q.mark ++ String.ofList t.column ++ q.mark) ++ " " ++ t.comparison.sql ++ " :" ++ d.paramName n := rfl
  rw [h]
  simp only [String.length_append, String.length_ofList]
  omega

mutual

theorem Clause.length_column_le (d : Dialect) (q : Quoting) (aliasName : String) {t : Test} : ∀ (n : Nat) (c : Clause),
    t ∈ c.tests → t.column.length ≤ ((c.node d n).sql q aliasName).length
  | n, .test test, h => by
    obtain rfl := List.mem_singleton.1 h
    exact Clause.length_column_le_test d q aliasName n t
  | _, .link _, h => by cases h
  | n, .group cs, h => by
    obtain ⟨part, hm, hl⟩ := Draft.exists_sqlPart d q aliasName n cs h
    have := length_le_intercalate " " hm
    rw [Clause.node, Node.sql, String.length_append, String.length_append]
    omega

/-- Each column of a condition is written in its SQL. -/
theorem Draft.exists_sqlPart (d : Dialect) (q : Quoting) (aliasName : String) {t : Test} :
    ∀ (n : Nat) (cs : List Clause), t ∈ Draft.tests cs →
      ∃ part ∈ Condition.sqlParts q aliasName (Draft.nodes d n cs), t.column.length ≤ part.length
  | _, [], h => by cases h
  | n, c :: cs, h => by
    rcases List.mem_append.1 h with h | h
    · exact ⟨_, List.mem_cons_self, Clause.length_column_le d q aliasName n c h⟩
    · obtain ⟨part, hm, hl⟩ := Draft.exists_sqlPart d q aliasName _ cs h
      exact ⟨part, List.mem_cons_of_mem _ hm, hl⟩

end

/-! ## The text with another literal -/

namespace Condition

/-- The text with `new` between the quotes `q`, in the place between two lists of atoms. -/
def replaced (pre post : List Atom) (q : Char) (new : List Char) : String :=
  String.ofList (join pre ++ (q :: new ++ [q]) ++ join post)

variable {d : Dialect} {source : String} {nodes : Condition} {bound : Bindings} {pre post : List Atom} {q : Char}
  {content new : List Char}

/-- A literal begins with a quote. -/
theorem isQuote_of_lexed (hl : Lexed (pre ++ .quoted (q :: content) :: post)) : isQuote q = true := by
  obtain ⟨⟨x, s, hx, he, _⟩, _⟩ := hl.right
  obtain ⟨rfl, _⟩ := List.cons.inj he
  exact hx

/-- A text is its place, filled with its literal. -/
theorem fill_of_lexed (hl : Lexed (pre ++ .quoted content :: post)) :
    pre ++ .quoted content :: post = mapLiterals (fill content) (pre ++ hole :: post) := by
  obtain ⟨_, hpost⟩ := hl.right
  rw [mapLiterals_fill_append (hole_notMem_of_lexed hl.left) (hole_notMem_of_lexed hpost)]

/-- The atoms of a replaced text are those of the text, with the new literal. -/
theorem atoms_replaced (hl : Lexed (pre ++ .quoted (q :: content ++ [q]) :: post)) (hn : ∀ c ∈ new, isQuote c = false) :
    Lexed (atoms (replaced pre post q new).toList) ∧
      atoms (replaced pre post q new).toList = mapLiterals (fill (q :: new ++ [q])) (pre ++ hole :: post) := by
  have hnew : encode q new = q :: new ++ [q] := by
    have hq : q ∉ new := by
      intro hm
      have := isQuote_of_lexed hl
      simp [hn q hm] at this
    rw [encode, double_of_notMem hq, List.cons_append]
  have hlexed : Lexed (pre ++ .quoted (q :: new ++ [q]) :: post) := hnew ▸ Lexed.replace new hl
  have htext : (replaced pre post q new).toList = join (pre ++ .quoted (q :: new ++ [q]) :: post) := by
    simp [replaced, Atom.text]
  rw [htext, atoms_join hlexed]
  exact ⟨hlexed, fill_of_lexed hlexed⟩

/-- Outside the columns a literal may be replaced. -/
theorem compile_replaced (h : compile d source = .ok (nodes, bound))
    (hatoms : atoms source.toList = pre ++ .quoted (q :: content ++ [q]) :: post)
    (hcolumn : ¬InColumn (pre ++ hole :: post)) (hn : ∀ c ∈ new, isQuote c = false)
    (hgap : InGap (pre ++ hole :: post) → '(' ∉ new) :
    ∃ bound', compile d (replaced pre post q new) = .ok (nodes, bound') ∧ bound'.names = bound.names := by
  obtain ⟨cs, hr, hv, rfl, rfl⟩ := compile_iff_reads.1 h
  have hl := hatoms ▸ hr.lexed
  obtain ⟨hl', hatoms'⟩ := atoms_replaced hl hn
  have hq : '(' ≠ q := by
    rintro rfl
    exact absurd (isQuote_of_lexed hl) (by decide)
  rw [hatoms, fill_of_lexed hl] at hr
  rw [fill_of_lexed hl] at hl
  rw [hatoms'] at hl'
  have hkeep : ∀ text, HasSpan (pre ++ hole :: post) text →
      KeepsTest (fill (q :: content ++ [q])) (fill (q :: new ++ [q])) text := by
    intro text hspan t ht
    refine Test.ofSpan?_fill ((hspan.map _).lexed hl) ((hspan.map _).lexed hl') ?_ ?_ ht
    · intro parts hparts hc
      exact hcolumn ⟨text, hspan, parts, hparts, hc⟩
    · intro parts hparts hhole
      have hno := hgap ⟨text, hspan, parts, hparts, hhole⟩
      simp [hno, hq]
  obtain ⟨cs', hr', halike⟩ := hr.mapLiterals rfl hl hl' hkeep
  have hnodes := (halike d 0).1
  refine ⟨Test.bindings d 0 (Draft.tests cs'), ?_, ?_⟩
  · rw [compile_iff_reads, hatoms']
    exact ⟨cs', hr', hv, hnodes.symm, rfl⟩
  · show (Test.entries d 0 (Draft.tests cs')).map Prod.fst = (Test.entries d 0 (Draft.tests cs)).map Prod.fst
    rw [Test.names_entries, Test.names_entries, (halike d 0).2]

/-- If the text with another literal compiles, the span around the place is read as a test, from the same parts with
that literal in them. -/
theorem exists_test_of_replaced {nodes' : Condition} {bound' : Bindings} {text : List Atom} {parts : Test.Parts}
    (hl : Lexed (pre ++ .quoted (q :: content ++ [q]) :: post)) (hn : ∀ c ∈ new, isQuote c = false)
    (hspan : HasSpan (pre ++ hole :: post) text) (hparts : Test.parts? (trimAtoms text) = some parts)
    (h : compile d (replaced pre post q new) = .ok (nodes', bound')) :
    ∃ cs, nodes' = Draft.nodes d 0 cs ∧ (parts.mapLiterals (fill (q :: new ++ [q]))).Valid ∧
      (parts.mapLiterals (fill (q :: new ++ [q]))).test ∈ Draft.tests cs := by
  obtain ⟨hl', hatoms'⟩ := atoms_replaced hl hn
  obtain ⟨cs, hr, _, hnodes, _⟩ := compile_iff_reads.1 h
  rw [hatoms'] at hr hl'
  have hlt := (hspan.map (fill (q :: new ++ [q]))).lexed hl'
  obtain ⟨t, hm, hread⟩ := hr.exists_test (hspan.map _) (Test.isBlankText_of_parts? hlt hparts)
  obtain ⟨parts', hparts', hvalid, rfl⟩ := (Test.ofSpan?_fill_iff hlt).1 hread
  obtain rfl : parts = parts' := Option.some.inj (hparts.symm.trans hparts')
  exact ⟨cs, hnodes, hvalid, hm⟩

/-- In a column a literal is written in the SQL. -/
theorem length_lt_of_inColumn {nodes' : Condition} {bound' : Bindings} (quoting : Quoting) (aliasName : String)
    (hl : Lexed (pre ++ .quoted (q :: content ++ [q]) :: post)) (hcolumn : InColumn (pre ++ hole :: post))
    (hn : ∀ c ∈ new, isQuote c = false ∧ isBlank c = false ∧ c ≠ '/')
    (h : compile d (replaced pre post q new) = .ok (nodes', bound')) :
    new.length < (sql quoting aliasName nodes').length := by
  obtain ⟨text, hspan, parts, hparts, hcol⟩ := hcolumn
  obtain ⟨cs, rfl, -, hm⟩ := exists_test_of_replaced hl (fun c hc => (hn c hc).1) hspan hparts h
  have hq := isQuote_of_lexed hl
  -- neither the quotes nor what is between them is a slash or a blank
  have hliteral : ∀ c ∈ q :: new ++ [q], isBlank c = false ∧ c ≠ '/' := by
    intro c hc
    have hmem : c = q ∨ c ∈ new := by simpa [or_comm, or_assoc] using hc
    rcases hmem with rfl | hmem
    · exact ⟨isBlank_of_isQuote hq, by rintro rfl; exact absurd hq (by decide)⟩
    · exact (hn c hmem).2
  have hslash : '/' ∉ q :: new ++ [q] := fun hm => (hliteral '/' hm).2 rfl
  have hsqueeze : squeeze (q :: new ++ [q]) = q :: new ++ [q] := by
    rw [squeeze, List.filter_eq_self]
    intro c hc
    simp [(hliteral c hc).1]
  have hlong := Test.length_le_columnOf_fill hcol hslash
  rw [← Test.Parts.column_mapLiterals, hsqueeze] at hlong
  obtain ⟨part, hpart, hcolumn⟩ := Draft.exists_sqlPart d quoting aliasName 0 cs hm
  calc new.length < (q :: new ++ [q]).length := by
        simp only [List.length_append, List.length_cons, List.length_nil]
        omega
    _ ≤ part.length := hlong.trans hcolumn
    _ ≤ _ := length_le_intercalate " " hpart

/-- Between the word of a containment and its parenthesis no literal that is accepted holds a `(`: the search for the
parenthesis would meet it there. -/
theorem notMem_of_inGap {nodes' : Condition} {bound' : Bindings}
    (hl : Lexed (pre ++ .quoted (q :: content ++ [q]) :: post)) (hgap : InGap (pre ++ hole :: post))
    (hn : ∀ c ∈ new, isQuote c = false) (h : compile d (replaced pre post q new) = .ok (nodes', bound')) :
    '(' ∉ new := by
  obtain ⟨text, hspan, parts, hparts, hhole⟩ := hgap
  obtain ⟨_, -, hvalid, -⟩ := exists_test_of_replaced hl hn hspan hparts h
  cases parts with
  | equals path literal => cases hhole
  | contains gap path literal =>
    intro hm
    exact hvalid.2 ((mem_join_fill gap).2 (.inr ⟨hhole, by simp [hm]⟩))

/-- **What stands between quotes stays out of the SQL**, exactly if it is not in the column of a test. There any text
without quotes may be put in its place: the result compiles, and only bound values differ. Between the word of a
containment and its parenthesis this is so of texts without that parenthesis, and no other text is accepted there. -/
theorem compile_replaced_iff (h : compile d source = .ok (nodes, bound))
    (hatoms : atoms source.toList = pre ++ .quoted (q :: content ++ [q]) :: post) (quoting : Quoting)
    (aliasName : String) :
    ((∀ new, (∀ c ∈ new, isQuote c = false) → (InGap (pre ++ hole :: post) → '(' ∉ new) →
      ∃ nodes' bound', compile d (replaced pre post q new) = .ok (nodes', bound') ∧
        sql quoting aliasName nodes' = sql quoting aliasName nodes ∧ bound'.names = bound.names) ↔
      ¬InColumn (pre ++ hole :: post)) ∧
    (InGap (pre ++ hole :: post) → ∀ new, (∀ c ∈ new, isQuote c = false) → '(' ∈ new →
      ∃ e, compile d (replaced pre post q new) = .error e) := by
  have hl : Lexed (pre ++ .quoted (q :: content ++ [q]) :: post) := by
    obtain ⟨_, hr, _⟩ := compile_iff_reads.1 h
    exact hatoms ▸ hr.lexed
  refine ⟨⟨?_, ?_⟩, ?_⟩
  · intro hall hcolumn
    -- a text that is longer than all the SQL
    have hz : ∀ c ∈ List.replicate (sql quoting aliasName nodes).length 'z', c = 'z' :=
      fun c hc => List.eq_of_mem_replicate hc
    obtain ⟨nodes', bound', hc, hsql, _⟩ := hall _ (fun c hc => hz c hc ▸ rfl) fun _ hm => absurd (hz _ hm) (by decide)
    have hlong := length_lt_of_inColumn quoting aliasName hl hcolumn
      (fun c hc => hz c hc ▸ ⟨rfl, rfl, by decide⟩) hc
    rw [hsql, List.length_replicate] at hlong
    omega
  · intro hcolumn new hn hgap
    obtain ⟨bound', hc, hnames⟩ := compile_replaced h hatoms hcolumn hn hgap
    exact ⟨nodes, bound', hc, rfl, hnames⟩
  · intro hgap new hn hm
    cases hc : compile d (replaced pre post q new) with
    | error e => exact ⟨e, rfl⟩
    | ok compiled => exact absurd hm (notMem_of_inGap hl hgap hn hc)

/-- A literal that is compared with is in no column, though it holds a slash and words of the grammar, so that another
may stand in its place; and one in front of the parenthesis of a call, where a `(` may not stand. -/
theorem compile_replaced_iff_value :
    let value := plain "x/a eq ".toList
    let gap := plain "contains ".toList
    let call := plain "(x/a,".toList ++ [.quoted "'b'".toList, .char ')']
    compile {} "x/a eq ' or z/b'" = .ok ([.test "a" .equals "param_0"], ⟨[("param_0", " or z/b")], by decide⟩) ∧
      atoms "x/a eq ' or z/b'".toList = value ++ .quoted ('\'' :: " or z/b".toList ++ ['\'']) :: [] ∧
      ¬InColumn (value ++ [hole]) ∧
      (∃ nodes' bound', compile {} (replaced value [] '\'' " and )".toList) = .ok (nodes', bound') ∧
        sql .double "child" nodes' = sql .double "child" [.test "a" .equals "param_0"] ∧ bound'.names = ["param_0"]) ∧
      compile {} "contains 'z' (x/a,'b')" =
        .ok ([.test "a" .contains "param_0"], ⟨[("param_0", "%b%")], by decide⟩) ∧
      atoms "contains 'z' (x/a,'b')".toList = gap ++ .quoted ('\'' :: ['z'] ++ ['\'']) :: (.char ' ' :: call) ∧
      InGap (gap ++ hole :: .char ' ' :: call) ∧
      ∃ e, compile {} (replaced gap (.char ' ' :: call) '\'' "(c".toList) = .error e := by
  intro value gap call
  have h : compile {} "x/a eq ' or z/b'" =
      .ok ([.test "a" .equals "param_0"], ⟨[("param_0", " or z/b")], by decide⟩) := by decide +kernel
  have hatoms : atoms "x/a eq ' or z/b'".toList =
      value ++ .quoted ('\'' :: " or z/b".toList ++ ['\'']) :: [] := by decide +kernel
  have hspan : span true (value ++ [hole]) = (value ++ [hole], .done) := by decide +kernel
  have hparts : Test.parts? (trimAtoms (value ++ [hole])) = some (.equals (plain "x/a".toList) [hole]) := rfl
  have hcolumn : ¬InColumn (value ++ [hole]) := not_inColumn_of_span hspan hparts (by decide)
  have hvalue := (compile_replaced_iff h hatoms .double "child").1.2 hcolumn " and )".toList (by simp [isQuote])
    fun _ => by decide
  have h' : compile {} "contains 'z' (x/a,'b')" =
      .ok ([.test "a" .contains "param_0"], ⟨[("param_0", "%b%")], by decide⟩) := by decide +kernel
  have hatoms' : atoms "contains 'z' (x/a,'b')".toList =
      gap ++ .quoted ('\'' :: ['z'] ++ ['\'']) :: (.char ' ' :: call) := by decide +kernel
  have hgap : InGap (gap ++ hole :: .char ' ' :: call) := by
    refine ⟨gap ++ hole :: .char ' ' :: call, .last (by decide +kernel), ?_⟩
    exact ⟨.contains [.char ' ', hole, .char ' '] (plain "x/a".toList) [.quoted "'b'".toList], rfl, by decide⟩
  have hrefused := (compile_replaced_iff h' hatoms' .double "child").2 hgap "(c".toList (by simp [isQuote]) (by decide)
  exact ⟨h, hatoms, hcolumn, hvalue, h', hatoms', hgap, hrefused⟩

/-- In a column, what stands between the quotes reaches the SQL: `x/'a' eq 'b'` reads the column `'a'`. -/
theorem not_forall_compile_replaced :
    ¬∀ (d : Dialect) (source : String) (nodes : Condition) (bound : Bindings) (pre post : List Atom) (q : Char)
      (content new : List Char) (quoting : Quoting) (aliasName : String),
        compile d source = .ok (nodes, bound) → atoms source.toList = pre ++ .quoted (q :: content ++ [q]) :: post →
          (∀ c ∈ new, isQuote c = false) → ∃ nodes' bound',
            compile d (replaced pre post q new) = .ok (nodes', bound') ∧
              sql quoting aliasName nodes' = sql quoting aliasName nodes := by
  intro h
  have ha : compile {} "x/'a' eq 'b'" = .ok ([.test "'a'" .equals "param_0"], ⟨[("param_0", "b")], by decide⟩) := by
    decide +kernel
  have hc : compile {} "x/'c' eq 'b'" = .ok ([.test "'c'" .equals "param_0"], ⟨[("param_0", "b")], by decide⟩) := by
    decide +kernel
  have hatoms : atoms "x/'a' eq 'b'".toList =
      plain "x/".toList ++ .quoted ('\'' :: ['a'] ++ ['\'']) :: (plain " eq ".toList ++ [.quoted "'b'".toList]) := by
    decide +kernel
  obtain ⟨nodes', bound', hcompile, hsql⟩ := h {} "x/'a' eq 'b'" _ _ (plain "x/".toList)
    (plain " eq ".toList ++ [.quoted "'b'".toList]) '\'' ['a'] ['c'] .none "child" ha hatoms (by simp [isQuote])
  have htext : replaced (plain "x/".toList) (plain " eq ".toList ++ [.quoted "'b'".toList]) '\'' ['c'] =
      "x/'c' eq 'b'" := by decide +kernel
  rw [htext, hc] at hcompile
  obtain ⟨rfl, _⟩ := Prod.mk.inj (Except.ok.inj hcompile)
  exact absurd hsql (by decide +kernel)

end Condition

end RelQuery
