import RelQuery.Proofs.Condition.Acceptance
import RelQuery.Proofs.Condition.Column
import RelQuery.Proofs.Condition.Reading
import RelQuery.Proofs.Condition.Spans
import RelQuery.Proofs.Condition.Expression
import RelQuery.Proofs.Condition.Sql

/-!
# Quoted names in the SQL of a condition

A quoted name ends at the first mark that is not doubled, and a doubled mark stands for one. A condition's SQL puts
marks around its alias and its columns and leaves the marks inside them as they are.

* `Quoting.name?_eq_some_iff` : what is read as a quoted name is a text with its marks doubled;
* `Quoting.qualified?_qualify_iff` : a qualified column is read as the alias and the column exactly if neither holds the
  mark;
* `Condition.compile_qualified_iff` : so it is in the SQL of a text that compiles; a text without the mark has no column
  that holds it.
-/

namespace RelQuery

open Text Outline

/-! ## Doubled marks -/

namespace Text

theorem length_double (q : Char) : ∀ s : List Char, (double q s).length = s.length + s.count q
  | [] => rfl
  | c :: s => by
    have ih := length_double q s
    by_cases h : c = q
    · subst h
      simp only [double, if_true, List.length_cons, List.count_cons_self, ih]
      omega
    · simp only [double, if_neg h, List.length_cons, List.count_cons_of_ne h, ih]
      omega

theorem length_encode (q : Char) (s : List Char) : (encode q s).length = s.length + s.count q + 2 := by
  simp only [encode, List.length_cons, List.length_append, List.length_nil, length_double]

end Text

/-! ## Names as SQL reads them -/

namespace Quoting

/-- The character of the style's marks, if it has any. -/
def mark? : Quoting → Option Char
  | none => Option.none
  | backtick => some '`'
  | double => some '"'

/-- Reads a name and what follows it. Between marks it goes up to the first mark that is not doubled, and a doubled mark
stands for one; without marks it is a run of identifier characters. -/
def name? (q : Quoting) (s : List Char) : Option (List Char × List Char) :=
  match q.mark? with
  | some m => do
    let opened ← strip? [m] s
    let (run, rest) ← closeQuote? m opened
    return (collapse m run.dropLast, rest)
  | Option.none =>
    let run := s.takeWhile isIdentifierChar
    if run = [] then Option.none else some (run, s.dropWhile isIdentifierChar)

/-- Reads two names with a dot between them, and what follows. -/
def qualified? (q : Quoting) (s : List Char) : Option ((List Char × List Char) × List Char) := do
  let (aliasName, s) ← q.name? s
  let s ← strip? ['.'] s
  let (column, s) ← q.name? s
  return ((aliasName, column), s)

variable {q : Quoting} {m : Char} {v rest s : List Char}

theorem toList_mark (q : Quoting) : q.mark.toList = q.mark?.toList := by
  cases q <;> rfl

theorem toList_quote (hm : q.mark? = some m) (identifier : String) :
    (q.quote identifier).toList = m :: (identifier.toList ++ [m]) := by
  simp [quote, toList_mark, hm]

/-- **What is read as a quoted name** is a text with its marks doubled, behind which no further mark stands. -/
theorem name?_eq_some_iff (hm : q.mark? = some m) :
    q.name? s = some (v, rest) ↔ s = encode m v ++ rest ∧ rest.head? ≠ some m := by
  simp only [name?, hm, Option.bind_eq_bind, Option.bind_eq_some_iff]
  constructor
  · rintro ⟨opened, hs, ⟨run, r⟩, hc, he⟩
    obtain ⟨rfl, rfl⟩ := Prod.mk.inj (Option.some.inj he)
    obtain ⟨⟨v, rfl⟩, hr⟩ := exists_double_of_closeQuote? hc
    rw [eq_append_of_strip? hs, eq_append_of_closeQuote? hc, List.dropLast_concat, collapse_double]
    exact ⟨rfl, hr⟩
  · rintro ⟨rfl, hr⟩
    refine ⟨Text.double m v ++ m :: rest, ?_, (Text.double m v ++ [m], rest), closeQuote?_double hr v, ?_⟩
    · rw [show encode m v ++ rest = [m] ++ (Text.double m v ++ m :: rest) by simp [encode]]
      exact strip?_append _ _
    · simp [collapse_double]

theorem toList_qualify (hm : q.mark? = some m) (aliasName column : String) : (q.qualify aliasName column).toList =
    m :: (aliasName.toList ++ [m]) ++ '.' :: (m :: (column.toList ++ [m])) := by
  simp [qualify, toList_quote hm]

theorem encode_of_notMem (h : m ∉ v) : encode m v = m :: (v ++ [m]) := by
  rw [encode, double_of_notMem h]

/-- **A qualified column is read as it is meant** exactly if neither the alias nor the column holds the mark. -/
theorem qualified?_qualify_iff (hm : q.mark? = some m) (aliasName column : String) (hr : rest.head? ≠ some m) :
    q.qualified? ((q.qualify aliasName column).toList ++ rest) = some ((aliasName.toList, column.toList), rest) ↔
      m ∉ aliasName.toList ∧ m ∉ column.toList := by
  have hdot : m ≠ '.' := by
    rintro rfl
    cases q <;> cases hm
  simp only [qualified?, Option.bind_eq_bind, Option.bind_eq_some_iff, Prod.exists]
  constructor
  · rintro ⟨a, s, ha, s', hs, c, r, hc, he⟩
    obtain ⟨⟨rfl, rfl⟩, rfl⟩ : (a = aliasName.toList ∧ c = column.toList) ∧ r = rest := by simpa using he
    obtain ⟨htext, _⟩ := (name?_eq_some_iff hm).1 ha
    obtain ⟨rfl, _⟩ := (name?_eq_some_iff hm).1 hc
    -- doubled marks would make what is read longer than what is written
    have hlen := congrArg List.length htext
    rw [eq_append_of_strip? hs, toList_qualify hm] at hlen
    simp only [List.length_append, List.length_cons, List.length_nil, length_encode] at hlen
    rw [← List.count_eq_zero, ← List.count_eq_zero]
    omega
  · rintro ⟨ha, hc⟩
    rw [toList_qualify hm, ← encode_of_notMem ha, ← encode_of_notMem hc, List.append_assoc]
    refine ⟨aliasName.toList, '.' :: (encode m column.toList ++ rest), ?_, _, strip?_append ['.'] _,
      column.toList, rest, (name?_eq_some_iff hm).2 ⟨rfl, hr⟩, rfl⟩
    exact (name?_eq_some_iff hm).2 ⟨rfl, by simpa using hdot.symm⟩

end Quoting

/-! ## Columns and their text -/

theorem Text.trim_subset (s : List Char) : trim s ⊆ s := by
  obtain ⟨l, r, _, _, hs⟩ := exists_blanks_trim s
  intro c hc
  rw [hs]
  simp [hc]

theorem Text.lastSegment_subset (s : List Char) : lastSegment s ⊆ s := by
  intro c hc
  have h := (List.takeWhile_sublist _).subset (List.mem_reverse.1 hc)
  exact List.mem_reverse.1 h

namespace Test

theorem columnOf_subset (path : List Char) : columnOf path ⊆ path :=
  List.Subset.trans (lastSegment_subset _) (trim_subset path)

/-- A column is a part of the span that its test is read from. -/
theorem column_subset {span : List Char} {t : Test} (h : ofSpan? span = some t) : t.column ⊆ span := by
  rw [ofSpan?] at h
  split at h
  next path literal hcut =>
    obtain ⟨rfl, _⟩ := aroundOutside?_eqWord_iff.1 hcut
    rw [ofSides?] at h
    split at h
    next => cases h
    next =>
      obtain rfl := Option.some.inj h
      exact List.Subset.trans (columnOf_subset path) fun c hc => by simp [hc]
  next =>
    split at h
    next front call hcut =>
      obtain ⟨rfl, _⟩ := aroundOutside?_containsWord_iff.1 hcut
      obtain ⟨gap, path, literal, rest, rfl, _, rfl⟩ := ofCall?_eq_some_iff.1 h
      exact List.Subset.trans (columnOf_subset path) fun c hc => by simp [hc]
    next => cases h

end Test

/-- The columns that are read from a text are parts of it. -/
theorem Reads.column_subset {f : Bool} {as : List Atom} {cs : Draft} (h : Reads f as cs) :
    ∀ t ∈ Draft.tests cs, t.column ⊆ join as := by
  induction h with
  | blank => nofun
  | @test f as text t hs hb ht =>
    obtain ⟨rfl, _⟩ := splits_of_span hs
    intro u hu
    obtain rfl := List.mem_singleton.1 hu
    exact List.Subset.trans (Test.column_subset ht) (trim_subset _)
  | @group f as text inside rest cs ds hs _ _ ih₁ ih₂ =>
    obtain ⟨rfl, _, _, hblank⟩ := splits_of_span hs
    intro u hu c hc
    rcases List.mem_append.1 hu with hu | hu
    · have := ih₁ u hu hc
      simp [this]
    · have := ih₂ u hu hc
      simp [this]
  | @link as text rest k ds hs hb _ ih =>
    obtain ⟨rfl, _⟩ := splits_of_span hs
    intro u hu c hc
    have := ih u hu hc
    simp [this]
  | @testLink f as text rest k t ds hs hb ht _ ih =>
    obtain ⟨rfl, _⟩ := splits_of_span hs
    intro u hu c hc
    rcases List.mem_cons.1 hu with rfl | hu
    · have := trim_subset _ (Test.column_subset ht hc)
      simp [this]
    · have := ih u hu hc
      simp [this]

theorem Test.exists_of_mem_numbered {d : Dialect} {t : String × Comparison × String} : ∀ {n : Nat} {tests : List Test},
    t ∈ Test.numbered d n tests → ∃ test ∈ tests, t.1 = String.ofList test.column
  | _, test :: tests, h => by
    rcases List.mem_cons.1 h with rfl | h
    · exact ⟨test, List.mem_cons_self, rfl⟩
    · obtain ⟨test', hm, he⟩ := exists_of_mem_numbered h
      exact ⟨test', List.mem_cons_of_mem _ hm, he⟩

/-! ## The SQL of a condition -/

mutual

theorem Node.exists_sql_eq (q : Quoting) (aliasName : String) {t : String × Comparison × String} :
    ∀ node : Node, t ∈ node.tests → ∃ before after, node.sql q aliasName =
      before ++ (Node.test t.1 t.2.1 t.2.2).sql q aliasName ++ after
  | .test .., h => by
    obtain rfl := List.mem_singleton.1 h
    exact ⟨"", "", by simp⟩
  | .link _, h => by cases h
  | .group nodes, h => by
    obtain ⟨before, after, hs⟩ := Condition.exists_sql_eq q aliasName nodes h
    exact ⟨"(" ++ before, after ++ ")", by rw [Node.sql_group, hs]; simp only [String.append_assoc]⟩

/-- The SQL of each test stands in that of its condition. -/
theorem Condition.exists_sql_eq (q : Quoting) (aliasName : String) {t : String × Comparison × String} :
    ∀ nodes : List Node, t ∈ Condition.tests nodes → ∃ before after, Condition.sql q aliasName nodes =
      before ++ (Node.test t.1 t.2.1 t.2.2).sql q aliasName ++ after
  | [], h => by cases h
  | node :: nodes, h => by
    rw [Condition.sql_cons]
    rcases List.mem_append.1 h with h | h
    · obtain ⟨before, after, hs⟩ := Node.exists_sql_eq q aliasName node h
      exact ⟨before, after ++ _, by rw [hs, String.append_assoc]⟩
    · obtain ⟨before, after, hs⟩ := Condition.exists_sql_eq q aliasName nodes h
      have hne : nodes.isEmpty = false := by cases nodes <;> first | cases h | rfl
      rw [hne, hs]
      exact ⟨node.sql q aliasName ++ " " ++ before, after, by simp [String.append_assoc]⟩

end

namespace Condition

/-- **Where quoted names are read as they are meant.** Under a style with marks, read from where a test stands in the SQL
of a text that compiles, the two names are the alias and the column exactly if neither of them holds the mark. A text
without the mark has no column that does. -/
theorem compile_qualified_iff {d : Dialect} {m : Char} (hm : d.quoting.mark? = some m) {source : String}
    {nodes : Condition} {bound : Bindings} (h : compile d source = .ok (nodes, bound)) (aliasName : String) :
    (∀ column comparison param, (column, comparison, param) ∈ tests nodes → ∃ before after,
      sql d.quoting aliasName nodes =
        before ++ (Node.test column comparison param).sql d.quoting aliasName ++ after ∧
      (d.quoting.qualified? ((Node.test column comparison param).sql d.quoting aliasName ++ after).toList =
          some ((aliasName.toList, column.toList), (" " ++ comparison.sql ++ " :" ++ param ++ after).toList) ↔
        m ∉ aliasName.toList ∧ m ∉ column.toList)) ∧
    (m ∉ source.toList → ∀ t ∈ tests nodes, m ∉ t.1.toList) := by
  constructor
  · intro column comparison param ht
    obtain ⟨before, after, hs⟩ := exists_sql_eq d.quoting aliasName nodes ht
    have htest : ((Node.test column comparison param).sql d.quoting aliasName ++ after).toList =
        (d.quoting.qualify aliasName column).toList ++ (" " ++ comparison.sql ++ " :" ++ param ++ after).toList := by
      simp [Node.sql_test, String.toList_append]
    refine ⟨before, after, hs, ?_⟩
    rw [htest]
    refine Quoting.qualified?_qualify_iff hm aliasName column ?_
    -- a blank follows the column
    intro hc
    obtain rfl : ' ' = m := by simpa [String.toList_append] using hc
    revert hm
    cases d.quoting <;> decide
  · intro hsource t ht hcolumn
    obtain ⟨cs, hr, _, rfl, rfl⟩ := compile_iff_reads.1 h
    rw [Draft.tests_nodes] at ht
    obtain ⟨test, htest, hcol⟩ := Test.exists_of_mem_numbered ht
    rw [hcol, String.toList_ofList] at hcolumn
    have hmem := hr.column_subset test htest hcolumn
    rw [join_atoms] at hmem
    exact hsource hmem

/-- A mark in a literal, and a column inside a group. -/
theorem compile_qualified_iff_backtick :
    let d : Dialect := { quoting := .backtick }
    let nodes : Condition :=
      [.test "a" .equals "param_0", .link .or, .group [.test "b" .contains "param_1"]]
    d.quoting.mark? = some '`' ∧
      compile d "x/a eq '`' or (contains(y/b,'c'))" =
        .ok (nodes, ⟨[("param_0", "`"), ("param_1", "%c%")], by decide⟩) ∧
      ("b", .contains, "param_1") ∈ tests nodes ∧
      ∃ before after, sql .backtick "child" nodes = before ++ "`child`.`b` LIKE :param_1" ++ after ∧
        Quoting.qualified? .backtick ("`child`.`b` LIKE :param_1" ++ after).toList =
          some (("child".toList, "b".toList), (" LIKE :param_1" ++ after).toList) := by
  intro d nodes
  have hm : d.quoting.mark? = some '`' := rfl
  have h : compile d "x/a eq '`' or (contains(y/b,'c'))" =
      .ok (nodes, ⟨[("param_0", "`"), ("param_1", "%c%")], by decide⟩) := by decide +kernel
  have ht : ("b", .contains, "param_1") ∈ tests nodes := by decide
  obtain ⟨hread, _⟩ := compile_qualified_iff hm h "child"
  obtain ⟨before, after, hs, hiff⟩ := hread _ _ _ ht
  exact ⟨hm, h, ht, before, after, hs, hiff.2 (by decide)⟩

/-- Not every qualified column is read as it is meant: a column may hold the mark, and no mark is doubled. -/
theorem not_forall_qualified : ¬∀ (d : Dialect) (m : Char) (source aliasName : String) (nodes : Condition)
    (bound : Bindings), d.quoting.mark? = some m → compile d source = .ok (nodes, bound) → ∀ t ∈ tests nodes,
      d.quoting.qualified? (d.quoting.qualify aliasName t.1).toList = some ((aliasName.toList, t.1.toList), []) := by
  intro hall
  have h : compile { quoting := .backtick } "x/a`b eq 'c'" =
      .ok ([.test "a`b" .equals "param_0"], ⟨[("param_0", "c")], by decide⟩) := by decide +kernel
  have hread := hall _ '`' _ "child" _ _ rfl h ("a`b", .equals, "param_0") List.mem_cons_self
  exact absurd hread (by decide +kernel)

end Condition

end RelQuery
