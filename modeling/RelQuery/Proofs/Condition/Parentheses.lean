import RelQuery.Proofs.Condition.Spans
import RelQuery.Proofs.Condition.Sql

/-!
# Parentheses in the SQL of a condition

The SQL of a condition opens one parenthesis for each group and closes it behind the group. What a column holds is
written as it is, and a column may hold parentheses: the path in `f(x/a) eq 'b'` has the last segment `a)`.

* `Condition.count_sql` : the parentheses of the SQL are those of its groups and those in its columns;
* `Condition.wellNested_sql` : without parentheses in a column they are well nested;
* `Condition.compile_sql_wellNested_iff` : for a text that compiles, the parentheses of its SQL are well nested and as
  many as its groups exactly if no column holds one.
-/

namespace RelQuery

/-! ## Well nested texts -/

/-- No prefix of the text has more `)` than `(`, and the text has as many of both. All characters count, those between
quotes too. -/
structure Text.WellNested (s : List Char) : Prop where
  count_le : ∀ p, p <+: s → p.count ')' ≤ p.count '('
  count_eq : s.count '(' = s.count ')'

namespace Text

/-- The text holds no parenthesis. -/
def ParenFree (s : List Char) : Prop :=
  '(' ∉ s ∧ ')' ∉ s

instance (s : List Char) : Decidable (ParenFree s) :=
  inferInstanceAs (Decidable (_ ∧ _))

variable {s t : List Char}

theorem ParenFree.append (hs : ParenFree s) (ht : ParenFree t) : ParenFree (s ++ t) := by
  simpa [ParenFree, hs.1, hs.2] using ht

theorem ParenFree.wellNested (h : ParenFree s) : WellNested s where
  count_le p hp := by
    rw [List.count_eq_zero_of_not_mem fun hm => h.2 (hp.subset hm)]
    exact Nat.zero_le _
  count_eq := by rw [List.count_eq_zero_of_not_mem h.1, List.count_eq_zero_of_not_mem h.2]

/-- A prefix of two texts ends in the first or holds it. -/
theorem prefix_or_append_of_prefix {p : List Char} (h : p <+: s ++ t) : p <+: s ∨ ∃ r, p = s ++ r ∧ r <+: t := by
  rcases List.prefix_or_prefix_of_prefix h (List.prefix_append s t) with hp | ⟨r, rfl⟩
  · exact .inl hp
  · exact .inr ⟨r, rfl, (List.prefix_append_right_inj s).1 h⟩

theorem WellNested.append (hs : WellNested s) (ht : WellNested t) : WellNested (s ++ t) where
  count_le p hp := by
    rcases prefix_or_append_of_prefix hp with h | ⟨r, rfl, hr⟩
    · exact hs.count_le p h
    · have := ht.count_le r hr
      rw [List.count_append, List.count_append, hs.count_eq]
      omega
  count_eq := by rw [List.count_append, List.count_append, hs.count_eq, ht.count_eq]

/-- A text in parentheses is well nested if the text is. -/
theorem WellNested.paren (h : WellNested s) : WellNested ('(' :: s ++ [')']) where
  count_le p hp := by
    rcases prefix_or_append_of_prefix hp with hp | ⟨r, rfl, hr⟩
    · cases p with
      | nil => exact Nat.le_refl 0
      | cons c p =>
        obtain ⟨rfl, hp'⟩ := List.cons_prefix_cons.1 hp
        have := h.count_le p hp'
        simp only [List.count_cons_self, List.count_cons_of_ne (show '(' ≠ ')' by decide)]
        omega
    · have hclose : r.count ')' ≤ 1 := hr.sublist.count_le ')'
      have hopen := h.count_eq
      simp only [List.cons_append, List.count_cons_self, List.count_cons_of_ne (show '(' ≠ ')' by decide),
        List.count_append]
      omega
  count_eq := by simp [h.count_eq]

end Text

open Text

/-! ## Parentheses of groups and of columns -/

mutual

/-- The number of groups in an element, nested ones included. -/
def Node.groupCount : Node → Nat
  | .test .. | .link _ => 0
  | .group nodes => 1 + Condition.groupCount nodes

/-- The number of groups in a condition, nested ones included. -/
def Condition.groupCount : List Node → Nat
  | [] => 0
  | node :: nodes => node.groupCount + Condition.groupCount nodes

end

/-- How often a character stands in the columns of tests. -/
def columnCount (c : Char) (tests : List (String × Comparison × String)) : Nat :=
  (tests.flatMap fun test => test.1.toList).count c

@[simp] theorem columnCount_append (c : Char) (ts us : List (String × Comparison × String)) :
    columnCount c (ts ++ us) = columnCount c ts + columnCount c us := by
  simp [columnCount]

theorem columnCount_eq_zero_iff {c : Char} {ts : List (String × Comparison × String)} :
    columnCount c ts = 0 ↔ ∀ t ∈ ts, c ∉ t.1.toList := by
  simp [columnCount, List.count_eq_zero]

theorem Quoting.parenFree_mark (q : Quoting) : ParenFree q.mark.toList := by
  cases q <;> decide

theorem Comparison.parenFree_sql (k : Comparison) : ParenFree k.sql.toList := by
  cases k <;> decide

theorem Connective.parenFree_keyword (k : Connective) : ParenFree k.keyword.toList := by
  cases k <;> decide

variable {q : Quoting} {aliasName : String} {c : Char}

theorem Text.ParenFree.count_eq_zero {s : List Char} (h : ParenFree s) (hc : c = '(' ∨ c = ')') : s.count c = 0 := by
  rcases hc with rfl | rfl
  · exact List.count_eq_zero_of_not_mem h.1
  · exact List.count_eq_zero_of_not_mem h.2

/-- What a test writes around its column holds no parenthesis. -/
theorem Node.exists_toList_sql_test (q : Quoting) (ha : ParenFree aliasName.toList) {param : String}
    (hp : ParenFree param.toList) (k : Comparison) : ∃ front back, ParenFree front ∧ ParenFree back ∧ ∀ column,
      ((Node.test column k param).sql q aliasName).toList = front ++ column.toList ++ back := by
  refine ⟨(q.mark ++ aliasName ++ q.mark ++ "." ++ q.mark).toList, (q.mark ++ " " ++ k.sql ++ " :" ++ param).toList,
    ?_, ?_, fun column => ?_⟩
  · simp only [String.toList_append]
    exact ((((q.parenFree_mark.append ha).append q.parenFree_mark).append (by decide)).append q.parenFree_mark)
  · simp only [String.toList_append]
    exact ((((q.parenFree_mark.append (by decide)).append k.parenFree_sql).append (by decide)).append hp)
  · simp only [Node.sql_test, Quoting.qualify, Quoting.quote, String.toList_append, List.append_assoc]

mutual

theorem Node.count_sql (hc : c = '(' ∨ c = ')') (ha : ParenFree aliasName.toList) : ∀ node : Node,
    (∀ t ∈ node.tests, ParenFree t.2.2.toList) →
      (node.sql q aliasName).toList.count c = node.groupCount + columnCount c node.tests
  | .test column k param, hp => by
    obtain ⟨front, back, hf, hb, h⟩ := Node.exists_toList_sql_test q ha (hp _ List.mem_cons_self) k
    rw [h, List.count_append, List.count_append, hf.count_eq_zero hc, hb.count_eq_zero hc]
    simp [Node.groupCount, Node.tests, columnCount]
  | .link k, _ => k.parenFree_keyword.count_eq_zero hc
  | .group nodes, hp => by
    have h := Condition.count_sql hc ha nodes hp
    have hparen : "(".toList.count c + ")".toList.count c = 1 := by
      rcases hc with rfl | rfl <;> decide
    rw [Node.sql_group, String.toList_append, String.toList_append, List.count_append, List.count_append, h,
      Node.groupCount, Node.tests]
    omega

/-- **The parentheses of the SQL** are those of its groups and those in its columns, if neither the alias nor a
parameter holds one. -/
theorem Condition.count_sql (hc : c = '(' ∨ c = ')') (ha : ParenFree aliasName.toList) : ∀ nodes : List Node,
    (∀ t ∈ Condition.tests nodes, ParenFree t.2.2.toList) →
      (Condition.sql q aliasName nodes).toList.count c =
        Condition.groupCount nodes + columnCount c (Condition.tests nodes)
  | [], _ => by simp [Condition.groupCount, Condition.tests, columnCount]
  | node :: nodes, hp => by
    have h₁ := Node.count_sql hc ha node fun t ht => hp t (List.mem_append_left _ ht)
    have h₂ := Condition.count_sql hc ha nodes fun t ht => hp t (List.mem_append_right _ ht)
    have hblank : " ".toList.count c = 0 := (show ParenFree " ".toList by decide).count_eq_zero hc
    have hrest : (if nodes.isEmpty then "" else " " ++ Condition.sql q aliasName nodes).toList.count c =
        Condition.groupCount nodes + columnCount c (Condition.tests nodes) := by
      cases nodes with
      | nil => rfl
      | cons node' nodes => rw [if_neg (by simp), String.toList_append, List.count_append, hblank, h₂, Nat.zero_add]
    rw [Condition.sql_cons, String.toList_append, List.count_append, h₁, hrest, Condition.groupCount, Condition.tests,
      columnCount_append]
    omega

end

mutual

theorem Node.wellNested_sql (ha : ParenFree aliasName.toList) : ∀ node : Node,
    (∀ t ∈ node.tests, ParenFree t.1.toList ∧ ParenFree t.2.2.toList) → WellNested (node.sql q aliasName).toList
  | .test column k param, h => by
    obtain ⟨hcolumn, hparam⟩ := h _ List.mem_cons_self
    obtain ⟨front, back, hf, hb, h⟩ := Node.exists_toList_sql_test q ha hparam k
    rw [h]
    exact ((hf.append hcolumn).append hb).wellNested
  | .link k, _ => k.parenFree_keyword.wellNested
  | .group nodes, h => by
    rw [Node.sql_group, String.toList_append, String.toList_append]
    exact (Condition.wellNested_sql ha nodes h).paren

/-- Without parentheses in a column those of the SQL are well nested. -/
theorem Condition.wellNested_sql (ha : ParenFree aliasName.toList) : ∀ nodes : List Node,
    (∀ t ∈ Condition.tests nodes, ParenFree t.1.toList ∧ ParenFree t.2.2.toList) →
      WellNested (Condition.sql q aliasName nodes).toList
  | [], _ => by
    rw [Condition.sql_nil]
    exact (show ParenFree [] by decide).wellNested
  | node :: nodes, h => by
    have h₁ := Node.wellNested_sql ha node fun t ht => h t (List.mem_append_left _ ht)
    have h₂ := Condition.wellNested_sql ha nodes fun t ht => h t (List.mem_append_right _ ht)
    rw [Condition.sql_cons, String.toList_append]
    refine h₁.append ?_
    cases nodes with
    | nil => exact (show ParenFree [] by decide).wellNested
    | cons node' nodes =>
      rw [if_neg (by simp), String.toList_append]
      exact (show ParenFree " ".toList by decide).wellNested.append h₂

end

namespace Condition

/-- **Parentheses are well nested and as many as groups** exactly if no column holds one. -/
theorem wellNested_sql_iff {nodes : Condition} (ha : ParenFree aliasName.toList)
    (hp : ∀ t ∈ tests nodes, ParenFree t.2.2.toList) :
    WellNested (sql q aliasName nodes).toList ∧ (sql q aliasName nodes).toList.count '(' = groupCount nodes ↔
      ∀ t ∈ tests nodes, ParenFree t.1.toList := by
  have hopen := count_sql (q := q) (.inl rfl) ha nodes hp
  have hclose := count_sql (q := q) (.inr rfl) ha nodes hp
  constructor
  · rintro ⟨hn, hcount⟩ t ht
    -- all parentheses are those of groups, so none is left for the columns
    have h₁ : columnCount '(' (tests nodes) = 0 := by omega
    have h₂ : columnCount ')' (tests nodes) = 0 := by
      have := hn.count_eq
      omega
    exact ⟨columnCount_eq_zero_iff.1 h₁ t ht, columnCount_eq_zero_iff.1 h₂ t ht⟩
  · intro hcolumns
    have h₁ : columnCount '(' (tests nodes) = 0 := columnCount_eq_zero_iff.2 fun t ht => (hcolumns t ht).1
    exact ⟨wellNested_sql ha nodes fun t ht => ⟨hcolumns t ht, hp t ht⟩, by omega⟩

end Condition

/-! ## The SQL of a text -/

theorem Dialect.parenFree_paramName {d : Dialect} (hd : ParenFree d.paramStem.toList) (n : Nat) :
    ParenFree (d.paramName n).toList := by
  have hdigits : ParenFree (Text.decimal n) := by
    constructor <;> intro hm <;> exact absurd (isDigit_of_mem_decimal hm) (by decide)
  rw [Dialect.paramName, Text.decimalText, String.toList_append, String.toList_ofList]
  exact hd.append hdigits

theorem Test.exists_paramName_of_mem_numbered {d : Dialect} {t : String × Comparison × String} :
    ∀ {n : Nat} {tests : List Test}, t ∈ Test.numbered d n tests → ∃ m, t.2.2 = d.paramName m
  | n, _ :: _, h => by
    rcases List.mem_cons.1 h with rfl | h
    · exact ⟨n, rfl⟩
    · exact exists_paramName_of_mem_numbered h

namespace Condition

/-- The parameters of a text that compiles hold no parenthesis if the stem of their names holds none. -/
theorem parenFree_params_of_compile {d : Dialect} (hd : ParenFree d.paramStem.toList) {source : String}
    {nodes : Condition} {bound : Bindings} (h : compile d source = .ok (nodes, bound)) :
    ∀ t ∈ tests nodes, ParenFree t.2.2.toList := by
  obtain ⟨cs, _, _, rfl, _⟩ := compile_eq_ok_iff.1 h
  intro t ht
  rw [Draft.tests_nodes] at ht
  obtain ⟨m, hm⟩ := Test.exists_paramName_of_mem_numbered ht
  rw [hm]
  exact Dialect.parenFree_paramName hd m

/-- **A condition stays inside its parenthesis** in the SQL around it, and has one parenthesis for each group, exactly
if none of its columns holds a parenthesis. -/
theorem compile_sql_wellNested_iff {source : String} {nodes : Condition} {bound : Bindings}
    (h : compile {} source = .ok (nodes, bound)) (ha : ParenFree aliasName.toList) :
    WellNested (sql .none aliasName nodes).toList ∧
        (sql .none aliasName nodes).toList.count '(' = groupCount nodes ↔
      ∀ t ∈ tests nodes, ParenFree t.1.toList :=
  wellNested_sql_iff ha (parenFree_params_of_compile (by decide) h)

/-- Parentheses in the literals of a nested group do not show in the SQL. -/
theorem compile_sql_wellNested_iff_group :
    compile {} "((x/a eq ')(')) or contains(y/b,'(')" =
        .ok ([.group [.group [.test "a" .equals "param_0"]], .link .or, .test "b" .contains "param_1"],
          ⟨[("param_0", ")("), ("param_1", "%(%")], by decide⟩) ∧
      ParenFree "child".toList ∧
      WellNested "((child.a = :param_0)) or child.b LIKE :param_1".toList := by
  have h : compile {} "((x/a eq ')(')) or contains(y/b,'(')" =
      .ok ([.group [.group [.test "a" .equals "param_0"]], .link .or, .test "b" .contains "param_1"],
        ⟨[("param_0", ")("), ("param_1", "%(%")], by decide⟩) := by decide +kernel
  have ha : ParenFree "child".toList := by decide
  exact ⟨h, ha, ((compile_sql_wellNested_iff h ha).2 (by decide)).1⟩

/-- Not every text that compiles has a well nested condition: behind the last slash of a path a parenthesis may close
that was opened in front of it. -/
theorem not_forall_wellNested_sql : ¬ ∀ source nodes bound aliasName, compile {} source = .ok (nodes, bound) →
    ParenFree aliasName.toList → WellNested (sql .none aliasName nodes).toList ∧
      (sql .none aliasName nodes).toList.count '(' = groupCount nodes := by
  intro hall
  have h : compile {} "f(x/a) eq 'b'" =
      .ok ([.test "a)" .equals "param_0"], ⟨[("param_0", "b")], by decide⟩) := by decide +kernel
  obtain ⟨hn, _⟩ := hall _ _ _ "child" h (by decide)
  exact absurd hn.count_eq (by decide)

end Condition

end RelQuery
