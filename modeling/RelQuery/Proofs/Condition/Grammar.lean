import RelQuery.Proofs.Condition.Alternation
import RelQuery.Proofs.Condition.Compile

/-!
# The grammar of conditions

The levels of a condition are the sequence of its own elements and the sequences inside its groups, at any depth. The
grammar is `operand (connective operand)*`.

* a condition breaks no rule exactly if the grammar derives each of its levels (`violation?_eq_none_iff_derived`);
* where it does, each level has one operand more than connectives (`Derived.countP_eq`) and holds a test
  (`testCount_pos_of_levels`); this is so in every condition that a text compiles to.
-/

namespace RelQuery

/-! ## Levels -/

mutual

/-- The sequences inside an element: that of the group it is, and those in the groups of this group. -/
def Node.levels : Node → List Condition
  | .test .. | .link _ => []
  | .group nodes => nodes :: Condition.innerLevels nodes

/-- The sequences inside the groups of a condition, at any depth. -/
def Condition.innerLevels : List Node → List Condition
  | [] => []
  | node :: nodes => node.levels ++ Condition.innerLevels nodes

end

namespace Condition

/-- The condition itself and the sequences inside its groups, at any depth. -/
def levels (condition : Condition) : List Condition :=
  condition :: innerLevels condition

/-- What the grammar `operand (connective operand)*` derives. -/
inductive Derived : Condition → Prop where
  | operand {node : Node} (ho : node.isOperand = true) : Derived [node]
  | link {node : Node} {rest : Condition} (ho : node.isOperand = true) (connective : Connective) (hr : Derived rest) :
    Derived (node :: .link connective :: rest)

/-- What may follow where the grammar asks for an operand, or behind one. -/
def Continues : Bool → Condition → Prop
  | true, nodes => Derived nodes
  | false, nodes => nodes = [] ∨ ∃ connective rest, nodes = .link connective :: rest ∧ Derived rest

/-! ## One element -/

theorem continues_nil_iff {operand : Bool} : Continues operand [] ↔ operand = false := by
  cases operand with
  | false => simp [Continues]
  | true =>
    constructor
    · rintro ⟨⟩
    · rintro ⟨⟩

theorem derived_cons_iff {node : Node} {nodes : Condition} :
    Derived (node :: nodes) ↔ node.isOperand = true ∧ Continues false nodes := by
  constructor
  · intro h
    cases h with
    | operand ho => exact ⟨ho, .inl rfl⟩
    | link ho connective hr => exact ⟨ho, .inr ⟨connective, _, rfl, hr⟩⟩
  · rintro ⟨ho, rfl | ⟨connective, rest, rfl, hr⟩⟩
    · exact .operand ho
    · exact .link ho connective hr

/-- The grammar asks for operands and connectives by turns. -/
theorem continues_cons_iff {operand : Bool} {node : Node} {nodes : Condition} :
    Continues operand (node :: nodes) ↔ node.isOperand = operand ∧ Continues (!operand) nodes := by
  cases operand with
  | true => exact derived_cons_iff
  | false =>
    constructor
    · rintro (h | ⟨connective, rest, h, hr⟩)
      · cases h
      · obtain ⟨rfl, rfl⟩ := List.cons.inj h
        exact ⟨rfl, hr⟩
    · rintro ⟨ho, hr⟩
      cases node with
      | link connective => exact .inr ⟨connective, nodes, rfl, hr⟩
      | test | group => cases ho

end Condition

/-! ## All levels -/

mutual

theorem Node.violation?_eq_none_iff_levels : ∀ node : Node,
    node.violation? = none ↔ ∀ level ∈ node.levels, Condition.Derived level
  | .test .. => by simp [Node.violation?, Node.levels]
  | .link _ => by simp [Node.violation?, Node.levels]
  | .group nodes => by
    rw [Node.violation?_group_eq_none_iff, Condition.violation?_eq_none_iff,
      Condition.violationFrom?_eq_none_iff_levels true nodes, Node.levels, List.forall_mem_cons]
    rfl

/-- What remains of a condition breaks no rule exactly if it is what the grammar asks for here, and the grammar derives
what stands in its groups. -/
theorem Condition.violationFrom?_eq_none_iff_levels : ∀ (operand : Bool) (nodes : List Node),
    Condition.violationFrom? operand nodes = none ↔
      Condition.Continues operand nodes ∧ ∀ level ∈ Condition.innerLevels nodes, Condition.Derived level
  | operand, [] => by
    rw [Condition.continues_nil_iff]
    cases operand <;> simp [Condition.violationFrom?, Condition.innerLevels]
  | operand, node :: nodes => by
    rw [Condition.violationFrom?_cons_eq_none_iff, Node.violation?_eq_none_iff_levels node,
      Condition.violationFrom?_eq_none_iff_levels (!operand) nodes, Condition.continues_cons_iff,
      Condition.innerLevels, List.forall_mem_append]
    constructor
    · rintro ⟨ho, hn, hc, hi⟩
      exact ⟨⟨ho, hc⟩, hn, hi⟩
    · rintro ⟨⟨ho, hc⟩, hn, hi⟩
      exact ⟨ho, hn, hc, hi⟩

end

namespace Condition

theorem forall_mem_levels_iff {condition : Condition} {p : Condition → Prop} :
    (∀ level ∈ condition.levels, p level) ↔ p condition ∧ ∀ level ∈ innerLevels condition, p level := by
  rw [levels, List.forall_mem_cons]

/-- A level has one operand more than connectives. -/
theorem Derived.countP_eq {level : Condition} (h : Derived level) :
    level.countP Node.isOperand = level.countP (fun node => !node.isOperand) + 1 := by
  induction h with
  | operand ho => simp [ho]
  | link ho connective hr ih =>
    have hk : (Node.link connective).isOperand = false := rfl
    simp [ho, hk, ih]

end Condition

mutual

/-- An operand whose groups the grammar derives holds a test. -/
theorem Node.testCount_pos : ∀ node : Node, node.isOperand = true → (∀ level ∈ node.levels, Condition.Derived level) →
    0 < node.testCount
  | .test .., _, _ => Nat.one_pos
  | .group nodes, _, h => by
    rw [Node.levels, List.forall_mem_cons] at h
    exact Condition.testCount_pos nodes h.1 h.2

/-- A condition that the grammar derives holds a test, if it derives what stands in its groups. -/
theorem Condition.testCount_pos : ∀ nodes : List Node, Condition.Derived nodes →
    (∀ level ∈ Condition.innerLevels nodes, Condition.Derived level) → 0 < Condition.testCount nodes
  | node :: nodes, hd, h => by
    rw [Condition.innerLevels, List.forall_mem_append] at h
    have hn : 0 < node.testCount := Node.testCount_pos node (Condition.derived_cons_iff.1 hd).1 h.1
    rw [Condition.testCount]
    omega

end

mutual

theorem Node.testCount_pos_of_levels : ∀ node : Node, (∀ level ∈ node.levels, Condition.Derived level) →
    ∀ level ∈ node.levels, 0 < Condition.testCount level
  | .test .., _ => by simp [Node.levels]
  | .link _, _ => by simp [Node.levels]
  | .group nodes, h => by
    rw [Node.levels, List.forall_mem_cons] at h ⊢
    exact ⟨Condition.testCount_pos nodes h.1 h.2, Condition.testCount_pos_of_innerLevels nodes h.2⟩

theorem Condition.testCount_pos_of_innerLevels : ∀ nodes : List Node,
    (∀ level ∈ Condition.innerLevels nodes, Condition.Derived level) →
      ∀ level ∈ Condition.innerLevels nodes, 0 < Condition.testCount level
  | [], _ => by simp [Condition.innerLevels]
  | node :: nodes, h => by
    rw [Condition.innerLevels, List.forall_mem_append] at h ⊢
    exact ⟨Node.testCount_pos_of_levels node h.1, Condition.testCount_pos_of_innerLevels nodes h.2⟩

end

namespace Condition

/-- Every level of a condition holds a test, if the grammar derives them all. -/
theorem testCount_pos_of_levels {condition : Condition} (h : ∀ level ∈ condition.levels, Derived level) :
    ∀ level ∈ condition.levels, 0 < testCount level := by
  rw [forall_mem_levels_iff] at h ⊢
  exact ⟨testCount_pos condition h.1 h.2, testCount_pos_of_innerLevels condition h.2⟩

/-- **The check is the grammar**: a condition breaks no rule exactly if `operand (connective operand)*` derives each of
its levels. So in a condition that a text compiles to, each level has exactly one connective fewer than operands, and no
group is without a test. -/
theorem violation?_eq_none_iff_derived (condition : Condition) :
    (violation? condition = none ↔ ∀ level ∈ condition.levels, Derived level) ∧
      ∀ (d : Dialect) (source : String) (bound : Bindings), compile d source = .ok (condition, bound) →
        ∀ level ∈ condition.levels, Derived level ∧
          level.countP Node.isOperand = level.countP (fun node => !node.isOperand) + 1 ∧ 0 < testCount level := by
  have hiff : violation? condition = none ↔ ∀ level ∈ condition.levels, Derived level := by
    rw [violation?_eq_none_iff, violationFrom?_eq_none_iff_levels, forall_mem_levels_iff, Continues]
  refine ⟨hiff, fun d source bound h => ?_⟩
  obtain ⟨_, _, hv, _⟩ := compile_eq_ok_iff.1 h
  have hderived := hiff.1 hv
  have htests := testCount_pos_of_levels hderived
  exact fun level hl => ⟨hderived level hl, (hderived level hl).countP_eq, htests level hl⟩

/-- A group in a group, at the third level. -/
theorem violation?_eq_none_iff_derived_nested :
    let inner : Condition := [.test "c" .equals "param_2"]
    let group : Condition := [.test "b" .contains "param_1", .link .or, .group inner]
    let condition : Condition := [.test "a" .equals "param_0", .link .and, .group group]
    compile {} "x/a eq 1 and (contains(x/b,'2') or (x/c eq 3))" =
        .ok (condition, ⟨[("param_0", "1"), ("param_1", "%2%"), ("param_2", "3")], by decide⟩) ∧
      condition.levels = [condition, group, inner] ∧ Derived group ∧ 0 < testCount inner := by
  intro inner group condition
  have h : compile {} "x/a eq 1 and (contains(x/b,'2') or (x/c eq 3))" =
      .ok (condition, ⟨[("param_0", "1"), ("param_1", "%2%"), ("param_2", "3")], by decide⟩) := by decide +kernel
  have hlevels := (violation?_eq_none_iff_derived condition).2 _ _ _ h
  have he : condition.levels = [condition, group, inner] := rfl
  rw [he] at hlevels
  exact ⟨h, he, (hlevels group (by simp)).1, (hlevels inner (by simp)).2.2⟩

end Condition

end RelQuery
