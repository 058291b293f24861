import RelQuery.Condition

/-!
# Conditions that alternate

* a condition breaks no rule if each element is of the kind that its place asks for and breaks none itself
  (`violationFrom?_cons_eq_none_iff`, `Node.violation?_group_eq_none_iff`);
* two conditions with a connective between them alternate if both do (`Condition.violation?_append_link`), and so does a
  group of a condition that alternates (`Condition.violation?_group`); a connective at the end lacks its right operand
  (`Condition.violation?_concat_link`).
-/

namespace RelQuery

namespace Condition

theorem violationFrom?_cons_eq_none_iff {operand : Bool} {node : Node} {nodes : List Node} :
    violationFrom? operand (node :: nodes) = none ↔
      node.isOperand = operand ∧ node.violation? = none ∧ violationFrom? (!operand) nodes = none := by
  cases operand <;> cases ho : node.isOperand <;> simp [violationFrom?, ho]

/-- A condition starts with an operand. -/
theorem violation?_eq_none_iff {condition : Condition} :
    violation? condition = none ↔ violationFrom? true condition = none := by
  cases condition <;> simp [violation?, violationFrom?]

end Condition

theorem Node.violation?_group_eq_none_iff {nodes : List Node} :
    (Node.group nodes).violation? = none ↔ Condition.violation? nodes = none := by
  cases nodes <;> rfl

namespace Condition

/-- Behind a condition that alternates, up to a connective, what counts is what stands behind the connective. -/
theorem violationFrom?_append_link (k : Connective) (ns : List Node) : ∀ {ms : List Node} {operand : Bool},
    violationFrom? operand ms = none → violationFrom? operand (ms ++ .link k :: ns) = violationFrom? true ns
  | [], operand, h => by
    -- behind the operand at the end comes a connective
    have ho : operand = false := by simpa [violationFrom?] using h
    subst ho
    rfl
  | m :: ms, operand, h => by
    obtain ⟨ho, hv, hr⟩ := violationFrom?_cons_eq_none_iff.1 h
    have ih := violationFrom?_append_link k ns hr
    cases operand <;> simpa [violationFrom?, ho, hv] using ih

/-- Two conditions that alternate, with a connective between them, alternate. -/
theorem violation?_append_link (k : Connective) {ms ns : Condition} (hm : violation? ms = none)
    (hn : violation? ns = none) : violation? (ms ++ .link k :: ns) = none := by
  rw [violation?_eq_none_iff] at hm hn ⊢
  rw [violationFrom?_append_link k ns hm, hn]

/-- A connective at the end of a condition lacks its right operand. -/
theorem violation?_concat_link (k : Connective) {ms : Condition} (hm : violation? ms = none) :
    violation? (ms ++ [.link k]) = some .noRightOperand := by
  cases ms with
  | nil => cases hm
  | cons m ms => exact violationFrom?_append_link k [] hm

/-- A group of a condition that alternates, alone, alternates. -/
theorem violation?_group {ms : Condition} (h : violation? ms = none) : violation? [.group ms] = none :=
  violation?_eq_none_iff.2
    (violationFrom?_cons_eq_none_iff.2 ⟨rfl, Node.violation?_group_eq_none_iff.2 h, rfl⟩)

end Condition

end RelQuery
