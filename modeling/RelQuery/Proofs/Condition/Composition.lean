import RelQuery.Proofs.Condition.Alternation
import RelQuery.Proofs.Condition.Seam

/-!
# Compiling is compositional

Texts that compile may be put together: a connective between two of them joins their conditions, and parentheses around
one make it a group, whatever the texts look like (`compile_append_and_paren`). The parameters of the second text are
numbered behind those of the first. Only a first text that ends with the word of a connective is read otherwise, since
that word takes the blank behind it.
-/

namespace RelQuery

open Text Outline

/-- A draft whose condition alternates ends with an operand. -/
theorem Draft.ends_of_violationFrom? {d : Dialect} : ∀ {cs : List Clause} {n : Nat} {operand : Bool},
    Condition.violationFrom? operand (Draft.nodes d n cs) = none → Draft.Ends (!operand) cs
  | [], _, operand, h => by
    cases operand with
    | true => cases h
    | false => rfl
  | c :: cs, n, operand, h => by
    obtain ⟨ho, _, hr⟩ := Condition.violationFrom?_cons_eq_none_iff.1 h
    have ih := Draft.ends_of_violationFrom? hr
    cases c with
    | test _ | group _ =>
      obtain rfl : true = operand := ho
      exact ih
    | link _ =>
      obtain rfl : false = operand := ho
      exact ih

/-- The values of a list of tests do not depend on where their numbers begin. -/
theorem Test.entries_eq_mapIdx (d : Dialect) (m n : Nat) : ∀ tests : List Test,
    Test.entries d m tests = (Test.entries d n tests).mapIdx fun i entry => (d.paramName (m + i), entry.2)
  | [] => rfl
  | test :: tests => by
    have ih := Test.entries_eq_mapIdx d (m + 1) (n + 1) tests
    simp only [Test.entries, List.mapIdx_cons, Nat.add_zero, ih]
    simp [Nat.add_assoc, Nat.add_comm 1]

namespace Condition

variable {d : Dialect} {e₁ : String} {t₁ : Condition} {p₁ : Bindings}

theorem compile_paren (h : compile d e₁ = .ok (t₁, p₁)) : compile d ("(" ++ e₁ ++ ")") = .ok ([.group t₁], p₁) := by
  obtain ⟨cs, hr, hv, rfl, rfl⟩ := compile_iff_reads.1 h
  refine compile_iff_reads.2 ⟨[.group cs], ?_, violation?_group hv, rfl, by simp [Draft.tests, Clause.tests]⟩
  have ht : ("(" ++ e₁ ++ ")").toList = '(' :: e₁.toList ++ [')'] := by simp
  rw [ht, hr.atoms_paren]
  exact hr.paren

theorem compile_append (k : Connective) {e₂ : String} {t₂ : Condition} {p₂ : Bindings}
    (h₁ : compile d e₁ = .ok (t₁, p₁)) (h₂ : compile d e₂ = .ok (t₂, p₂))
    (hk : Clear e₁.toList) :
    ∃ p, compile d (e₁ ++ " " ++ k.keyword ++ " " ++ e₂) = .ok (t₁ ++ .link k :: number d (testCount t₁) t₂, p) ∧
      p.entries = p₁.entries ++ p₂.entries.mapIdx fun i entry => (d.paramName (testCount t₁ + i), entry.2) := by
  obtain ⟨cs, hr₁, hv₁, rfl, rfl⟩ := compile_iff_reads.1 h₁
  obtain ⟨ds, hr₂, hv₂, rfl, rfl⟩ := compile_iff_reads.1 h₂
  -- the first text ends clean: with an operand, and in front of a seam
  have hends : Draft.Ends false cs := Draft.ends_of_violationFrom? (violation?_eq_none_iff.1 hv₁)
  have hseam : Seam (atoms e₁.toList) (plain (linkWord k) ++ atoms e₂.toList) := seam_linkWord k hk
  have hatoms : atoms (e₁ ++ " " ++ k.keyword ++ " " ++ e₂).toList =
      atoms e₁.toList ++ (plain (linkWord k) ++ atoms e₂.toList) := by
    have ht : (e₁ ++ " " ++ k.keyword ++ " " ++ e₂).toList = e₁.toList ++ (linkWord k ++ e₂.toList) := by
      simp [linkWord_eq]
    rw [ht, hr₁.atoms_append (isQuote_of_mem_head?_linkWord_append k _), atoms_linkWord_append]
  have hnodes : Draft.nodes d 0 (cs ++ .link k :: ds) =
      Draft.nodes d 0 cs ++ .link k :: number d (testCount (Draft.nodes d 0 cs)) (Draft.nodes d 0 ds) := by
    rw [Draft.nodes_append, Draft.testCount_nodes, Draft.number_nodes]
    simp [Draft.nodes, Clause.node, Clause.tests]
  have hv : violation? (number d (testCount (Draft.nodes d 0 cs)) (Draft.nodes d 0 ds)) = none := by
    rwa [violation?_number]
  refine ⟨Test.bindings d 0 (Draft.tests (cs ++ .link k :: ds)), ?_, ?_⟩
  · rw [compile_iff_reads, hatoms]
    exact ⟨_, hr₁.append_link k hends hseam hr₂, violation?_append_link k hv₁ hv, hnodes.symm, rfl⟩
  · have ht : Draft.tests (cs ++ .link k :: ds) = Draft.tests cs ++ Draft.tests ds := by
      simp [Draft.tests_append, Draft.tests, Clause.tests]
    simp only [Test.bindings, ht, Test.entries_append, Draft.testCount_nodes, Nat.zero_add]
    rw [Test.entries_eq_mapIdx d (Draft.tests cs).length 0]

/-- **Texts that compile can be put together.** Parentheses around one make a group of its condition. A connective
between two joins their conditions, the parameters of the second numbered behind those of the first, unless the first
text ends with a connective's word, to which the blank behind it would belong. -/
theorem compile_append_and_paren (h₁ : compile d e₁ = .ok (t₁, p₁)) :
    compile d ("(" ++ e₁ ++ ")") = .ok ([.group t₁], p₁) ∧
      ∀ (k : Connective) {e₂ : String} {t₂ : Condition} {p₂ : Bindings}, compile d e₂ = .ok (t₂, p₂) →
        ¬ " and".toList <:+ e₁.toList → ¬ " or".toList <:+ e₁.toList →
        ∃ p, compile d (e₁ ++ " " ++ k.keyword ++ " " ++ e₂) = .ok (t₁ ++ .link k :: number d (testCount t₁) t₂, p) ∧
          p.entries = p₁.entries ++ p₂.entries.mapIdx fun i entry => (d.paramName (testCount t₁ + i), entry.2) := by
  refine ⟨compile_paren h₁, fun k _ _ _ h₂ hand hor => compile_append k h₁ h₂ ?_⟩
  intro k
  cases k with
  | and => exact hand
  | or => exact hor

/-- The words and parentheses of literals do not part the texts. -/
theorem compile_append_and_paren_literals :
    compile {} "x/a eq ' and '" = .ok ([.test "a" .equals "param_0"], ⟨[("param_0", " and ")], by decide⟩) ∧
      compile {} "contains(y/c,')')" = .ok ([.test "c" .contains "param_0"], ⟨[("param_0", "%)%")], by decide⟩) ∧
      compile {} ("(" ++ "x/a eq ' and '" ++ ")") =
        .ok ([.group [.test "a" .equals "param_0"]], ⟨[("param_0", " and ")], by decide⟩) ∧
      ∃ p, compile {} ("x/a eq ' and '" ++ " " ++ Connective.or.keyword ++ " " ++ "contains(y/c,')')") =
          .ok ([.test "a" .equals "param_0", .link .or, .test "c" .contains "param_1"], p) ∧
        p.entries = [("param_0", " and "), ("param_1", "%)%")] := by
  have h₁ : compile {} "x/a eq ' and '" =
      .ok ([.test "a" .equals "param_0"], ⟨[("param_0", " and ")], by decide⟩) := by decide +kernel
  have h₂ : compile {} "contains(y/c,')')" =
      .ok ([.test "c" .contains "param_0"], ⟨[("param_0", "%)%")], by decide⟩) := by decide +kernel
  obtain ⟨hparen, happend⟩ := compile_append_and_paren h₁
  obtain ⟨p, hp, he⟩ := happend .or h₂ (by decide) (by decide)
  have hn : number {} 1 [.test "c" .contains "param_0"] = [.test "c" .contains "param_1"] := by decide +kernel
  have hs : ({} : Dialect).paramName 1 = "param_1" := by decide +kernel
  refine ⟨h₁, h₂, hparen, p, ?_, ?_⟩
  · rw [hp]
    exact congrArg (fun t => Except.ok ([.test "a" .equals "param_0", .link .or] ++ t, p)) hn
  · rw [he]
    exact congrArg (fun name => [("param_0", " and "), (name, "%)%")]) hs

end Condition

end RelQuery
