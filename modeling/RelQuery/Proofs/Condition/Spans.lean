import RelQuery.Proofs.Condition.Reading
import RelQuery.Proofs.Text.Trim
import Mathlib.Data.List.Forall2

/-!
# No part of a text is lost

A text that compiles is its condition with the text of each test in the test's place, blanks apart
(`exists_spans_of_compile`): every test is read from a span of its own, in order, and what no span holds are the
connectives and parentheses that the condition has.
-/

namespace RelQuery

open Text Outline

theorem Text.squeeze_join_blanks {as : List Atom} (h : as.all isBlankAtom = true) : squeeze (join as) = [] := by
  induction as with
  | nil => rfl
  | cons a as ih =>
    obtain ⟨ha, has⟩ : isBlankAtom a = true ∧ as.all isBlankAtom = true := by simpa using h
    cases a with
    | char c =>
      have hc : squeeze [c] = [] := squeeze_of_isBlankText (by simpa [isBlankText, isBlankAtom] using ha)
      rw [join_cons, squeeze_append, ih has, Atom.text, hc, List.nil_append]
    | quoted run => cases ha
    | unclosed run => cases ha

/-! ## Conditions with texts for their tests -/

mutual

/-- The tests of an element, from left to right: column, comparison and parameter. -/
def Node.tests : Node → List (String × Comparison × String)
  | .test column comparison param => [(column, comparison, param)]
  | .link _ => []
  | .group nodes => Condition.tests nodes

/-- The tests of a condition, from left to right: column, comparison and parameter. -/
def Condition.tests : List Node → List (String × Comparison × String)
  | [] => []
  | node :: nodes => node.tests ++ Condition.tests nodes

end

mutual

/-- The element with the given texts in the places of its tests. -/
def Node.textWith (texts : List (List Char)) : Node → List Char
  | .test .. => texts.headD []
  | .link k => linkWord k
  | .group nodes => '(' :: Condition.textWith texts nodes ++ [')']

/-- The condition with the given texts in the places of its tests, from left to right. -/
def Condition.textWith (texts : List (List Char)) : List Node → List Char
  | [] => []
  | node :: nodes =>
    node.textWith (texts.take node.testCount) ++ Condition.textWith (texts.drop node.testCount) nodes

end

/-- The tests as they stand in a condition, their parameters numbered from `n`. -/
def Test.numbered (d : Dialect) (n : Nat) : List Test → List (String × Comparison × String)
  | [] => []
  | t :: ts => (String.ofList t.column, t.comparison, d.paramName n) :: Test.numbered d (n + 1) ts

theorem Test.numbered_append (d : Dialect) : ∀ (n : Nat) (ts us : List Test),
    Test.numbered d n (ts ++ us) = Test.numbered d n ts ++ Test.numbered d (n + ts.length) us
  | _, [], _ => rfl
  | n, t :: ts, us => by
    simp [Test.numbered, Test.numbered_append d (n + 1) ts us, Nat.add_comm, Nat.add_left_comm]

mutual

theorem Clause.tests_node (d : Dialect) : ∀ (n : Nat) (c : Clause), (c.node d n).tests = Test.numbered d n c.tests
  | _, .test _ => rfl
  | _, .link _ => rfl
  | n, .group cs => Draft.tests_nodes d n cs

theorem Draft.tests_nodes (d : Dialect) : ∀ (n : Nat) (cs : List Clause),
    Condition.tests (Draft.nodes d n cs) = Test.numbered d n (Draft.tests cs)
  | _, [] => rfl
  | n, c :: cs => by
    rw [Draft.nodes, Condition.tests, Clause.tests_node d n c, Draft.tests_nodes d _ cs, Draft.tests,
      Test.numbered_append]

end

/-! ## The spans of a text that is read -/

/-- The text is trimmed and not blank, and it is read as the test. -/
def Test.ReadFrom (text : List Char) (test : Test) : Prop :=
  trim text = text ∧ text ≠ [] ∧ Test.ofSpan? text = some test

theorem Test.readFrom_trim {text : List Char} {test : Test} (hb : isBlankText text = false)
    (ht : Test.ofSpan? (trim text) = some test) : Test.ReadFrom (trim text) test := by
  refine ⟨trim_eq_self (tight_trim text), fun h => ?_, ht⟩
  rw [isBlankText_iff.2 h] at hb
  cases hb

/-- **What is read is the text**, blanks apart: the spans that its tests are read from, put in their places. -/
theorem Reads.exists_spans {f : Bool} {as : List Atom} {cs : Draft} (h : Reads f as cs) :
    ∃ spans, List.Forall₂ Test.ReadFrom spans (Draft.tests cs) ∧ ∀ (d : Dialect) (n : Nat),
      squeeze (Condition.textWith spans (Draft.nodes d n cs)) = squeeze (join as) := by
  induction h with
  | blank hs hb =>
    obtain ⟨rfl, _⟩ := splits_of_span hs
    exact ⟨[], .nil, fun _ _ => (squeeze_of_isBlankText hb).symm⟩
  | @test f as text t hs hb ht =>
    obtain ⟨rfl, _⟩ := splits_of_span hs
    refine ⟨[trim (join as)], .cons (Test.readFrom_trim hb ht) .nil, fun d n => ?_⟩
    simp [Draft.nodes, Condition.textWith, Clause.node, Node.textWith, Node.testCount, squeeze_trim]
  | @group f as text inside rest cs ds hs _ _ ih₁ ih₂ =>
    obtain ⟨rfl, _, _, hblank⟩ := splits_of_span hs
    obtain ⟨s₁, h₁, he₁⟩ := ih₁
    obtain ⟨s₂, h₂, he₂⟩ := ih₂
    refine ⟨s₁ ++ s₂, ?_, fun d n => ?_⟩
    · simpa [Draft.tests, Clause.tests] using List.rel_append h₁ h₂
    · have hl : Node.testCount (.group (Draft.nodes d n cs)) = s₁.length := by
        rw [Node.testCount, Draft.testCount_nodes, h₁.length_eq]
      simp only [Draft.nodes, Clause.node, Condition.textWith, Node.textWith, hl, List.take_left, List.drop_left]
      simp only [join_append, join_cons, Atom.text, squeeze_append, squeeze_join_blanks hblank, he₂, List.cons_append,
        List.nil_append, squeeze_cons (show isBlank '(' = false from rfl), he₁ d n,
        squeeze_cons (show isBlank ')' = false from rfl)]
      simp [squeeze]
  | @link as text rest k ds hs hb _ ih =>
    obtain ⟨rfl, _⟩ := splits_of_span hs
    obtain ⟨spans, h, he⟩ := ih
    refine ⟨spans, by simpa [Draft.tests, Clause.tests] using h, fun d n => ?_⟩
    simp [Draft.nodes, Clause.node, Condition.textWith, Node.textWith, Node.testCount, he, join_plain,
      squeeze_of_isBlankText hb]
  | @testLink f as text rest k t ds hs hb ht _ ih =>
    obtain ⟨rfl, _⟩ := splits_of_span hs
    obtain ⟨spans, h, he⟩ := ih
    refine ⟨trim (join text) :: spans, ?_, fun d n => ?_⟩
    · simpa [Draft.tests, Clause.tests] using ⟨Test.readFrom_trim hb ht, h⟩
    · simp [Draft.nodes, Clause.node, Condition.textWith, Node.textWith, Node.testCount, he, join_plain, squeeze_trim]

/-! ## The spans of a text that compiles -/

namespace Condition

/-- The trimmed text is read as the test, and the test's parameter is bound to the value read there, between wildcards
for a containment. -/
def StandsFor (d : Dialect) (bound : Bindings) (text : List Char) : String × Comparison × String → Prop
  | (column, comparison, param) => trim text = text ∧ text ≠ [] ∧ ∃ test, Test.ofSpan? text = some test ∧
      column = String.ofList test.column ∧ comparison = test.comparison ∧
      bound.get? param = some (boundValue d test)

theorem standsFor_of_readFrom {d : Dialect} {bound : Bindings} {spans : List (List Char)} {tests : List Test}
    (h : List.Forall₂ Test.ReadFrom spans tests) : ∀ {n : Nat}, Test.entries d n tests ⊆ bound.entries →
      List.Forall₂ (StandsFor d bound) spans (Test.numbered d n tests) := by
  induction h with
  | nil => exact fun _ => .nil
  | @cons span test spans tests hr _ ih =>
    intro n hs
    obtain ⟨htrim, hne, hread⟩ := hr
    have hget := Bindings.get?_of_mem (hs List.mem_cons_self)
    refine .cons ⟨htrim, hne, test, hread, rfl, rfl, hget⟩ (ih fun e he => hs (List.mem_cons_of_mem _ he))

/-- **Nothing of a text is lost.** Each test of a condition that a text compiles to stands for a span of its own, and
the condition with these spans in the places of its tests is the text, blanks apart. -/
theorem exists_spans_of_compile {d : Dialect} {source : String} {nodes : Condition} {bound : Bindings}
    (h : compile d source = .ok (nodes, bound)) : ∃ spans : List (List Char),
      List.Forall₂ (StandsFor d bound) spans (tests nodes) ∧
        squeeze (textWith spans nodes) = squeeze source.toList := by
  obtain ⟨cs, hr, _, rfl, rfl⟩ := compile_iff_reads.1 h
  obtain ⟨spans, hs, he⟩ := hr.exists_spans
  refine ⟨spans, ?_, ?_⟩
  · rw [Draft.tests_nodes]
    exact standsFor_of_readFrom hs (List.Subset.refl _)
  · rw [he, join_atoms]

/-- Parentheses behind other text belong to the span of a test, those in front of it are a group. -/
theorem exists_spans_of_compile_parens :
    compile {} " ( x/a eq f('(') ) and y contains(z/c , 'd') " =
        .ok ([.group [.test "a" .equals "param_0"], .link .and, .test "c" .contains "param_1"],
          ⟨[("param_0", "f('(')"), ("param_1", "%d%")], by decide⟩) ∧
      ∃ spans : List (List Char),
        List.Forall₂ (StandsFor {} ⟨[("param_0", "f('(')"), ("param_1", "%d%")], by decide⟩) spans
            [("a", .equals, "param_0"), ("c", .contains, "param_1")] ∧
          squeeze (textWith spans [.group [.test "a" .equals "param_0"], .link .and, .test "c" .contains "param_1"]) =
            "(x/aeqf('('))andycontains(z/c,'d')".toList := by
  have h : compile {} " ( x/a eq f('(') ) and y contains(z/c , 'd') " =
      .ok ([.group [.test "a" .equals "param_0"], .link .and, .test "c" .contains "param_1"],
        ⟨[("param_0", "f('(')"), ("param_1", "%d%")], by decide⟩) := by decide +kernel
  exact ⟨h, exists_spans_of_compile h⟩

end Condition

end RelQuery
