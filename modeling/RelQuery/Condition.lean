/-!
# Conditions

A condition is a flat sequence of operands and connectives. An operand is a test of one column against one named
parameter, or a group, which is a condition in parentheses; there is no precedence to recover.

* `Condition.violation?` names the first place where a condition is not `operand (connective operand)*`.
-/

namespace RelQuery

/-- How a test compares its column with its parameter. -/
inductive Comparison where
  | equals
  | contains
  deriving DecidableEq, Repr

namespace Comparison

/-- The comparison as a filter expression names it. -/
def name : Comparison → String
  | equals => "eq"
  | contains => "contains"

/-- The SQL operator of the comparison. -/
def sql : Comparison → String
  | equals => "="
  | contains => "LIKE"

end Comparison

/-- What stands between two operands. -/
inductive Connective where
  | and
  | or
  deriving DecidableEq, Repr

/-- The connective's word, in a filter expression and in SQL alike. -/
def Connective.keyword : Connective → String
  | .and => "and"
  | .or => "or"

/-- One element of a condition. -/
inductive Node where
  | test (column : String) (comparison : Comparison) (param : String)
  | link (connective : Connective)
  | group (nodes : List Node)
  deriving Repr

/-- A condition: its elements from left to right. -/
abbrev Condition := List Node

/-- Tests and groups are operands; links stand between them. -/
def Node.isOperand : Node → Bool
  | .test .. | .group _ => true
  | .link _ => false

mutual

/-- The number of tests in an element, those in nested groups included. -/
def Node.testCount : Node → Nat
  | .test .. => 1
  | .link _ => 0
  | .group nodes => Condition.testCount nodes

/-- The number of tests in a condition, those in nested groups included. -/
def Condition.testCount : List Node → Nat
  | [] => 0
  | node :: nodes => node.testCount + Condition.testCount nodes

end

mutual

/-- The parameter names of an element's tests, from left to right. -/
def Node.params : Node → List String
  | .test _ _ param => [param]
  | .link _ => []
  | .group nodes => Condition.params nodes

/-- The parameter names of a condition's tests, from left to right. -/
def Condition.params : List Node → List String
  | [] => []
  | node :: nodes => node.params ++ Condition.params nodes

end

/-! ## Alternation -/

/-- A way in which a condition is not `operand (connective operand)*`. -/
inductive Violation where
  | empty
  | noLeftOperand
  | noConnective
  | noRightOperand
  deriving DecidableEq, Repr

/-- The violation in words. -/
def Violation.message : Violation → String
  | .empty => "empty condition"
  | .noLeftOperand => "connective without a left operand"
  | .noConnective => "two operands without a connective"
  | .noRightOperand => "connective without a right operand"

mutual

/-- The first violation inside an element. -/
def Node.violation? : Node → Option Violation
  | .test .. | .link _ => none
  | .group [] => some .empty
  | .group (node :: nodes) => Condition.violationFrom? true (node :: nodes)

/-- The first violation of the elements that remain, where `operand` says whether an operand comes next. -/
def Condition.violationFrom? (operand : Bool) : List Node → Option Violation
  | [] => if operand then some .noRightOperand else none
  | node :: nodes =>
    match operand, node.isOperand with
    | true, false => some .noLeftOperand
    | false, true => some .noConnective
    | _, _ => node.violation?.or (Condition.violationFrom? (!operand) nodes)

end

/-- The first violation of a condition, from left to right and into each group where it stands. -/
def Condition.violation? : Condition → Option Violation
  | [] => some .empty
  | nodes => Condition.violationFrom? true nodes

end RelQuery
