import RelQuery.Bindings
import RelQuery.Order

/-!
# Query plans

A plan is what was asked of a query builder, clause by clause, each clause in the order in which it was filled.

* `Plan.boundParameters` merges the parameters of all conditions;
* `Plan.explain` prints a plan, one clause a line.
-/

namespace RelQuery

/-- A condition of the WHERE clause, with its parameters. -/
@[ext] structure Fragment where
  sql : String
  bindings : Bindings

/-- Whether a left join also selects the columns of the joined entity. -/
inductive JoinKind where
  | plain
  | selecting
  deriving DecidableEq, Repr

/-- The kind in words. -/
def JoinKind.text : JoinKind → String
  | plain => "LEFT JOIN"
  | selecting => "LEFT JOIN (SELECT)"

/-- A left join along a relation path, under an alias of its own. -/
@[ext] structure Join where
  kind : JoinKind
  path : String
  aliasName : String
  condition : Option String
  bindings : Bindings

/-- The join in one line. -/
def Join.text (j : Join) : String :=
  s!"{j.kind.text} {j.path} AS {j.aliasName}" ++
    match j.condition with
    | some condition => s!" ON {condition}"
    | none => ""

/-- What was asked of a query builder. -/
@[ext] structure Plan where
  select : List String := []
  wheres : List Fragment := []
  joins : List Join := []
  orders : List Order := []
  offset : Option Nat := none
  limit : Option Nat := none

namespace Plan

/-- The parameters of all WHERE conditions, then of all joins. -/
def boundParameters (p : Plan) : Except QueryError Bindings :=
  Bindings.empty.mergeAll (p.wheres.map Fragment.bindings ++ p.joins.map Join.bindings)

/-- A line with a keyword in front, unless there is nothing to say. -/
def clauseLine (keyword separator : String) : List String → List String
  | [] => []
  | parts => [keyword ++ " " ++ separator.intercalate parts]

/-- The lines of a printed plan. -/
def explainLines (p : Plan) : List String :=
  ("SELECT " ++ ", ".intercalate p.select) :: p.joins.map Join.text ++
    clauseLine "WHERE" " AND " (p.wheres.map Fragment.sql) ++
    clauseLine "ORDER BY" ", " (p.orders.map Order.text) ++
    clauseLine "OFFSET" "" (p.offset.toList.map Text.decimalText) ++
    clauseLine "LIMIT" "" (p.limit.toList.map Text.decimalText)

/-- The plan in SQL order, one clause a line. -/
def explain (p : Plan) : String :=
  String.join (p.explainLines.map (· ++ "\n"))

end Plan

end RelQuery
