import RelQuery.Aliases
import RelQuery.Builder
import RelQuery.Entity
import RelQuery.Include

/-!
# Joins of a forest of includes

Every include becomes a left join under an alias of its own, parents before their children. Its order list follows in
the plan's orders.

* `IncludePlan.addAll` plans a forest and stops at the first failure; what was planned until then stays in the result;
* `IncludePlan.calls` hands a plan to a query builder: all joins, then all orders.
-/

namespace RelQuery

namespace IncludeClause

/-- A clause with the placeholder replaced by the join's alias; an empty placeholder occurs nowhere. -/
def inScope (d : Dialect) (aliasName clause : String) : String :=
  String.ofList (Text.replace d.placeholder.toList aliasName.toList clause.toList)

/-- The join's condition, unless it is blank. -/
def joinCondition (d : Dialect) (aliasName : String) (c : IncludeClause) : Option String :=
  (c.condition.map (inScope d aliasName)).filter fun condition => !Text.isBlankText condition.toList

/-- The join of an include under the given alias. -/
def join (d : Dialect) (parentAlias aliasName : String) (c : IncludeClause) : Join where
  kind := if c.selection = some .all then .selecting else .plain
  path := s!"{parentAlias}.{c.property}"
  aliasName := aliasName
  condition := c.joinCondition d aliasName
  bindings := c.bindings

/-- The orders of an include under the given alias. -/
def orders (d : Dialect) (aliasName : String) (c : IncludeClause) : Except QueryError (List Order) :=
  match c.order with
  | none => .ok []
  | some text => Order.ofText d.noOrder (inScope d aliasName text)

end IncludeClause

/-- Planned joins and orders, with the aliases claimed so far and the failure that ended the planning, if any. -/
structure IncludePlan where
  aliases : Aliases
  joins : List Join := []
  orders : List Order := []
  failure : Option QueryError := none

namespace IncludePlan

/-- The plan, ended by a failure. -/
def fail (p : IncludePlan) (e : QueryError) : IncludePlan :=
  { p with failure := some e }

/-- The plan with one more join. -/
def addJoin (p : IncludePlan) (aliases : Aliases) (join : Join) : IncludePlan :=
  { p with aliases, joins := p.joins ++ [join] }

/-- The plan with more orders. -/
def addOrders (p : IncludePlan) (orders : List Order) : IncludePlan :=
  { p with orders := p.orders ++ orders }

mutual

/-- Plans an include of `parent` under `parentAlias`, then those nested in it. -/
def add (lookup : String → Option Entity) (d : Dialect) (parentAlias : String) (parent : Entity) (p : IncludePlan) :
    Include → IncludePlan
  | .node clause children =>
    match parent.requireRelation clause.property .joins with
    | .error e => p.fail e
    | .ok relation =>
      match p.aliases.claim? clause.property parentAlias d.aliasAttempts with
      | none => p.fail (.noFreeAlias clause.property)
      | some (aliasName, aliases) =>
        let p := p.addJoin aliases (clause.join d parentAlias aliasName)
        match clause.orders d aliasName with
        | .error e => p.fail e
        | .ok orders =>
          let p := p.addOrders orders
          if children.isEmpty then p
          else
            match lookup relation.target with
            | none => p.fail (.unknownEntity relation.target)
            | some target => addAll lookup d aliasName target p children

/-- Plans includes of `parent` under `parentAlias` up to the first failure. -/
def addAll (lookup : String → Option Entity) (d : Dialect) (parentAlias : String) (parent : Entity)
    (p : IncludePlan) : List Include → IncludePlan
  | [] => p
  | tree :: forest =>
    let p := add lookup d parentAlias parent p tree
    match p.failure with
    | some _ => p
    | none => addAll lookup d parentAlias parent p forest

end

/-- The calls that hand a plan to a query builder. -/
def calls (p : IncludePlan) : List Call :=
  p.joins.map .join ++ p.orders.map .order

/-- Plans a forest behind the aliases claimed so far. -/
def ofForest (lookup : String → Option Entity) (d : Dialect) (parentAlias : String) (parent : Entity)
    (aliases : Aliases) (forest : List Include) : IncludePlan :=
  addAll lookup d parentAlias parent { aliases } forest

end IncludePlan

/-- Hands a plan to a query builder if the planning succeeded; the answer is the number of joins. -/
def QueryBuilder.takePlan {σ ρ : Type} [QueryBuilder σ ρ] (b : σ) (p : IncludePlan) : Except QueryError Nat × σ :=
  match p.failure with
  | some e => (.error e, b)
  | none => (.ok p.joins.length, calls b p.calls)

end RelQuery
