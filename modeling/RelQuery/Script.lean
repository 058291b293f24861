import RelQuery.Filter.Lambda
import RelQuery.Include.Joins
import RelQuery.Request

/-!
# Scripts

A script is what one request does, before a query builder is involved: questions to the parser, calls of the builder and
records of the work, in order, up to a failure or to the run of the query.

* `Script.ofRequest` : projection, the parser's condition, the lambda filter, joins, orders and paging, in this order.
-/

namespace RelQuery

/-- What a parser makes of a query string. -/
structure QueryParts where
  select : String := ""
  condition : String := ""
  bindings : Bindings := .empty
  order : String := ""
  includes : List Include := []
  filter : Option Filter := none

namespace QueryParts

open Text

/-- A text without trailing blanks and without an `AND`, in any case, that stands behind a blank at its end. -/
def withoutDanglingAnd (s : List Char) : List Char :=
  let text := trimEnd s
  match text.reverse with
  | d :: n :: a :: blank :: front =>
    if [a, n, d].map Char.toLower = "and".toList ∧ isBlank blank = true then trimEnd front.reverse else text
  | _ => text

/-- The condition, without an `AND` that the parser left at its end. -/
def conditionText (q : QueryParts) : String :=
  String.ofList (withoutDanglingAnd q.condition.toList)

/-- The columns to select: all of the root's for a blank list and for a star. -/
def projection (root : Entity) (rootAlias : String) (q : QueryParts) : List String :=
  let select := trim q.select.toList
  if select.isEmpty ∨ select = ['*'] then root.qualifiedColumns rootAlias else (entries select).map String.ofList

/-- The parser's condition as a WHERE condition; it counts only if it binds a parameter. -/
def fragments (q : QueryParts) : List Fragment :=
  if q.bindings.isEmpty then [] else [⟨q.conditionText, q.bindings⟩]

end QueryParts

/-- The phases of a request, in order. -/
inductive Phase where
  | projection
  | filter
  | lambda
  | joins
  | order
  | page
  | run
  deriving DecidableEq, Repr

/-- The phase's label. -/
def Phase.label : Phase → String
  | projection => "Projection"
  | filter => "Filter"
  | lambda => "LambdaFilter"
  | joins => "Include"
  | order => "Order"
  | page => "Page"
  | run => "Execute"

/-- A record of something that was worked out. -/
inductive LogEntry where
  | executing (entity rootAlias : String)
  | resolvedLambda (property table : String) (params : Nat)
  | resolvedJoin (path aliasName : String) (kind : JoinKind)
  | assembled (params joins skip : Nat) (top : Option Nat) (counted : Bool)
  deriving DecidableEq, Repr

namespace LogEntry

/-- The record of a lambda filter. -/
def ofLambda (l : LambdaFilter) : LogEntry :=
  .resolvedLambda l.relation.property l.relation.table l.bindings.size

/-- The record of a join. -/
def ofJoin (j : Join) : LogEntry :=
  .resolvedJoin j.path j.aliasName j.kind

/-- What the record says. -/
def message : LogEntry → String
  | executing .. => "execute_query"
  | resolvedLambda .. => "resolved lambda filter"
  | resolvedJoin .. => "resolved include join"
  | assembled .. => "query assembled"

/-- The record's fields, by name. -/
def fields : LogEntry → List (String × String)
  | executing entity rootAlias => [("entity", entity), ("alias", rootAlias)]
  | resolvedLambda property table params =>
    [("property", property), ("child_table", table), ("params", Text.decimalText params)]
  | resolvedJoin path aliasName kind => [("path", path), ("alias", aliasName), ("kind", kind.text)]
  | assembled params joins skip top counted =>
    let bound := match top with
      | none => "None"
      | some n => s!"Some({Text.decimalText n})"
    [("params", Text.decimalText params), ("joins", Text.decimalText joins), ("skip", Text.decimalText skip),
      ("top", bound), ("count", if counted then "true" else "false")]

end LogEntry

/-- One thing that a request does. -/
inductive Effect where
  /-- The parser is asked for the parts of a query string, under an alias. -/
  | ask (queryString rootAlias : String)
  | call (call : Call)
  | phase (phase : Phase) (items : Nat)
  | log (entry : LogEntry)

/-- Effects in order, then a failure or the run of the query. -/
inductive Script where
  | fail (error : QueryError)
  | run (counted : Bool)
  | emit (effect : Effect) (next : Script)

/-- What requests are executed with: entities by name, a parser, a dialect. -/
structure Engine where
  lookup : String → Option Entity
  parse : (queryString rootAlias : String) → Except QueryError QueryParts
  dialect : Dialect := {}

namespace Script

/-- Several effects in front of a script. -/
def emitAll (effects : List Effect) (next : Script) : Script :=
  effects.foldr .emit next

/-- What the stages of one request share. -/
structure Context where
  engine : Engine
  rootAlias : String
  root : Entity
  parts : QueryParts
  skip : Nat
  top : Option Nat
  counted : Bool

namespace Context

/-- Paging, then the run. -/
def page (c : Context) (bound : Bindings) (joins : Nat) : Script :=
  emitAll (.call (.skip c.skip) :: c.top.toList.map (fun n => .call (.take n)) ++
    [.phase .page (c.top.toList.length + 1), .log (.assembled bound.size joins c.skip c.top c.counted)])
    (.run c.counted)

/-- The orders of the root, then what follows. -/
def orders (c : Context) (bound : Bindings) (joins : Nat) : Script :=
  match Order.ofText c.engine.dialect.noOrder c.parts.order with
  | .error e => .fail e
  | .ok orders =>
    emitAll (.phase .order orders.length :: orders.map (fun o => .call (.order o))) (c.page bound joins)

/-- The planned includes, with aliases of their own beside the root's. -/
def includePlan (c : Context) : IncludePlan :=
  .ofForest c.engine.lookup c.engine.dialect c.rootAlias c.root (Aliases.ofRoot c.rootAlias) c.parts.includes

/-- The joins of the includes, then what follows. -/
def joins (c : Context) (bound : Bindings) : Script :=
  let plan := c.includePlan
  emitAll (plan.joins.map fun j => .log (.ofJoin j)) <|
    match plan.failure with
    | some e => .fail e
    | none =>
      match bound.mergeAll (plan.joins.map Join.bindings) with
      | .error e => .fail e
      | .ok bound =>
        emitAll (plan.calls.map .call ++ [.phase .joins plan.joins.length]) (c.orders bound plan.joins.length)

/-- The lambda filter, then what follows. -/
def lambda (c : Context) : Script :=
  match Filter.resolve c.engine.dialect c.rootAlias c.root c.parts.filter with
  | .error e => .fail e
  | .ok none => .emit (.phase .lambda 0) (c.joins c.parts.bindings)
  | .ok (some l) =>
    emitAll [.log (.ofLambda l), .phase .lambda 1] <|
      match c.parts.bindings.merge l.bindings with
      | .error e => .fail e
      | .ok bound => .emit (.call (.restrict ⟨l.fragment c.engine.dialect, l.bindings⟩)) (c.joins bound)

/-- The projection and the parser's condition, then what follows. -/
def projection (c : Context) : Script :=
  let columns := c.parts.projection c.root c.rootAlias
  let fragments := c.parts.fragments
  emitAll ([.phase .projection columns.length, .call (.select columns)] ++
    fragments.map (fun f => .call (.restrict f)) ++ [.phase .filter fragments.length]) c.lambda

end Context

/-- The script of a request on a query with the given alias and root entity. -/
def ofRequest (engine : Engine) (rootAlias entityName : String) (request : Request) : Script :=
  match engine.lookup entityName with
  | none => .fail (.unknownEntity entityName)
  | some root =>
    match request.skipValue with
    | .error e => .fail e
    | .ok skip =>
      match request.topValue? with
      | .error e => .fail e
      | .ok top =>
        let context parts : Context := { engine, rootAlias, root, parts, skip, top, counted := request.wantsCount }
        if request.queryString = "" then (context {}).projection
        else
          .emit (.ask request.queryString rootAlias) <|
            match engine.parse request.queryString rootAlias with
            | .error e => .fail e
            | .ok parts => (context parts).projection

end Script

end RelQuery
