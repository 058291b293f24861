import RelQuery.Page
import RelQuery.Plan

/-!
# Query builders

A query builder takes calls that accumulate, and runs what has accumulated.

* `Recorder` keeps the calls as a plan and pages through rows that it was given;
* `CallLog` keeps the calls themselves.
-/

namespace RelQuery

/-- One call of a query builder, short of running it. -/
inductive Call where
  | select (columns : List String)
  | restrict (fragment : Fragment)
  | join (join : Join)
  | order (order : Order)
  | skip (offset : Nat)
  | take (limit : Nat)

/-- A query builder with states `σ` over rows `ρ`. -/
class QueryBuilder (σ : Type) (ρ : outParam Type) where
  /-- The alias of the root entity. -/
  rootAlias : σ → String
  /-- The name under which the root entity is looked up. -/
  entityName : σ → String
  /-- Takes a call. -/
  call : σ → Call → σ
  /-- Runs the query, with the total number of matches where `counted` asks for it. -/
  run : σ → (counted : Bool) → Except QueryError (Page ρ) × σ

/-- Takes calls from left to right. -/
def QueryBuilder.calls {σ ρ : Type} [QueryBuilder σ ρ] (b : σ) (cs : List Call) : σ :=
  cs.foldl call b

/-- What the plan becomes by a call: the select list, the offset and the limit are replaced, all else is appended. -/
def Plan.add (p : Plan) : Call → Plan
  | .select columns => { p with select := columns }
  | .restrict fragment => { p with wheres := p.wheres ++ [fragment] }
  | .join join => { p with joins := p.joins ++ [join] }
  | .order order => { p with orders := p.orders ++ [order] }
  | .skip offset => { p with offset := some offset }
  | .take limit => { p with limit := some limit }

/-! ## Recording a plan -/

/-- A builder that records its calls as a plan and answers from a fixed list of rows. -/
structure Recorder (ρ : Type) where
  rootAlias : String
  /-- The name of the root entity, where it is not the alias. -/
  entity : Option String := none
  plan : Plan := {}
  rows : List ρ := []
  /-- The total number of matches, where it is not the number of rows. -/
  total : Option Nat := none
  /-- The message of the failure with which every run ends, if there is one. -/
  failure : Option String := none
  /-- Counts the runs of the query; a counter of 32 bits, which wraps around. -/
  runs : UInt32 := 0

namespace Recorder

variable {ρ : Type}

/-- The name under which the root entity is looked up. -/
def entityName (r : Recorder ρ) : String :=
  r.entity.getD r.rootAlias

/-- How often the query was run, modulo `2 ^ 32`. -/
def executions (r : Recorder ρ) : Nat :=
  r.runs.toNat

/-- The rows that the plan's offset and limit leave. -/
def pageRows (r : Recorder ρ) : List ρ :=
  let rows := r.rows.drop (r.plan.offset.getD 0)
  match r.plan.limit with
  | some limit => rows.take limit
  | none => rows

/-- The answer of a run. -/
def answer (r : Recorder ρ) (counted : Bool) : Except QueryError (Page ρ) :=
  match r.failure with
  | some message => .error (.execute message)
  | none =>
    if counted then .ok (.counted r.pageRows (r.total.getD r.rows.length)) else .ok (.rows r.pageRows)

instance : QueryBuilder (Recorder ρ) ρ where
  rootAlias := Recorder.rootAlias
  entityName := entityName
  call r c := { r with plan := r.plan.add c }
  run r counted := (r.answer counted, { r with runs := r.runs + 1 })

end Recorder

/-! ## Logging calls -/

/-- An entry of a call log. -/
inductive LoggedCall where
  | call (call : Call)
  | run (counted : Bool)

/-- A builder that logs its calls and answers every run with the same rows, or with the same failure. -/
structure CallLog (ρ : Type) where
  rootAlias : String
  rows : List ρ := []
  failure : Option String := none
  log : List LoggedCall := []

namespace CallLog

variable {ρ : Type}

/-- The answer of a run: all rows, whatever was called before. -/
def answer (l : CallLog ρ) (counted : Bool) : Except QueryError (Page ρ) :=
  match l.failure with
  | some message => .error (.execute message)
  | none => if counted then .ok (.counted l.rows l.rows.length) else .ok (.rows l.rows)

instance : QueryBuilder (CallLog ρ) ρ where
  rootAlias := CallLog.rootAlias
  entityName := CallLog.rootAlias
  call l c := { l with log := l.log ++ [.call c] }
  run l counted := (l.answer counted, { l with log := l.log ++ [.run counted] })

end CallLog

end RelQuery
