import RelQuery.Script

/-!
# Executing requests

A request is executed by playing its script on a query builder. What happened is kept in a transcript.

* `Engine.execute` : the outcome, the builder afterwards, what the parser was asked, the trace and the log.
-/

namespace RelQuery

/-- An event of a request's trace. -/
inductive TraceEvent where
  | start
  | phase (phase : Phase) (items : Nat)
  | finish (rows : Nat)
  | error (errorClass : ErrorClass) (origin : Origin)
  deriving DecidableEq, Repr

/-- An event, with the name of the entity that the request is about. -/
structure TraceRecord where
  entity : String
  event : TraceEvent
  deriving DecidableEq, Repr

/-- What happened while a request was executed. -/
structure Transcript (σ ρ : Type) where
  outcome : Except QueryError (Page ρ)
  /-- The builder afterwards. -/
  builder : σ
  /-- The query strings that the parser was asked for, each with the alias. -/
  asked : List (String × String) := []
  trace : List TraceRecord := []
  log : List LogEntry := []

section

variable {σ ρ : Type} [QueryBuilder σ ρ]

/-- Runs the query, which is the last phase if it succeeds. -/
def Transcript.ofRun (entity : String) (b : σ) (counted : Bool) : Transcript σ ρ :=
  match QueryBuilder.run b counted with
  | (.ok page, b) => { outcome := .ok page, builder := b, trace := [⟨entity, .phase .run page.size⟩] }
  | (.error e, b) => { outcome := .error e, builder := b }

/-- Plays the script of a request about `entity` on a builder. -/
def Script.play (entity : String) (b : σ) : Script → Transcript σ ρ
  | .fail e => { outcome := .error e, builder := b }
  | .run counted => Transcript.ofRun entity b counted
  | .emit (.ask queryString rootAlias) next =>
    let t := next.play entity b
    { t with asked := (queryString, rootAlias) :: t.asked }
  | .emit (.call c) next => next.play entity (QueryBuilder.call b c)
  | .emit (.phase p items) next =>
    let t := next.play entity b
    { t with trace := ⟨entity, .phase p items⟩ :: t.trace }
  | .emit (.log entry) next =>
    let t := next.play entity b
    { t with log := entry :: t.log }

/-- The last event of a trace. -/
def TraceEvent.last : Except QueryError (Page ρ) → TraceEvent
  | .ok page => .finish page.size
  | .error e => .error e.errorClass e.origin

/-- Executes a request on a builder. -/
def Engine.execute (engine : Engine) (b : σ) (request : Request) : Transcript σ ρ :=
  let rootAlias := QueryBuilder.rootAlias b
  let entity := QueryBuilder.entityName b
  let t := (Script.ofRequest engine rootAlias entity request).play entity b
  { t with
    trace := ⟨entity, .start⟩ :: t.trace ++ [⟨entity, .last t.outcome⟩]
    log := .executing entity rootAlias :: t.log }

end

end RelQuery
