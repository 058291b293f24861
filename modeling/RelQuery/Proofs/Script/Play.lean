import RelQuery.Execution
import RelQuery.Proofs.Condition.Compile

/-!
# Playing a script

A script is a list of effects and an ending, and playing it hands its calls to the builder in order: what it does to a
builder, and what it asks, can be read off without playing it.

* `Script.play_eq` : the builder takes the calls, then the query is run if no failure ends the script; questions, trace
  and log are those of the effects, in order;
* `Recorder.calls_eq` : a recorder that takes calls adds them to its plan and changes nothing else.
-/

namespace RelQuery

/-! ## The effects of a script -/

/-- The call that an effect hands to the builder. -/
def Effect.call? : Effect → Option Call
  | .call c => some c
  | .ask .. | .phase .. | .log _ => none

/-- The query string and the alias that an effect asks the parser for. -/
def Effect.question? : Effect → Option (String × String)
  | .ask queryString rootAlias => some (queryString, rootAlias)
  | .call _ | .phase .. | .log _ => none

/-- The trace record that an effect leaves, for a request about `entity`. -/
def Effect.record? (entity : String) : Effect → Option TraceRecord
  | .phase p items => some ⟨entity, .phase p items⟩
  | .ask .. | .call _ | .log _ => none

/-- The log entry that an effect leaves. -/
def Effect.entry? : Effect → Option LogEntry
  | .log entry => some entry
  | .ask .. | .call _ | .phase .. => none

/-- Effects that are calls hand these calls over. -/
theorem Effect.filterMap_call?_call {α : Type} (f : α → Call) (xs : List α) :
    (xs.map fun x => Effect.call (f x)).filterMap Effect.call? = xs.map f := by
  induction xs with
  | nil => rfl
  | cons x xs ih => exact congrArg (f x :: ·) ih

namespace Script

/-- The effects in front of the ending. -/
def effects : Script → List Effect
  | .fail _ | .run _ => []
  | .emit effect next => effect :: next.effects

/-- The failure that ends the script, or whether the run that ends it counts. -/
def ending : Script → Except QueryError Bool
  | .fail e => .error e
  | .run counted => .ok counted
  | .emit _ next => next.ending

/-- The calls that the builder takes, in order. -/
def calls (s : Script) : List Call :=
  s.effects.filterMap Effect.call?

/-- What the parser is asked, in order. -/
def asked (s : Script) : List (String × String) :=
  s.effects.filterMap Effect.question?

@[simp] theorem effects_emitAll (es : List Effect) (next : Script) : (emitAll es next).effects = es ++ next.effects := by
  induction es with
  | nil => rfl
  | cons e es ih => exact congrArg (e :: ·) ih

@[simp] theorem ending_emitAll (es : List Effect) (next : Script) : (emitAll es next).ending = next.ending := by
  induction es with
  | nil => rfl
  | cons e es ih => exact ih

theorem calls_emitAll (es : List Effect) (next : Script) :
    (emitAll es next).calls = es.filterMap Effect.call? ++ next.calls := by
  simp [calls]

end Script

/-! ## Playing -/

section

variable {σ ρ : Type} [QueryBuilder σ ρ]

/-- What is left of a script behind its effects: a failure, or the run of the query. -/
def Transcript.ofEnding (entity : String) (b : σ) : Except QueryError Bool → Transcript σ ρ
  | .error e => { outcome := .error e, builder := b }
  | .ok counted => .ofRun entity b counted

theorem Transcript.ofRun_outcome (entity : String) (b : σ) (counted : Bool) :
    (Transcript.ofRun entity b counted : Transcript σ ρ).outcome = (QueryBuilder.run b counted).1 := by
  unfold ofRun
  split
  next h => rw [h]
  next h => rw [h]

theorem Transcript.ofRun_builder (entity : String) (b : σ) (counted : Bool) :
    (Transcript.ofRun entity b counted : Transcript σ ρ).builder = (QueryBuilder.run b counted).2 := by
  unfold ofRun
  split
  next h => rw [h]
  next h => rw [h]

namespace Script

/-- **Playing** is taking the calls, then failing or running; questions and records are those of the effects. -/
theorem play_eq (entity : String) : ∀ (s : Script) (b : σ), (s.play entity b : Transcript σ ρ) =
    let t := Transcript.ofEnding entity (QueryBuilder.calls b s.calls) s.ending
    { t with
      asked := s.asked ++ t.asked
      trace := s.effects.filterMap (Effect.record? entity) ++ t.trace
      log := s.effects.filterMap Effect.entry? ++ t.log }
  | .fail _, _ => rfl
  | .run _, _ => rfl
  | .emit (.ask ..) next, b => by rw [play, play_eq entity next b]; rfl
  | .emit (.call c) next, b => by rw [play, play_eq entity next (QueryBuilder.call b c)]; rfl
  | .emit (.phase ..) next, b => by rw [play, play_eq entity next b]; rfl
  | .emit (.log _) next, b => by rw [play, play_eq entity next b]; rfl

end Script

end

/-! ## Recorders -/

deriving instance DecidableEq for Fragment, Join, Plan, Recorder

/-- The plan with calls added, from left to right. -/
def Plan.addAll (p : Plan) (cs : List Call) : Plan :=
  cs.foldl Plan.add p

namespace Plan

theorem addAll_append (p : Plan) (cs ds : List Call) : p.addAll (cs ++ ds) = (p.addAll cs).addAll ds :=
  List.foldl_append

theorem addAll_cons (p : Plan) (c : Call) (cs : List Call) : p.addAll (c :: cs) = (p.add c).addAll cs := rfl

@[simp] theorem addAll_nil (p : Plan) : p.addAll [] = p := rfl

/-- The plan with WHERE conditions appended. -/
def restrictAll (p : Plan) (fs : List Fragment) : Plan :=
  { p with wheres := p.wheres ++ fs }

theorem addAll_restrict : ∀ (fs : List Fragment) (p : Plan), p.addAll (fs.map .restrict) = p.restrictAll fs
  | [], p => by simp [restrictAll]
  | f :: fs, p => by
    rw [List.map_cons, addAll_cons, addAll_restrict fs]
    simp [add, restrictAll]

theorem addAll_join : ∀ (js : List Join) (p : Plan), p.addAll (js.map .join) = { p with joins := p.joins ++ js }
  | [], p => by simp
  | j :: js, p => by
    rw [List.map_cons, addAll_cons, addAll_join js]
    simp [add]

theorem addAll_order : ∀ (os : List Order) (p : Plan), p.addAll (os.map .order) = { p with orders := p.orders ++ os }
  | [], p => by simp
  | o :: os, p => by
    rw [List.map_cons, addAll_cons, addAll_order os]
    simp [add]

theorem addAll_take (limit : Option Nat) (p : Plan) :
    p.addAll (limit.toList.map .take) = { p with limit := limit.or p.limit } := by
  cases limit <;> rfl

end Plan

namespace Recorder

variable {ρ : Type}

/-- A recorder that takes calls adds them to its plan and changes nothing else. -/
theorem calls_eq : ∀ (cs : List Call) (r : Recorder ρ), QueryBuilder.calls r cs = { r with plan := r.plan.addAll cs }
  | [], _ => rfl
  | c :: cs, r => calls_eq cs (QueryBuilder.call r c)

end Recorder

end RelQuery
