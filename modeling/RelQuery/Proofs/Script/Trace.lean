import RelQuery.Proofs.Script.Stages
import Mathlib.Algebra.Ring.Nat

/-!
# The trace of a request

A request goes through its stages in order, up to the first that fails. A stage hands calls to the builder and leaves
one record, of its phase and of a number of items; the trace is these records, between a first event and a last one.

* `Script.Context.Follows` : a script goes through the stages of given phases, or fails behind some of them;
* `Script.Context.items_eq_contributed` : the items of a record are those that its stage has handed to the builder, with
  one exception, `Script.Context.LambdaConflict`;
* `Engine.trace_execute` : the trace of a request, on any builder.
-/

namespace RelQuery

/-- The phases in front of the run, in order. -/
def Phase.beforeRun : List Phase :=
  [.projection, .filter, .lambda, .joins, .order, .page]

/-- All phases, in order. -/
def Phase.all : List Phase :=
  [.projection, .filter, .lambda, .joins, .order, .page, .run]

/-- The last phase in front of the run is reached only behind all others. -/
theorem Phase.page_notMem_of_prefix {phases : List Phase} (h : phases <+: beforeRun) (hne : phases ≠ beforeRun) :
    .page ∉ phases := by
  have hlast : phases <+: [.projection, .filter, .lambda, .joins, .order] ++ [.page] := h
  rcases List.prefix_concat_iff.1 hlast with he | hp
  · exact absurd he hne
  · exact fun hm => absurd (hp.subset hm) (by decide)

/-- What a call adds to the items of a phase: a select list counts by its columns, and the orders of the includes do not
count among the joins. -/
def Phase.weight : Phase → Call → Nat
  | _, .select columns => columns.length
  | .joins, .order _ => 0
  | _, _ => 1

/-- A stage of a request: the phase that it reports, with a number of items, and the calls that it hands over. -/
structure Stage where
  phase : Phase
  items : Nat
  calls : List Call

namespace Stage

/-- The record of a stage, for a request about `entity`. -/
def record (entity : String) (s : Stage) : TraceRecord :=
  ⟨entity, .phase s.phase s.items⟩

/-- The items that the calls of a stage come to. -/
def contributed (s : Stage) : Nat :=
  (s.calls.map s.phase.weight).sum

end Stage

/-- Effects that are calls leave no record. -/
theorem Effect.filterMap_record?_call {α : Type} (entity : String) (f : α → Call) (xs : List α) :
    (xs.map fun x => Effect.call (f x)).filterMap (Effect.record? entity) = [] :=
  List.filterMap_eq_nil_iff.2 (List.forall_mem_map.2 fun _ _ => rfl)

namespace Script

/-! ## The stages of a script -/

/-- The script goes through these stages and ends so. -/
structure Reports (s : Script) (stages : List Stage) (ending : Except QueryError Bool) : Prop where
  records : ∀ entity, s.effects.filterMap (Effect.record? entity) = stages.map (Stage.record entity)
  calls : s.calls = stages.flatMap Stage.calls
  ending : s.ending = ending

variable {next : Script} {stages : List Stage} {ending : Except QueryError Bool} {es : List Effect}

theorem emitAll_append (es fs : List Effect) (next : Script) :
    emitAll (es ++ fs) next = emitAll es (emitAll fs next) :=
  List.foldr_append

theorem reports_fail (e : QueryError) : (Script.fail e).Reports [] (.error e) :=
  ⟨fun _ => rfl, rfl, rfl⟩

theorem reports_run (counted : Bool) : (Script.run counted).Reports [] (.ok counted) :=
  ⟨fun _ => rfl, rfl, rfl⟩

/-- The effects of one stage in front of a script. -/
theorem Reports.emitAll {stage : Stage} (h : next.Reports stages ending)
    (hr : ∀ entity, es.filterMap (Effect.record? entity) = [stage.record entity])
    (hc : es.filterMap Effect.call? = stage.calls) : (emitAll es next).Reports (stage :: stages) ending where
  records entity := by rw [effects_emitAll, List.filterMap_append, hr, h.records]; rfl
  calls := by rw [calls_emitAll, hc, h.calls]; rfl
  ending := by rw [ending_emitAll, h.ending]

/-- Effects that leave no record and are no calls. -/
theorem Reports.emitAll_silent (h : next.Reports stages ending) (hr : ∀ entity, ∀ e ∈ es, e.record? entity = none)
    (hc : ∀ e ∈ es, e.call? = none) : (Script.emitAll es next).Reports stages ending where
  records entity := by
    rw [effects_emitAll, List.filterMap_append, List.filterMap_eq_nil_iff.2 (hr entity), h.records]
    rfl
  calls := by
    rw [calls_emitAll, List.filterMap_eq_nil_iff.2 hc, h.calls]
    rfl
  ending := by rw [ending_emitAll, h.ending]

namespace Context

variable (c : Context)

/-! ## What a phase hands over and what it reports -/

/-- The calls that the stage of a phase hands over. -/
def handed : Phase → List Call
  | .projection => [.select (c.parts.projection c.root c.rootAlias)]
  | .filter => c.parts.fragments.map .restrict
  | .lambda =>
    match c.lambdaPart with
    | .ok (fragments, _) => fragments.map .restrict
    | .error _ => []
  | .joins => c.includePlan.calls
  | .order =>
    match c.orderPart with
    | .ok orders => orders.map .order
    | .error _ => []
  | .page => .skip c.skip :: c.top.toList.map .take
  | .run => []

/-- The items that the stage of a phase reports in front of the run. -/
def items : Phase → Nat
  | .projection => (c.parts.projection c.root c.rootAlias).length
  | .filter => c.parts.fragments.length
  | .lambda =>
    match Filter.resolve c.engine.dialect c.rootAlias c.root c.parts.filter with
    | .ok l => l.toList.length
    | .error _ => 0
  | .joins => c.includePlan.joins.length
  | .order =>
    match c.orderPart with
    | .ok orders => orders.length
    | .error _ => 0
  | .page => c.top.toList.length + 1
  | .run => 0

/-- The stage of a phase in front of the run. -/
def stage (p : Phase) : Stage :=
  ⟨p, c.items p, c.handed p⟩

/-- The lambda filter is resolved, but it binds a parameter that the parser binds to another value. -/
def LambdaConflict : Prop :=
  ∃ l e, Filter.resolve c.engine.dialect c.rootAlias c.root c.parts.filter = .ok (some l) ∧
    c.parts.bindings.merge l.bindings = .error e

variable {c} {bound : Bindings} {n : Nat}

theorem stage_lambda_of_conflict (h : c.LambdaConflict) : c.stage .lambda = ⟨.lambda, 1, []⟩ := by
  obtain ⟨l, e, hl, he⟩ := h
  simp [stage, items, handed, lambdaPart, hl, he]

theorem lambdaPart_of_conflict (h : c.LambdaConflict) : ∃ e, c.lambdaPart = .error e := by
  obtain ⟨l, e, hl, he⟩ := h
  exact ⟨e, by simp [lambdaPart, hl, he]⟩

theorem map_phase_stage (phases : List Phase) : (phases.map c.stage).map Stage.phase = phases := by
  rw [List.map_map]
  exact List.map_id _

/-- Calls of one weight. -/
theorem sum_map_weight {α : Type} {p : Phase} {f : α → Call} {k : Nat} (h : ∀ x, p.weight (f x) = k) (xs : List α) :
    ((xs.map f).map p.weight).sum = k * xs.length := by
  induction xs with
  | nil => rfl
  | cons x xs ih =>
    rw [List.map_cons, List.map_cons, List.sum_cons, ih, h, List.length_cons, Nat.mul_succ, Nat.add_comm]

/-- Calls that count once come to their number. -/
theorem sum_map_weight_one {α : Type} {p : Phase} {f : α → Call} (h : ∀ x, p.weight (f x) = 1) (xs : List α) :
    ((xs.map f).map p.weight).sum = xs.length := by
  rw [sum_map_weight h, Nat.one_mul]

/-- **What a stage reports is what it has handed over**, unless its lambda filter is refused for its bindings. -/
theorem items_eq_contributed {p : Phase} (h : ¬(p = .lambda ∧ c.LambdaConflict)) :
    (c.stage p).items = (c.stage p).contributed := by
  cases p with
  | projection => simp [stage, Stage.contributed, items, handed, Phase.weight]
  | filter => exact (sum_map_weight_one (fun _ => rfl) _).symm
  | lambda =>
    simp only [stage, Stage.contributed, items, handed, lambdaPart]
    cases hl : Filter.resolve c.engine.dialect c.rootAlias c.root c.parts.filter with
    | error e => rfl
    | ok l? =>
      cases l? with
      | none => rfl
      | some l =>
        dsimp only
        cases hm : c.parts.bindings.merge l.bindings with
        | error e => exact absurd ⟨rfl, l, e, hl, hm⟩ h
        | ok both => rfl
  | joins =>
    simp only [stage, Stage.contributed, items, handed, IncludePlan.calls]
    rw [List.map_append, List.sum_append, sum_map_weight_one (fun _ => rfl)]
    -- no order among the calls counts
    rw [sum_map_weight (k := 0) (fun _ => rfl), Nat.zero_mul, Nat.add_zero]
  | order =>
    simp only [stage, Stage.contributed, items, handed]
    cases c.orderPart with
    | error e => rfl
    | ok os => exact (sum_map_weight_one (fun _ => rfl) os).symm
  | page =>
    simp only [stage, Stage.contributed, items, handed, List.map_cons, List.sum_cons]
    rw [sum_map_weight_one (fun _ => rfl), Nat.add_comm]
    rfl
  | run => rfl

/-! ## The stages behind a stage -/

/-- The script goes through the stages of these phases and then runs the query, or it fails behind some of them. -/
def Follows (c : Context) (s : Script) (phases : List Phase) : Prop :=
  s.Reports (phases.map c.stage) (.ok c.counted) ∨
    ∃ e reached, reached <+: phases ∧ reached ≠ phases ∧ s.Reports (reached.map c.stage) (.error e)

theorem follows_fail (e : QueryError) (p : Phase) (phases : List Phase) : c.Follows (.fail e) (p :: phases) :=
  .inr ⟨e, [], List.nil_prefix, by simp, reports_fail e⟩

/-- The effects of the first phase, in front of those of the others. -/
theorem Follows.emitAll {p : Phase} {phases : List Phase} (h : c.Follows next phases)
    (hr : ∀ entity, es.filterMap (Effect.record? entity) = [⟨entity, .phase p (c.items p)⟩])
    (hc : es.filterMap Effect.call? = c.handed p) : c.Follows (Script.emitAll es next) (p :: phases) := by
  rcases h with h | ⟨e, reached, hp, hne, h⟩
  · exact .inl (h.emitAll hr hc)
  · refine .inr ⟨e, p :: reached, List.cons_prefix_cons.2 ⟨rfl, hp⟩, ?_, h.emitAll hr hc⟩
    exact fun he => hne (List.cons.inj he).2

theorem Follows.emitAll_silent {phases : List Phase} (h : c.Follows next phases)
    (hr : ∀ entity, ∀ e ∈ es, e.record? entity = none) (hc : ∀ e ∈ es, e.call? = none) :
    c.Follows (Script.emitAll es next) phases := by
  rcases h with h | ⟨e, reached, hp, hne, h⟩
  · exact .inl (h.emitAll_silent hr hc)
  · exact .inr ⟨e, reached, hp, hne, h.emitAll_silent hr hc⟩

theorem follows_page : c.Follows (c.page bound n) [.page] := by
  have hrun : c.Follows (.run c.counted) [] := .inl (reports_run c.counted)
  refine hrun.emitAll (fun entity => ?_) ?_
  · rw [items]
    cases c.top <;> rfl
  · rw [handed]
    cases c.top <;> rfl

theorem follows_orders : c.Follows (c.orders bound n) [.order, .page] := by
  rw [orders_eq]
  cases ho : c.orderPart with
  | error e => exact follows_fail e _ _
  | ok os =>
    refine follows_page.emitAll (fun entity => ?_) ?_
    · rw [List.filterMap_cons, Effect.filterMap_record?_call]
      simp [Effect.record?, items, ho]
    · rw [List.filterMap_cons, Effect.filterMap_call?_call]
      simp [Effect.call?, handed, ho]

theorem follows_joins : c.Follows (c.joins bound) [.joins, .order, .page] := by
  rw [joins_eq]
  refine Follows.emitAll_silent ?_ (fun _ => List.forall_mem_map.2 fun _ _ => rfl)
    (List.forall_mem_map.2 fun _ _ => rfl)
  cases c.joinPart bound with
  | error e => exact follows_fail e _ _
  | ok bound' =>
    refine follows_orders.emitAll (fun entity => ?_) ?_
    · have hrecords := Effect.filterMap_record?_call entity id c.includePlan.calls
      rw [List.filterMap_append]
      exact congrArg (· ++ [⟨entity, .phase .joins c.includePlan.joins.length⟩]) hrecords
    · have hcalls := (Effect.filterMap_call?_call id c.includePlan.calls).trans (List.map_id _)
      rw [List.filterMap_append]
      exact (congrArg (· ++ _) hcalls).trans (List.append_nil _)

theorem follows_lambda : c.Follows c.lambda [.lambda, .joins, .order, .page] := by
  rw [lambda]
  cases hl : Filter.resolve c.engine.dialect c.rootAlias c.root c.parts.filter with
  | error e => exact follows_fail e _ _
  | ok l? =>
    cases l? with
    | none =>
      show c.Follows (Script.emitAll [.phase .lambda 0] (c.joins c.parts.bindings)) _
      refine follows_joins.emitAll (fun entity => ?_) ?_
      · simp only [items, hl]
        rfl
      · simp only [handed, lambdaPart, hl]
        rfl
    | some l =>
      dsimp only
      cases hm : c.parts.bindings.merge l.bindings with
      | error e =>
        -- the record is left before the bindings are merged, so it stays if that fails
        refine (follows_fail e .joins [.order, .page]).emitAll (fun entity => ?_) ?_
        · simp only [items, hl]
          rfl
        · simp only [handed, lambdaPart, hl, hm]
          rfl
      | ok both =>
        show c.Follows (Script.emitAll [.log (.ofLambda l), .phase .lambda 1,
          .call (.restrict ⟨l.fragment c.engine.dialect, l.bindings⟩)] (c.joins both)) _
        refine follows_joins.emitAll (fun entity => ?_) ?_
        · simp only [items, hl]
          rfl
        · simp only [handed, lambdaPart, hl, hm]
          rfl

theorem follows_projection : c.Follows c.projection Phase.beforeRun := by
  have hfilter : c.Follows (Script.emitAll (c.parts.fragments.map (fun f => .call (.restrict f)) ++
      [.phase .filter c.parts.fragments.length]) c.lambda) [.filter, .lambda, .joins, .order, .page] := by
    refine follows_lambda.emitAll (fun entity => ?_) ?_
    · rw [List.filterMap_append, Effect.filterMap_record?_call]
      rfl
    · rw [List.filterMap_append, Effect.filterMap_call?_call]
      exact List.append_nil _
  rw [projection, List.append_assoc, emitAll_append]
  exact hfilter.emitAll (fun _ => rfl) rfl

end Context

/-- **A request** goes through the stages of the first phases of its context, and ends in the run exactly behind all. -/
theorem reports_ofRequest (engine : Engine) (rootAlias entityName : String) (request : Request) :
    ∃ stages ending, (ofRequest engine rootAlias entityName request).Reports stages ending ∧
      stages.map Stage.phase <+: Phase.beforeRun ∧
      (ending = .ok request.wantsCount ∧ stages.map Stage.phase = Phase.beforeRun ∧
          (∃ c, engine.context rootAlias entityName request = .ok c) ∨
        (∃ e, ending = .error e) ∧ stages.map Stage.phase ≠ Phase.beforeRun) ∧
      ∀ s ∈ stages, ∃ c, engine.context rootAlias entityName request = .ok c ∧ s = c.stage s.phase := by
  rw [ofRequest_eq]
  cases hc : engine.context rootAlias entityName request with
  | error e =>
    refine ⟨[], .error e, (reports_fail e).emitAll_silent (fun entity => ?_) ?_, List.nil_prefix,
      .inr ⟨⟨e, rfl⟩, by decide⟩, by simp⟩
    · exact List.forall_mem_map.2 fun _ _ => rfl
    · exact List.forall_mem_map.2 fun _ _ => rfl
  | ok c =>
    have hstages (phases : List Phase) :
        ∀ s ∈ phases.map c.stage, ∃ c', .ok c = (.ok c' : Except QueryError Context) ∧ s = c'.stage s.phase :=
      List.forall_mem_map.2 fun p _ => ⟨c, rfl, rfl⟩
    have hfollows : c.Follows (Script.emitAll ((engine.questions rootAlias entityName request).map fun q =>
        .ask q.1 q.2) c.projection) Phase.beforeRun := by
      refine Context.follows_projection.emitAll_silent (fun entity => ?_) ?_
      · exact List.forall_mem_map.2 fun _ _ => rfl
      · exact List.forall_mem_map.2 fun _ _ => rfl
    rcases hfollows with h | ⟨e, reached, hp, hne, h⟩
    · rw [(Engine.eq_of_context hc).2] at h
      refine ⟨_, _, h, ?_, .inl ⟨rfl, Context.map_phase_stage _, c, rfl⟩, hstages _⟩
      simp only [Context.map_phase_stage, List.prefix_rfl]
    · refine ⟨_, _, h, ?_, .inr ⟨⟨e, rfl⟩, ?_⟩, hstages _⟩
      · rwa [Context.map_phase_stage]
      · rwa [Context.map_phase_stage]

end Script

/-! ## Executing -/

section

variable {σ ρ : Type} [QueryBuilder σ ρ]

/-- The stage of a run, which is reported if it succeeds. -/
def Stage.ofRun : Except QueryError (Page ρ) → List Stage
  | .ok page => [⟨.run, page.size, []⟩]
  | .error _ => []

theorem Transcript.ofRun_trace (entity : String) (b : σ) (counted : Bool) :
    (Transcript.ofRun entity b counted : Transcript σ ρ).trace =
      (Stage.ofRun (QueryBuilder.run b counted).1).map (Stage.record entity) := by
  unfold ofRun
  split
  next h => rw [h]; rfl
  next h => rw [h]; rfl

theorem Stage.flatMap_calls_ofRun (stages : List Stage) (outcome : Except QueryError (Page ρ)) :
    (stages ++ ofRun outcome).flatMap calls = stages.flatMap calls := by
  rw [List.flatMap_append]
  cases outcome <;> exact List.append_nil _

theorem Stage.map_phase_ofRun (stages : List Stage) (outcome : Except QueryError (Page ρ)) :
    (stages ++ ofRun outcome).map phase = stages.map phase ++ if outcome.isOk then [.run] else [] := by
  rw [List.map_append]
  cases outcome <;> rfl

/-- The phase of the page is among those of a request exactly if it is among those in front of the run. -/
theorem Stage.page_mem_ofRun (stages : List Stage) (outcome : Except QueryError (Page ρ)) :
    .page ∈ (stages ++ ofRun outcome).map phase ↔ .page ∈ stages.map phase := by
  rw [map_phase_ofRun, List.mem_append]
  cases outcome <;> simp [Except.isOk, Except.toBool]

/-- A stage of a request with this context and this outcome is accounted for: its record says what it has handed over. -/
structure Stage.Accounted (c : Script.Context) (outcome : Except QueryError (Page ρ)) (s : Stage) : Prop where
  calls : s.calls = c.handed s.phase
  /-- The run reports the rows that it returns. -/
  rows : s.phase = .run → ∃ page, outcome = .ok page ∧ s.items = page.size
  /-- All other stages report what they have handed over. -/
  items : s.phase ≠ .run → ¬(s.phase = .lambda ∧ c.LambdaConflict) → s.items = s.contributed
  /-- A lambda filter whose bindings conflict with the parser's is reported, but not handed over. -/
  conflict : s.phase = .lambda → c.LambdaConflict → s.items = 1 ∧ s.calls = [] ∧ ∃ e, outcome = .error e

/-- A stage in front of the run is accounted for. -/
theorem Script.Context.accounted_stage {c : Script.Context} {outcome : Except QueryError (Page ρ)} {p : Phase}
    (hp : p ≠ .run) (hlambda : ∀ e, c.lambdaPart = .error e → outcome = .error e) :
    (c.stage p).Accounted c outcome where
  calls := rfl
  rows hrun := absurd hrun hp
  items _ hno := items_eq_contributed hno
  conflict hl hconflict := by
    obtain rfl : p = .lambda := hl
    obtain ⟨e, he⟩ := lambdaPart_of_conflict hconflict
    rw [stage_lambda_of_conflict hconflict]
    exact ⟨rfl, rfl, e, hlambda e he⟩

theorem Stage.accounted_run (c : Script.Context) (page : Page ρ) :
    (⟨.run, page.size, []⟩ : Stage).Accounted c (.ok page : Except QueryError (Page ρ)) where
  calls := rfl
  rows _ := ⟨page, rfl, rfl⟩
  items hrun := absurd rfl hrun
  conflict hl := by cases hl

variable {engine : Engine} {b : σ} {request : Request} {stages : List Stage}

/-- What a request leaves that fails behind given stages. -/
theorem Engine.execute_of_reports_error {e : QueryError}
    (h : (Script.ofRequest engine (QueryBuilder.rootAlias b) (QueryBuilder.entityName b) request).Reports stages
      (.error e)) :
    let entity := QueryBuilder.entityName b
    let t : Transcript σ ρ := engine.execute b request
    t.outcome = .error e ∧ t.builder = QueryBuilder.calls b (stages.flatMap Stage.calls) ∧
      t.trace = ⟨entity, .start⟩ :: (stages ++ Stage.ofRun t.outcome).map (Stage.record entity) ++
        [⟨entity, .last t.outcome⟩] := by
  have ho : (engine.execute b request).outcome = .error e := by rw [execute, Script.play_eq, h.ending]; rfl
  refine ⟨ho, ?_, ?_⟩
  · rw [execute, Script.play_eq, h.calls, h.ending]
    rfl
  · rw [ho, Stage.ofRun, List.append_nil, execute, Script.play_eq, h.records, h.ending]
    simp only [Transcript.ofEnding, List.append_nil]

/-- What a request leaves that runs the query behind given stages. -/
theorem Engine.execute_of_reports_ok {counted : Bool}
    (h : (Script.ofRequest engine (QueryBuilder.rootAlias b) (QueryBuilder.entityName b) request).Reports stages
      (.ok counted)) :
    let entity := QueryBuilder.entityName b
    let t : Transcript σ ρ := engine.execute b request
    t.builder = (QueryBuilder.run (QueryBuilder.calls b (stages.flatMap Stage.calls)) counted).2 ∧
      t.trace = ⟨entity, .start⟩ :: (stages ++ Stage.ofRun t.outcome).map (Stage.record entity) ++
        [⟨entity, .last t.outcome⟩] := by
  rw [execute, Script.play_eq, h.calls, h.records, h.ending]
  simp only [Transcript.ofEnding, Transcript.ofRun_outcome, Transcript.ofRun_builder, Transcript.ofRun_trace,
    List.map_append, true_and]

/-- **The trace of a request**, on any builder, all of it about the builder's entity. Behind one first event stand the
phases of the stages that the request goes through: some first ones of all phases, and all of them exactly if the
request succeeds. The last event is the number of rows or the class and the origin of the error. What the stages hand
over is what the builder takes, before it is run; and what a stage reports is what it has handed over: the columns
selected, the parser's conditions, those of the lambda filter, the joins, the orders of the root, the calls that set the
page, and the rows returned. One record says more: a lambda filter is reported before its bindings are merged, so if
they conflict with the parser's, the record of the stage stays and its condition is not handed over. -/
theorem Engine.trace_execute (engine : Engine) (b : σ) (request : Request) :
    let t : Transcript σ ρ := engine.execute b request
    let entity := QueryBuilder.entityName b
    ∃ stages : List Stage, ∃ final : TraceEvent,
      t.trace = ⟨entity, .start⟩ :: stages.map (Stage.record entity) ++ [⟨entity, final⟩] ∧
      (∀ page, t.outcome = .ok page → final = .finish page.size) ∧
      (∀ e, t.outcome = .error e → final = .error e.errorClass e.origin) ∧
      stages.map Stage.phase <+: Phase.all ∧
      ((∃ page, t.outcome = .ok page) ↔ stages.map Stage.phase = Phase.all) ∧
      (let taken := QueryBuilder.calls b (stages.flatMap Stage.calls)
       t.builder = if .page ∈ stages.map Stage.phase then (QueryBuilder.run taken request.wantsCount).2 else taken) ∧
      ∀ s ∈ stages, ∃ c, engine.context (QueryBuilder.rootAlias b) entity request = .ok c ∧
        s.Accounted c t.outcome := by
  intro t entity
  obtain ⟨stages, ending, h, hprefix, hending, hstages⟩ :=
    Script.reports_ofRequest engine (QueryBuilder.rootAlias b) entity request
  have hlast : (∀ page, t.outcome = .ok page → TraceEvent.last t.outcome = .finish page.size) ∧
      ∀ e, t.outcome = .error e → TraceEvent.last t.outcome = .error e.errorClass e.origin :=
    ⟨fun page ho => by rw [ho]; rfl, fun e ho => by rw [ho]; rfl⟩
  have htrace : t.trace = ⟨entity, .start⟩ :: (stages ++ Stage.ofRun t.outcome).map (Stage.record entity) ++
      [⟨entity, .last t.outcome⟩] := by
    rcases hending with ⟨rfl, _⟩ | ⟨⟨e, rfl⟩, _⟩
    · exact (execute_of_reports_ok h).2
    · exact (execute_of_reports_error h).2.2
  -- a page is returned only behind all stages
  have hreached : ∀ page, t.outcome = .ok page → stages.map Stage.phase = Phase.beforeRun ∧
      ∃ c, engine.context (QueryBuilder.rootAlias b) entity request = .ok c := by
    intro page ho
    rcases hending with ⟨_, hphases, hc⟩ | ⟨⟨e, rfl⟩, _⟩
    · exact ⟨hphases, hc⟩
    · cases (execute_of_reports_error h).1.symm.trans ho
  refine ⟨stages ++ Stage.ofRun t.outcome, .last t.outcome, htrace, hlast.1, hlast.2, ?_, ?_, ?_, ?_⟩
  · rw [Stage.map_phase_ofRun]
    cases ho : t.outcome with
    | error e => exact (List.append_nil (stages.map Stage.phase)).symm ▸ hprefix.trans ⟨[.run], rfl⟩
    | ok page => exact (hreached page ho).1.symm ▸ List.prefix_rfl
  · rw [Stage.map_phase_ofRun]
    cases ho : t.outcome with
    | error e =>
      have hshort : stages.map Stage.phase ≠ Phase.all := fun he => absurd (he ▸ hprefix) (by decide)
      exact iff_of_false (by simp) (by simpa [Except.isOk, Except.toBool] using hshort)
    | ok page => exact iff_of_true ⟨page, rfl⟩ ((hreached page ho).1.symm ▸ rfl)
  · simp only [Stage.flatMap_calls_ofRun, Stage.page_mem_ofRun]
    rcases hending with ⟨rfl, hphases, _⟩ | ⟨⟨e, rfl⟩, hphases⟩
    · rw [if_pos (by rw [hphases]; decide)]
      exact (execute_of_reports_ok h).1
    · rw [if_neg (Phase.page_notMem_of_prefix hprefix hphases)]
      exact (execute_of_reports_error h).2.1
  · intro s hs
    rcases List.mem_append.1 hs with hs | hs
    · obtain ⟨c, hc, he⟩ := hstages s hs
      have hrun : s.phase ≠ .run := by
        intro hr
        have hmem : .run ∈ Phase.beforeRun := hprefix.subset (hr ▸ List.mem_map_of_mem hs)
        exact absurd hmem (by decide)
      rw [he]
      exact ⟨c, hc, Script.Context.accounted_stage hrun fun e hl => outcome_of_lambda_error hc hl⟩
    · cases ho : t.outcome with
      | error e =>
        rw [ho] at hs
        cases hs
      | ok page =>
        rw [ho] at hs
        obtain rfl := List.mem_singleton.1 hs
        obtain ⟨_, c, hc⟩ := hreached page ho
        exact ⟨c, hc, Stage.accounted_run c page⟩

end

/-- The conditions that two records count need not all be in the plan: both sources bind one name. -/
theorem Recorder.not_forall_length_wheres :
    ¬∀ (engine : Engine) (r : Recorder Nat) (request : Request) (parsed resolved : Nat),
      let t := engine.execute r request
      ⟨r.entityName, .phase .filter parsed⟩ ∈ t.trace → ⟨r.entityName, .phase .lambda resolved⟩ ∈ t.trace →
        t.builder.plan.wheres.length = r.plan.wheres.length + parsed + resolved := by
  intro h
  let tags : Relation := ⟨"tags", "Post", "Tag", "tag", "postId", "id"⟩
  let post : Entity := { name := "Post", table := "post", relations := [tags] }
  let engine : Engine := {
    lookup := fun name => if name = "Post" then some post else none
    parse := fun _ _ => .ok {
      condition := "post.title = :param_0"
      bindings := ⟨[("param_0", "hello")], by decide⟩
      filter := some (.leaf "tags/any(t: t/name eq 'red')") } }
  have hlength := h engine { rootAlias := "post", entity := some "Post" } { filter := some "f" } 1 1
    (by decide +kernel) (by decide +kernel)
  exact absurd hlength (by decide +kernel)

end RelQuery
