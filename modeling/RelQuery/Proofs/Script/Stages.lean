import RelQuery.Proofs.Include.Joins
import RelQuery.Proofs.Request.QueryString
import RelQuery.Proofs.Script.Play

/-!
# The stages of a request

A request passes its checks, then the lambda filter, the includes and the order of the root; each of these stages may
fail, and what the builder was handed until then stays. `Script.Does` says which calls a script hands over and how it
ends, stage by stage and from the last one back.

* `Engine.context` : what the stages share, once the checks have passed and the parser has answered;
* `Script.ofRequest_eq` : a request asks the parser at most once, before its first call;
* `Recorder.execute_by_stage` : what each outcome of the stages leaves in a recorder.
-/

namespace RelQuery

/-! ## The checks -/

/-- What the parser makes of a request; it is not asked if no key is present. -/
def Engine.parts (engine : Engine) (rootAlias : String) (request : Request) : Except QueryError QueryParts :=
  if request.present = [] then .ok {} else engine.parse request.queryString rootAlias

/-- What the parser is asked: the root is known, the paging is valid and some key is present, or it is not asked. -/
def Engine.questions (engine : Engine) (rootAlias entityName : String) (request : Request) : List (String × String) :=
  if (engine.lookup entityName).isSome ∧ request.skipValue.isOk ∧ request.topValue?.isOk ∧ request.present ≠ [] then
    [(request.queryString, rootAlias)]
  else []

/-- What the stages of a request share: its root, its paging and its parts, or the first failure to find them. -/
def Engine.context (engine : Engine) (rootAlias entityName : String) (request : Request) :
    Except QueryError Script.Context :=
  match engine.lookup entityName with
  | none => .error (.unknownEntity entityName)
  | some root =>
    match request.skipValue with
    | .error e => .error e
    | .ok skip =>
      match request.topValue? with
      | .error e => .error e
      | .ok top =>
        match engine.parts rootAlias request with
        | .error e => .error e
        | .ok parts => .ok { engine, rootAlias, root, parts, skip, top, counted := request.wantsCount }

/-- A context keeps the alias that it is made for, and whether its request counts. -/
theorem Engine.eq_of_context {engine : Engine} {rootAlias entityName : String} {request : Request}
    {c : Script.Context} (h : engine.context rootAlias entityName request = .ok c) :
    c.rootAlias = rootAlias ∧ c.counted = request.wantsCount := by
  unfold context at h
  repeat' split at h
  all_goals cases h
  exact ⟨rfl, rfl⟩

/-- The root of a context is the entity of its name, and its parts are what the parser makes of its request. -/
theorem Engine.lookup_of_context {engine : Engine} {rootAlias entityName : String} {request : Request}
    {c : Script.Context} (h : engine.context rootAlias entityName request = .ok c) :
    engine.lookup entityName = some c.root ∧ engine.parts rootAlias request = .ok c.parts := by
  unfold context at h
  repeat' split at h
  all_goals cases h
  exact ⟨‹_›, ‹_›⟩

namespace Script

/-- The script hands these calls to the builder and ends so. -/
structure Does (s : Script) (cs : List Call) (ending : Except QueryError Bool) : Prop where
  calls : s.calls = cs
  ending : s.ending = ending

theorem Does.emitAll {next : Script} {cs ds : List Call} {ending : Except QueryError Bool} {es : List Effect}
    (h : next.Does cs ending) (he : es.filterMap Effect.call? ++ cs = ds) : (emitAll es next).Does ds ending where
  calls := by rw [calls_emitAll, h.calls, he]
  ending := by rw [ending_emitAll, h.ending]

/-- Effects that are no calls hand nothing over. -/
theorem Does.emitAll_silent {next : Script} {cs : List Call} {ending : Except QueryError Bool} {es : List Effect}
    (h : next.Does cs ending) (he : ∀ e ∈ es, e.call? = none) : (Script.emitAll es next).Does cs ending :=
  h.emitAll (by rw [List.filterMap_eq_nil_iff.2 he]; rfl)

theorem does_fail (e : QueryError) : (Script.fail e).Does [] (.error e) := ⟨rfl, rfl⟩

theorem does_run (counted : Bool) : (Script.run counted).Does [] (.ok counted) := ⟨rfl, rfl⟩

namespace Context

variable {c : Context} {bound bound' : Bindings} {n : Nat} {cs : List Call} {e : QueryError}
  {ending : Except QueryError Bool}

/-! ## What a stage works out -/

/-- The WHERE conditions of the lambda filter, with the bindings of the parser and the filter together. -/
def lambdaPart (c : Context) : Except QueryError (List Fragment × Bindings) :=
  match Filter.resolve c.engine.dialect c.rootAlias c.root c.parts.filter with
  | .error e => .error e
  | .ok none => .ok ([], c.parts.bindings)
  | .ok (some l) =>
    match c.parts.bindings.merge l.bindings with
    | .error e => .error e
    | .ok bound => .ok ([⟨l.fragment c.engine.dialect, l.bindings⟩], bound)

/-- The bindings of the planned joins behind those bound before. -/
def joinPart (c : Context) (bound : Bindings) : Except QueryError Bindings :=
  match c.includePlan.failure with
  | some e => .error e
  | none => bound.mergeAll (c.includePlan.joins.map Join.bindings)

theorem failure_of_joinPart (h : c.joinPart bound = .ok bound') : c.includePlan.failure = none := by
  rw [joinPart] at h
  cases hf : c.includePlan.failure with
  | some e => simp [hf] at h
  | none => rfl

/-- The orders of the root. -/
def orderPart (c : Context) : Except QueryError (List Order) :=
  Order.ofText c.engine.dialect.noOrder c.parts.order

/-- The records that the lambda filter leaves once it is resolved. -/
def lambdaRecords (c : Context) : List Effect :=
  match Filter.resolve c.engine.dialect c.rootAlias c.root c.parts.filter with
  | .error _ => []
  | .ok none => [.phase .lambda 0]
  | .ok (some l) => [.log (.ofLambda l), .phase .lambda 1]

theorem lambda_eq (c : Context) : c.lambda = emitAll c.lambdaRecords
    (match c.lambdaPart with
    | .error e => .fail e
    | .ok (fragments, bound) => emitAll (fragments.map fun f => .call (.restrict f)) (c.joins bound)) := by
  rw [lambda, lambdaRecords, lambdaPart]
  cases Filter.resolve c.engine.dialect c.rootAlias c.root c.parts.filter with
  | error e => rfl
  | ok l? =>
    cases l? with
    | none => rfl
    | some l =>
      -- the records are left before the bindings are merged, so they stay if that fails
      dsimp only
      cases c.parts.bindings.merge l.bindings <;> rfl

theorem joins_eq (c : Context) (bound : Bindings) : c.joins bound =
    emitAll (c.includePlan.joins.map fun j => .log (.ofJoin j))
      (match c.joinPart bound with
      | .error e => .fail e
      | .ok bound => emitAll (c.includePlan.calls.map .call ++ [.phase .joins c.includePlan.joins.length])
          (c.orders bound c.includePlan.joins.length)) := by
  rw [joins, joinPart]
  cases c.includePlan.failure <;> rfl

theorem orders_eq (c : Context) (bound : Bindings) (n : Nat) : c.orders bound n =
    match c.orderPart with
    | .error e => .fail e
    | .ok orders => emitAll (.phase .order orders.length :: orders.map (fun o => .call (.order o))) (c.page bound n) :=
  rfl

/-! ## The plan behind a stage -/

/-- The plan behind the projection and the parser's condition. -/
def selected (c : Context) (p : Plan) : Plan :=
  { p with select := c.parts.projection c.root c.rootAlias, wheres := p.wheres ++ c.parts.fragments }

/-- The plan behind the includes. -/
def joined (c : Context) (p : Plan) : Plan :=
  { p with joins := p.joins ++ c.includePlan.joins, orders := p.orders ++ c.includePlan.orders }

/-- The plan behind the orders of the root and the paging; without a top value, the limit stays. -/
def paged (c : Context) (orders : List Order) (p : Plan) : Plan :=
  { p with orders := p.orders ++ orders, offset := some c.skip, limit := c.top.or p.limit }

theorem addAll_selected (c : Context) (p : Plan) : p.addAll
    (.select (c.parts.projection c.root c.rootAlias) :: c.parts.fragments.map .restrict) = c.selected p := by
  rw [Plan.addAll_cons, Plan.addAll_restrict]
  rfl

theorem addAll_joined (c : Context) (p : Plan) : p.addAll c.includePlan.calls = c.joined p := by
  rw [IncludePlan.calls, Plan.addAll_append, Plan.addAll_join, Plan.addAll_order]
  rfl

theorem addAll_paged (c : Context) (orders : List Order) (p : Plan) :
    p.addAll (orders.map .order ++ .skip c.skip :: c.top.toList.map .take) = c.paged orders p := by
  rw [Plan.addAll_append, Plan.addAll_order, Plan.addAll_cons, Plan.addAll_take]
  rfl

/-! ## The calls of a stage and of those behind it -/

theorem does_page : (c.page bound n).Does (.skip c.skip :: c.top.toList.map .take) (.ok c.counted) :=
  (does_run c.counted).emitAll (by cases c.top <;> rfl)

theorem does_orders_of_error (h : c.orderPart = .error e) : (c.orders bound n).Does [] (.error e) := by
  rw [orders_eq, h]
  exact does_fail e

theorem does_orders_of_ok {os : List Order} (h : c.orderPart = .ok os) : (c.orders bound n).Does
    (os.map .order ++ .skip c.skip :: c.top.toList.map .take) (.ok c.counted) := by
  rw [orders_eq, h]
  exact does_page.emitAll (congrArg (· ++ _) (Effect.filterMap_call?_call .order os))

theorem does_joins_of_error (h : c.joinPart bound = .error e) : (c.joins bound).Does [] (.error e) := by
  rw [joins_eq, h]
  exact (does_fail e).emitAll_silent (List.forall_mem_map.2 fun _ _ => rfl)

theorem does_joins_of_ok (h : c.joinPart bound = .ok bound')
    (hn : (c.orders bound' c.includePlan.joins.length).Does cs ending) :
    (c.joins bound).Does (c.includePlan.calls ++ cs) ending := by
  have hcalls : (c.includePlan.calls.map Effect.call).filterMap Effect.call? = c.includePlan.calls :=
    (Effect.filterMap_call?_call id _).trans (List.map_id _)
  rw [joins_eq, h]
  refine (hn.emitAll ?_).emitAll_silent (List.forall_mem_map.2 fun _ _ => rfl)
  rw [List.filterMap_append, hcalls]
  exact congrArg (· ++ cs) (List.append_nil _)

theorem call?_of_mem_lambdaRecords (c : Context) : ∀ e ∈ c.lambdaRecords, e.call? = none := by
  unfold lambdaRecords
  split <;> simp [Effect.call?]

theorem does_lambda_of_error (h : c.lambdaPart = .error e) : c.lambda.Does [] (.error e) := by
  rw [lambda_eq, h]
  exact (does_fail e).emitAll_silent c.call?_of_mem_lambdaRecords

theorem does_lambda_of_ok {fs : List Fragment} (h : c.lambdaPart = .ok (fs, bound))
    (hn : (c.joins bound).Does cs ending) : c.lambda.Does (fs.map .restrict ++ cs) ending := by
  rw [lambda_eq, h]
  refine Does.emitAll_silent ?_ c.call?_of_mem_lambdaRecords
  exact hn.emitAll (congrArg (· ++ cs) (Effect.filterMap_call?_call .restrict fs))

theorem does_projection (h : c.lambda.Does cs ending) : c.projection.Does
    (.select (c.parts.projection c.root c.rootAlias) :: c.parts.fragments.map .restrict ++ cs) ending := by
  refine h.emitAll (congrArg (· ++ cs) ?_)
  rw [List.filterMap_append, List.filterMap_append, Effect.filterMap_call?_call]
  exact List.append_nil _

end Context

/-! ## Questions -/

namespace Context

end Context

/-! ## The script of a request -/

/-- **A request** puts its question to the parser, then fails or begins with its projection. -/
theorem ofRequest_eq (engine : Engine) (rootAlias entityName : String) (request : Request) :
    ofRequest engine rootAlias entityName request =
      emitAll ((engine.questions rootAlias entityName request).map fun q => .ask q.1 q.2)
        (match engine.context rootAlias entityName request with
        | .error e => .fail e
        | .ok c => c.projection) := by
  rw [ofRequest, Engine.questions, Engine.context]
  cases engine.lookup entityName with
  | none => rfl
  | some root =>
    cases request.skipValue with
    | error e => rfl
    | ok skip =>
      cases request.topValue? with
      | error e => rfl
      | ok top =>
        by_cases hp : request.present = []
        · simp [Engine.parts, Request.queryString_eq_empty_iff, hp, Except.isOk, Except.toBool, emitAll]
        · simp only [Engine.parts, Request.queryString_eq_empty_iff, hp, Except.isOk, Except.toBool, emitAll]
          cases engine.parse request.queryString rootAlias <;> simp [hp]

section

variable {engine : Engine} {rootAlias entityName : String} {request : Request}

theorem does_ofRequest_of_error {e : QueryError} (h : engine.context rootAlias entityName request = .error e) :
    (ofRequest engine rootAlias entityName request).Does [] (.error e) := by
  rw [ofRequest_eq, h]
  exact (does_fail e).emitAll_silent (List.forall_mem_map.2 fun _ _ => rfl)

variable {c : Context} {cs : List Call} {ending : Except QueryError Bool}

theorem does_ofRequest_of_ok (h : engine.context rootAlias entityName request = .ok c)
    (hp : c.projection.Does cs ending) : (ofRequest engine rootAlias entityName request).Does cs ending := by
  rw [ofRequest_eq, h]
  exact hp.emitAll_silent (List.forall_mem_map.2 fun _ _ => rfl)

theorem does_ofRequest_of_joins (h : engine.context rootAlias entityName request = .ok c) {fs : List Fragment}
    {bound : Bindings} (hl : c.lambdaPart = .ok (fs, bound)) (hj : (c.joins bound).Does cs ending) :
    (ofRequest engine rootAlias entityName request).Does
      (.select (c.parts.projection c.root c.rootAlias) :: c.parts.fragments.map .restrict ++
        (fs.map .restrict ++ cs)) ending :=
  does_ofRequest_of_ok h (Context.does_projection (Context.does_lambda_of_ok hl hj))

end

end Script

/-! ## Executing -/

section

variable {σ ρ : Type} [QueryBuilder σ ρ] {engine : Engine} {b : σ} {request : Request}

/-- Executing a request hands the calls of its script over, then fails or runs the query. -/
theorem Engine.execute_of_does {cs : List Call} {ending : Except QueryError Bool}
    (h : (Script.ofRequest engine (QueryBuilder.rootAlias b) (QueryBuilder.entityName b) request).Does cs ending) :
    let t : Transcript σ ρ := .ofEnding (QueryBuilder.entityName b) (QueryBuilder.calls b cs) ending
    (engine.execute b request).outcome = t.outcome ∧ (engine.execute b request).builder = t.builder := by
  rw [execute, Script.play_eq, h.calls, h.ending]
  exact ⟨rfl, rfl⟩

/-! ## The first failure is the outcome -/

section

variable {c : Script.Context} {fragments : List Fragment} {bound bound' : Bindings} {e : QueryError}

theorem Engine.outcome_of_context_error
    (hc : engine.context (QueryBuilder.rootAlias b) (QueryBuilder.entityName b) request = .error e) :
    (engine.execute b request).outcome = .error e :=
  (execute_of_does (Script.does_ofRequest_of_error hc)).1

variable (hc : engine.context (QueryBuilder.rootAlias b) (QueryBuilder.entityName b) request = .ok c)
include hc

theorem Engine.outcome_of_lambda_error (hl : c.lambdaPart = .error e) :
    (engine.execute b request).outcome = .error e :=
  (execute_of_does (Script.does_ofRequest_of_ok hc (Script.Context.does_projection
    (Script.Context.does_lambda_of_error hl)))).1

theorem Engine.outcome_of_join_error (hl : c.lambdaPart = .ok (fragments, bound))
    (hj : c.joinPart bound = .error e) : (engine.execute b request).outcome = .error e :=
  (execute_of_does (Script.does_ofRequest_of_joins hc hl (Script.Context.does_joins_of_error hj))).1

theorem Engine.outcome_of_order_error (hl : c.lambdaPart = .ok (fragments, bound))
    (hj : c.joinPart bound = .ok bound') (ho : c.orderPart = .error e) :
    (engine.execute b request).outcome = .error e :=
  (execute_of_does (Script.does_ofRequest_of_joins hc hl
    (Script.Context.does_joins_of_ok hj (Script.Context.does_orders_of_error ho)))).1

end

end

namespace Recorder

variable {ρ : Type} {engine : Engine} {r : Recorder ρ} {request : Request} {c : Script.Context}
  {fragments : List Fragment} {bound bound' : Bindings} {e : QueryError}

section

variable {cs : List Call}

theorem execute_of_error (h : (Script.ofRequest engine r.rootAlias r.entityName request).Does cs (.error e)) :
    (engine.execute r request).outcome = .error e ∧
      (engine.execute r request).builder = { r with plan := r.plan.addAll cs } := by
  obtain ⟨ho, hb⟩ := Engine.execute_of_does (b := r) h
  rw [ho, hb, calls_eq]
  exact ⟨rfl, rfl⟩

theorem execute_of_ok {counted : Bool}
    (h : (Script.ofRequest engine r.rootAlias r.entityName request).Does cs (.ok counted)) :
    (engine.execute r request).outcome = ({ r with plan := r.plan.addAll cs } : Recorder ρ).answer counted ∧
      (engine.execute r request).builder =
        { r with plan := r.plan.addAll cs, runs := r.runs + 1 } := by
  obtain ⟨ho, hb⟩ := Engine.execute_of_does (b := r) h
  rw [ho, hb, calls_eq, Transcript.ofEnding, Transcript.ofRun_outcome, Transcript.ofRun_builder]
  exact ⟨rfl, rfl⟩

end

theorem execute_of_context_error (hc : engine.context r.rootAlias r.entityName request = .error e) :
    (engine.execute r request).outcome = .error e ∧ (engine.execute r request).builder = r :=
  execute_of_error (Script.does_ofRequest_of_error hc)

section

variable (hc : engine.context r.rootAlias r.entityName request = .ok c)
include hc

theorem execute_of_lambda_error (hl : c.lambdaPart = .error e) :
    (engine.execute r request).outcome = .error e ∧
      (engine.execute r request).builder = { r with plan := c.selected r.plan } := by
  have h := execute_of_error (Script.does_ofRequest_of_ok hc (Script.Context.does_projection
    (Script.Context.does_lambda_of_error hl)))
  rwa [List.append_nil, Script.Context.addAll_selected] at h

variable (hl : c.lambdaPart = .ok (fragments, bound))
include hl

theorem execute_of_join_error (hj : c.joinPart bound = .error e) :
    (engine.execute r request).outcome = .error e ∧
      (engine.execute r request).builder = { r with plan := (c.selected r.plan).restrictAll fragments } := by
  have h := execute_of_error (Script.does_ofRequest_of_joins hc hl (Script.Context.does_joins_of_error hj))
  rwa [List.append_nil, Plan.addAll_append, Script.Context.addAll_selected, Plan.addAll_restrict] at h

variable (hj : c.joinPart bound = .ok bound')
include hj

theorem execute_of_order_error (ho : c.orderPart = .error e) :
    (engine.execute r request).outcome = .error e ∧
      (engine.execute r request).builder =
        { r with plan := c.joined ((c.selected r.plan).restrictAll fragments) } := by
  have h := execute_of_error (Script.does_ofRequest_of_joins hc hl
    (Script.Context.does_joins_of_ok hj (Script.Context.does_orders_of_error ho)))
  rwa [Plan.addAll_append, Plan.addAll_append, Plan.addAll_append, Script.Context.addAll_selected,
    Plan.addAll_restrict, Script.Context.addAll_joined, Plan.addAll_nil] at h

theorem execute_of_order_ok {orders : List Order} (ho : c.orderPart = .ok orders) :
    let paged := c.paged orders (c.joined ((c.selected r.plan).restrictAll fragments))
    (engine.execute r request).outcome = ({ r with plan := paged } : Recorder ρ).answer c.counted ∧
      (engine.execute r request).builder = { r with plan := paged, runs := r.runs + 1 } := by
  have h := execute_of_ok (Script.does_ofRequest_of_joins hc hl
    (Script.Context.does_joins_of_ok hj (Script.Context.does_orders_of_ok ho)))
  rwa [Plan.addAll_append, Plan.addAll_append, Plan.addAll_append, Script.Context.addAll_selected,
    Plan.addAll_restrict, Script.Context.addAll_joined, Script.Context.addAll_paged] at h

end

/-- A request fails without a run, or all of its stages pass and the query is run once. -/
theorem execute_cases (engine : Engine) (r : Recorder ρ) (request : Request) :
    let t := engine.execute r request
    ((∃ e, t.outcome = .error e) ∧ t.builder.runs = r.runs) ∨
      ∃ c fragments bound bound' orders, engine.context r.rootAlias r.entityName request = .ok c ∧
        c.lambdaPart = .ok (fragments, bound) ∧ c.joinPart bound = .ok bound' ∧ c.orderPart = .ok orders ∧
        t.builder = { r with
          plan := c.paged orders (c.joined ((c.selected r.plan).restrictAll fragments))
          runs := r.runs + 1 } := by
  intro t
  have hfailed {e : QueryError} {p : Plan} (h : t.outcome = .error e ∧ t.builder = { r with plan := p }) :
      (∃ e, t.outcome = .error e) ∧ t.builder.runs = r.runs :=
    ⟨⟨e, h.1⟩, by rw [h.2]⟩
  -- in the order of the stages, since a stage's result is what the next one starts from
  cases hc : engine.context r.rootAlias r.entityName request with
  | error e => exact .inl (hfailed (execute_of_context_error hc))
  | ok c =>
    cases hl : c.lambdaPart with
    | error e => exact .inl (hfailed (execute_of_lambda_error hc hl))
    | ok part =>
      cases hj : c.joinPart part.2 with
      | error e => exact .inl (hfailed (execute_of_join_error hc hl hj))
      | ok bound' =>
        cases ho : c.orderPart with
        | error e => exact .inl (hfailed (execute_of_order_error hc hl hj ho))
        | ok orders =>
          exact .inr ⟨c, part.1, part.2, bound', orders, rfl, hl, hj, ho, (execute_of_order_ok hc hl hj ho).2⟩

/-- What the stages of a request may leave in the plan: its projection and the parser's condition, and perhaps the
condition of the lambda filter and the joins of includes that are planned. -/
theorem plan_of_context (hc : engine.context r.rootAlias r.entityName request = .ok c) :
    let plan := (engine.execute r request).builder.plan
    ∃ fragments joins,
      (fragments = [] ∨ ∃ bound, c.lambdaPart = .ok (fragments, bound)) ∧
      (joins = [] ∨ c.includePlan.failure = none ∧ joins = c.includePlan.joins) ∧
      plan.select = c.parts.projection c.root c.rootAlias ∧
      plan.wheres = r.plan.wheres ++ c.parts.fragments ++ fragments ∧
      plan.joins = r.plan.joins ++ joins := by
  intro plan
  cases hl : c.lambdaPart with
  | error e =>
    have hplan : plan = c.selected r.plan := congrArg Recorder.plan (execute_of_lambda_error hc hl).2
    refine ⟨[], [], .inl rfl, .inl rfl, ?_⟩
    simp [hplan, Script.Context.selected]
  | ok part =>
    cases hj : c.joinPart part.2 with
    | error e =>
      have hplan : plan = (c.selected r.plan).restrictAll part.1 :=
        congrArg Recorder.plan (execute_of_join_error hc hl hj).2
      refine ⟨part.1, [], .inr ⟨part.2, rfl⟩, .inl rfl, ?_⟩
      simp [hplan, Script.Context.selected, Plan.restrictAll]
    | ok bound' =>
      refine ⟨part.1, c.includePlan.joins, .inr ⟨part.2, rfl⟩, .inr ⟨Script.Context.failure_of_joinPart hj, rfl⟩, ?_⟩
      cases ho : c.orderPart with
      | error e =>
        have hplan : plan = c.joined ((c.selected r.plan).restrictAll part.1) :=
          congrArg Recorder.plan (execute_of_order_error hc hl hj ho).2
        simp [hplan, Script.Context.joined, Script.Context.selected, Plan.restrictAll]
      | ok orders =>
        have hplan : plan = c.paged orders (c.joined ((c.selected r.plan).restrictAll part.1)) :=
          congrArg Recorder.plan (execute_of_order_ok hc hl hj ho).2
        simp [hplan, Script.Context.paged, Script.Context.joined, Script.Context.selected, Plan.restrictAll]

end Recorder

end RelQuery
