import RelQuery.Proofs.Bindings.Merge
import RelQuery.Proofs.Condition.Parameters
import RelQuery.Proofs.Script.Stages

/-!
# The origins of errors

A request fails at the first of its sites that raises an error. The origin of the error is settled by its kind, and one
kind may be raised at several sites, so that an origin does not always name its site.

* `Script.Context.failure?` : the site at which a request fails, and its error;
* `Site.Attributes` : the errors of each site, with their origins;
* `Engine.outcome_eq_error_iff` : a request fails exactly with the error of its site, and its origin is that of the
  table.
-/

namespace RelQuery

/-- The sites of a request at which it may fail, behind its checks and in front of its run. -/
inductive Site where
  /-- The lambda filter is resolved. -/
  | lambda
  /-- Its bindings are merged with the parser's. -/
  | lambdaBindings
  /-- The includes are planned. -/
  | includes
  /-- The bindings of their joins are merged with those before. -/
  | joinBindings
  /-- The order list of the root is read. -/
  | order
  deriving DecidableEq, Repr

/-- The errors of a site, each with the origin that it is attributed to. -/
inductive Site.Attributes : Site → QueryError → Origin → Prop where
  | lambdaText (text : String) (fault : Fault) : Attributes .lambda (.malformedExpression text fault) .lambda
  | lambdaTest (text : String) : Attributes .lambda (.malformedPredicate text) .lambda
  | lambdaRelation (entity property : String) : Attributes .lambda (.unknownRelation entity property .filter) .filter
  | lambdaConflict (name : String) : Attributes .lambdaBindings (.parameterConflict name) .lambda
  | includeRelation (entity property : String) : Attributes .includes (.unknownRelation entity property .joins) .joins
  | includeAlias (name : String) : Attributes .includes (.noFreeAlias name) .joins
  | includeEntity (name : String) : Attributes .includes (.unknownEntity name) .query
  | includeOrder (text : String) (fault : Fault) : Attributes .includes (.malformedExpression text fault) .lambda
  | joinConflict (name : String) : Attributes .joinBindings (.parameterConflict name) .lambda
  | rootOrder (text : String) (fault : Fault) : Attributes .order (.malformedExpression text fault) .lambda

/-- The table lists origins as errors have them. -/
theorem Site.Attributes.origin_eq {s : Site} {e : QueryError} {o : Origin} (h : s.Attributes e o) : e.origin = o := by
  cases h <;> rfl

variable {e : QueryError}

/-! ## Orders -/

namespace Order

theorem exists_of_ofEntry_error {source entry : List Char} (h : ofEntry source entry = .error e) :
    ∃ fault, e = .malformedExpression (String.ofList source) fault := by
  unfold ofEntry at h
  dsimp only at h
  repeat' split at h
  all_goals cases h
  all_goals exact ⟨_, rfl⟩

theorem exists_of_ofEntries_error {source : List Char} : ∀ {entries : List (List Char)},
    ofEntries source entries = .error e → ∃ fault, e = .malformedExpression (String.ofList source) fault
  | [], h => by cases h
  | entry :: entries, h => by
    rw [ofEntries] at h
    split at h
    next e' he =>
      cases h
      exact exists_of_ofEntry_error he
    next =>
      split at h
      next e' he =>
        cases h
        exact exists_of_ofEntries_error he
      next => cases h

/-- A refused order list is a malformed expression. -/
theorem exists_of_ofText_error {noOrder text : String} (h : ofText noOrder text = .error e) :
    ∃ source fault, e = .malformedExpression source fault := by
  unfold ofText at h
  dsimp only at h
  split at h
  · cases h
  · exact ⟨_, exists_of_ofEntries_error h⟩

end Order

/-! ## Lambda filters -/

theorem LambdaText.exists_of_ofText_error {raw : String} (h : ofText raw = .error e) :
    ∃ fault, e = .malformedExpression raw fault := by
  unfold ofText at h
  dsimp only at h
  repeat' split at h
  all_goals cases h
  all_goals exact ⟨_, rfl⟩

namespace Condition

variable {d : Dialect} {source : String}

mutual

theorem attributes_of_ofPiece_error : ∀ (piece : Piece) {ps : Parameters},
    ofPiece d source ps piece = .error e → (∃ name, e = .parameterConflict name) ∨ Site.lambda.Attributes e .lambda
  | .span text, ps, h => by
    rw [ofPiece, bindTest] at h
    split at h
    next =>
      cases h
      exact .inr (.lambdaTest _)
    next =>
      rw [bindValue] at h
      split at h
      next =>
        cases h
        exact .inl ⟨_, rfl⟩
      next => cases h
  | .link _, _, h => by cases h
  | .fault fault, _, h => by
    cases h
    exact .inr (.lambdaText source fault)
  | .group pieces, ps, h => by
    rw [ofPiece] at h
    split at h
    next => cases h
    next he =>
      cases h
      exact attributes_of_ofPieces_error pieces he

/-- Reading an outline fails for its text or for a name that is taken. -/
theorem attributes_of_ofPieces_error : ∀ (pieces : List Piece) {ps : Parameters},
    ofPieces d source ps pieces = .error e →
      (∃ name, e = .parameterConflict name) ∨ Site.lambda.Attributes e .lambda
  | [], _, h => by cases h
  | piece :: pieces, ps, h => by
    rw [ofPieces] at h
    split at h
    next he =>
      cases h
      exact attributes_of_ofPiece_error piece he
    next =>
      split at h
      next he =>
        cases h
        exact attributes_of_ofPieces_error pieces he
      next => cases h

end

/-- A condition is refused for its text only: no name is taken. -/
theorem attributes_of_compile_error (h : compile d source = .error e) : Site.lambda.Attributes e .lambda := by
  unfold compile at h
  split at h
  next e' he =>
    cases h
    rcases attributes_of_ofPieces_error _ he with ⟨name, rfl⟩ | ha
    · exact absurd he (ofPieces_ne_conflict source name _ (Parameters.numbered_empty d))
    · exact ha
  next =>
    split at h <;> cases h
    exact .lambdaText source _

end Condition

/-- A missing relation is blamed on the caller. -/
theorem Entity.eq_of_requireRelation_error {parent : Entity} {property : String} {origin : Origin}
    (h : parent.requireRelation property origin = .error e) : e = .unknownRelation parent.name property origin := by
  unfold requireRelation at h
  split at h <;> cases h
  rfl

theorem LambdaFilter.attributes_of_ofText_error {d : Dialect} {target raw : String} {root : Entity}
    (h : ofText d target root raw = .error e) : Site.lambda.Attributes e e.origin := by
  unfold ofText at h
  split at h
  next he =>
    cases h
    obtain ⟨fault, rfl⟩ := LambdaText.exists_of_ofText_error he
    exact .lambdaText raw fault
  next text _ =>
    split at h
    next he =>
      cases h
      obtain rfl := Entity.eq_of_requireRelation_error he
      exact .lambdaRelation root.name text.property
    next =>
      split at h
      next he =>
        cases h
        have ha := Condition.attributes_of_compile_error he
        exact ha.origin_eq.symm ▸ ha
      next => cases h

/-- A lambda filter is refused for its text, or for a relation that its root does not have. -/
theorem Filter.attributes_of_resolve_error {d : Dialect} {target : String} {root : Entity} {filter : Option Filter}
    (h : resolve d target root filter = .error e) : Site.lambda.Attributes e e.origin := by
  unfold resolve at h
  split at h
  · cases h
  · split at h
    next he =>
      cases h
      exact LambdaFilter.attributes_of_ofText_error he
    next => cases h

/-! ## Bindings -/

namespace Bindings

theorem exists_of_merge_error {b other : Bindings} (h : b.merge other = .error e) :
    ∃ name, e = .parameterConflict name := by
  rcases merge_cases b other with ⟨merged, hm, _⟩ | ⟨name, _, _, hm, _⟩
  · cases hm.symm.trans h
  · cases hm.symm.trans h
    exact ⟨name, rfl⟩

theorem exists_of_mergeAll_error {bs : List Bindings} {b : Bindings} (h : b.mergeAll bs = .error e) :
    ∃ name, e = .parameterConflict name := by
  rcases mergeAll_cases bs b with ⟨merged, hm, _⟩ | ⟨name, _, _, hm, _⟩
  · cases hm.symm.trans h
  · cases hm.symm.trans h
    exact ⟨name, rfl⟩

end Bindings

/-! ## Includes -/

namespace IncludePlan

variable {d : Dialect}

theorem attributes_of_orders_error {clause : IncludeClause} {aliasName : String}
    (h : clause.orders d aliasName = .error e) : Site.includes.Attributes e e.origin := by
  unfold IncludeClause.orders at h
  split at h
  · cases h
  · obtain ⟨text, fault, rfl⟩ := Order.exists_of_ofText_error h
    exact .includeOrder text fault

mutual

theorem attributes_of_add_failure (lookup : String → Option Entity) : ∀ (tree : Include) {parentAlias : String}
    {parent : Entity} {p : IncludePlan}, p.failure = none →
      (add lookup d parentAlias parent p tree).failure = some e → Site.includes.Attributes e e.origin
  | .node clause children, parentAlias, parent, p, hp, h => by
    rw [add] at h
    split at h
    next he =>
      cases h
      obtain rfl := Entity.eq_of_requireRelation_error he
      exact .includeRelation parent.name clause.property
    next relation _ =>
      split at h
      next =>
        cases h
        exact .includeAlias clause.property
      next aliasName aliases _ =>
        dsimp only at h
        split at h
        next he =>
          cases h
          exact attributes_of_orders_error he
        next orders _ =>
          split at h
          next => cases hp.symm.trans h
          next =>
            split at h
            next =>
              cases h
              exact .includeEntity relation.target
            next =>
              refine attributes_of_addAll_failure lookup children ?_ h
              exact hp

/-- Planning a forest fails for a relation, an alias, an entity or an order list. -/
theorem attributes_of_addAll_failure (lookup : String → Option Entity) : ∀ (forest : List Include)
    {parentAlias : String} {parent : Entity} {p : IncludePlan}, p.failure = none →
      (addAll lookup d parentAlias parent p forest).failure = some e → Site.includes.Attributes e e.origin
  | [], _, _, _, hp, h => by
    rw [addAll] at h
    cases hp.symm.trans h
  | tree :: forest, parentAlias, parent, p, hp, h => by
    rw [addAll] at h
    split at h
    next => exact attributes_of_add_failure lookup tree hp h
    next hf => exact attributes_of_addAll_failure lookup forest hf h

end

end IncludePlan

/-! ## The site of a failure -/

namespace Script.Context

/-- The first site of a request that raises an error, with the error. -/
def failure? (c : Context) : Option (Site × QueryError) :=
  match Filter.resolve c.engine.dialect c.rootAlias c.root c.parts.filter with
  | .error e => some (.lambda, e)
  | .ok _ =>
    match c.lambdaPart with
    | .error e => some (.lambdaBindings, e)
    | .ok (_, bound) =>
      match c.includePlan.failure with
      | some e => some (.includes, e)
      | none =>
        match bound.mergeAll (c.includePlan.joins.map Join.bindings) with
        | .error e => some (.joinBindings, e)
        | .ok _ =>
          match c.orderPart with
          | .error e => some (.order, e)
          | .ok _ => none

theorem attributes_of_lambdaPart_error {c : Context} (h : c.lambdaPart = .error e)
    (hl : ∃ l, Filter.resolve c.engine.dialect c.rootAlias c.root c.parts.filter = .ok l) :
    Site.lambdaBindings.Attributes e e.origin := by
  obtain ⟨l, hl⟩ := hl
  rw [lambdaPart, hl] at h
  cases l with
  | none => cases h
  | some l =>
    dsimp only at h
    split at h
    next he =>
      cases h
      obtain ⟨name, rfl⟩ := Bindings.exists_of_merge_error he
      exact .lambdaConflict name
    next => cases h

/-- The error of a site is one of those listed for it. -/
theorem attributes_of_failure? {c : Context} {s : Site} (h : c.failure? = some (s, e)) :
    s.Attributes e e.origin := by
  unfold failure? at h
  split at h
  next he =>
    cases h
    exact Filter.attributes_of_resolve_error he
  next hl =>
    split at h
    next he =>
      cases h
      exact attributes_of_lambdaPart_error he ⟨_, hl⟩
    next =>
      split at h
      next hf =>
        cases h
        exact IncludePlan.attributes_of_addAll_failure _ c.parts.includes rfl hf
      next =>
        split at h
        next he =>
          cases h
          obtain ⟨name, rfl⟩ := Bindings.exists_of_mergeAll_error he
          exact .joinConflict name
        next =>
          split at h
          next he =>
            cases h
            obtain ⟨text, fault, rfl⟩ := Order.exists_of_ofText_error he
            exact .rootOrder text fault
          next => cases h

end Script.Context

section

variable {σ ρ : Type} [QueryBuilder σ ρ] {engine : Engine} {b : σ} {request : Request} {c : Script.Context}

/-- The outcome of a request is that of its first failing site, or that of the run. -/
theorem Engine.outcome_of_context
    (hc : engine.context (QueryBuilder.rootAlias b) (QueryBuilder.entityName b) request = .ok c) :
    (engine.execute b request).outcome =
      match c.failure? with
      | some (_, e) => .error e
      | none => (QueryBuilder.run (QueryBuilder.calls b c.projection.calls) c.counted).1 := by
  unfold Script.Context.failure?
  cases hr : Filter.resolve c.engine.dialect c.rootAlias c.root c.parts.filter with
  | error e =>
    have hl : c.lambdaPart = .error e := by rw [Script.Context.lambdaPart, hr]
    exact outcome_of_lambda_error hc hl
  | ok l =>
    cases hl : c.lambdaPart with
    | error e => exact outcome_of_lambda_error hc hl
    | ok part =>
      cases hf : c.includePlan.failure with
      | some e =>
        have hj : c.joinPart part.2 = .error e := by rw [Script.Context.joinPart, hf]
        exact outcome_of_join_error hc hl hj
      | none =>
        have hj : c.joinPart part.2 = part.2.mergeAll (c.includePlan.joins.map Join.bindings) := by
          rw [Script.Context.joinPart, hf]
        dsimp only
        cases hm : part.2.mergeAll (c.includePlan.joins.map Join.bindings) with
        | error e => exact outcome_of_join_error hc hl (hj.trans hm)
        | ok bound' =>
          dsimp only
          cases ho : c.orderPart with
          | error e => exact outcome_of_order_error hc hl (hj.trans hm) ho
          | ok orders =>
            have hd := Script.Context.does_projection (Script.Context.does_lambda_of_ok hl
              (Script.Context.does_joins_of_ok (hj.trans hm) (Script.Context.does_orders_of_ok ho)))
            rw [hd.calls]
            obtain ⟨h, _⟩ := execute_of_does (Script.does_ofRequest_of_ok hc hd)
            rw [h, Transcript.ofEnding, Transcript.ofRun_outcome]

/-- **A request fails** exactly with the error of its context, of its first failing site, or of its run. The errors of a
site are those of the table, and so are their origins: a lambda filter is blamed on the filter or on the lambda. Planning
the includes is blamed on them for an unknown relation or for want of an alias, but on the query for an unknown entity,
and on the lambda for an order list. The lambda is blamed for the bindings of the joins and for the order list of the
root, too. -/
theorem Engine.outcome_eq_error_iff (engine : Engine) (b : σ) (request : Request) :
    let t : Transcript σ ρ := engine.execute b request
    let context := engine.context (QueryBuilder.rootAlias b) (QueryBuilder.entityName b) request
    (∀ e, t.outcome = .error e ↔ context = .error e ∨ ∃ c, context = .ok c ∧
      ((∃ s, c.failure? = some (s, e)) ∨ c.failure? = none ∧
        (QueryBuilder.run (QueryBuilder.calls b c.projection.calls) c.counted).1 = .error e)) ∧
    ∀ c s e, context = .ok c → c.failure? = some (s, e) → s.Attributes e e.origin := by
  intro t context
  refine ⟨fun e => ?_, fun c s e _ h => Script.Context.attributes_of_failure? h⟩
  cases hc : context with
  | error e' =>
    have ht : t.outcome = .error e' := outcome_of_context_error hc
    rw [ht]
    simp
  | ok c =>
    have ht : t.outcome = _ := outcome_of_context hc
    rw [ht]
    cases hf : c.failure? with
    | none => simp [hf]
    | some failure =>
      obtain ⟨s, e'⟩ := failure
      simp [hf]

end

/-- An order list is not attributed to the query. -/
theorem Engine.outcome_eq_error_iff_order :
    let post : Entity := { name := "Post", table := "post" }
    let engine : Engine := {
      lookup := fun name => if name = "Post" then some post else none
      parse := fun _ _ => .ok { order := "title sideways" } }
    let r : Recorder Nat := { rootAlias := "post", entity := some "Post" }
    let request : Request := { orderBy := some "title sideways" }
    let e : QueryError := .malformedExpression "title sideways" (.unknownDirection "sideways")
    (engine.execute r request).outcome = .error e ∧ Site.order.Attributes e .lambda := by
  intro post engine r request e
  let c : Script.Context := {
    engine, rootAlias := "post", root := post, parts := { order := "title sideways" }, skip := 0, top := none,
    counted := false }
  obtain ⟨hfails, hattributes⟩ := outcome_eq_error_iff engine r request
  have hc : engine.context "post" "Post" request = .ok c := rfl
  have hf : c.failure? = some (.order, e) := by decide +kernel
  exact ⟨(hfails e).2 (.inr ⟨c, hc, .inl ⟨.order, hf⟩⟩), hattributes c .order e hc hf⟩

/-- Neither all errors of planning, nor those of the joins' bindings are of the includes' origin, nor are those of the
root's order of the query's. -/
theorem Engine.not_forall_origin_eq :
    let Blamed (s : Site) (o : Origin) : Prop := ∀ (engine : Engine) (r : Recorder Nat) (request : Request) c e,
      engine.context r.rootAlias r.entityName request = .ok c → c.failure? = some (s, e) →
        (engine.execute r request).outcome = .error e → e.origin = o
    ¬Blamed .includes .joins ∧ ¬Blamed .joinBindings .joins ∧ ¬Blamed .order .query := by
  intro Blamed
  let tags : Relation := ⟨"tags", "Post", "Tag", "tag", "postId", "id"⟩
  let post : Entity := { name := "Post", table := "post", relations := [tags] }
  let engine (parts : QueryParts) : Engine := {
    lookup := fun name => if name = "Post" then some post else none
    parse := fun _ _ => .ok parts }
  let r : Recorder Nat := { rootAlias := "post", entity := some "Post" }
  let request : Request := { expand := some "tags" }
  let context (parts : QueryParts) : Script.Context := {
    engine := engine parts, rootAlias := "post", root := post, parts, skip := 0, top := none, counted := false }
  -- each site fails for one answer of the parser
  have hrefute {s : Site} {o : Origin} {parts : QueryParts} {e : QueryError}
      (hf : (context parts).failure? = some (s, e)) (ho : e.origin ≠ o) : ¬Blamed s o := by
    intro h
    have hc : (engine parts).context "post" "Post" request = .ok (context parts) := rfl
    have ht := outcome_of_context (b := r) hc
    rw [hf] at ht
    exact ho (h (engine parts) r request (context parts) e hc hf ht)
  have hentity : (context { includes := [.node { property := "tags" } [.node { property := "posts" } []]] }).failure? =
      some (.includes, .unknownEntity "Tag") := by decide +kernel
  have hconflict : (context {
      bindings := ⟨[("p", "x")], by decide⟩
      includes := [.node { property := "tags", bindings := ⟨[("p", "y")], by decide⟩ } []] }).failure? =
      some (.joinBindings, .parameterConflict "p") := by decide +kernel
  have horder : (context { order := "title sideways" }).failure? =
      some (.order, .malformedExpression "title sideways" (.unknownDirection "sideways")) := by decide +kernel
  exact ⟨hrefute hentity (by decide), hrefute hconflict (by decide), hrefute horder (by decide)⟩

end RelQuery
