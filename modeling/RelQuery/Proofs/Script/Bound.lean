import RelQuery.Proofs.Bindings.Merge
import RelQuery.Proofs.Script.Stages

/-!
# The bindings of an executed request

The stages of a request merge its bindings as they go, while the plan keeps them with its conditions and its joins. Both
come to the same: the parameters of a plan that is run are what the stages have merged, and a request that would bind a
name twice is not run.

* `Script.Context.sources` : the bindings of the parser, of the lambda filter and of the joins;
* `Recorder.boundParameters_of_run` : the parameters of a plan that was run are what is new in each source, in order.
-/

namespace RelQuery

open Bindings

/-- The parser's condition binds what the parser binds, also if it is left out since it binds nothing. -/
theorem QueryParts.mergeAll_fragments (q : QueryParts) :
    Bindings.empty.mergeAll (q.fragments.map Fragment.bindings) = .ok q.bindings := by
  rw [fragments]
  split
  next h =>
    have he : q.bindings = .empty := Bindings.ext (List.isEmpty_iff.1 h)
    rw [he]
    rfl
  next =>
    show Bindings.empty.mergeAll [q.bindings] = _
    rw [mergeAll, merge_empty_left]
    rfl

namespace Script.Context

variable {c : Context} {fragments : List Fragment} {bound bound' : Bindings}

/-- What the lambda filter binds, if it is resolved. -/
def lambdaBindings (c : Context) : List Bindings :=
  match Filter.resolve c.engine.dialect c.rootAlias c.root c.parts.filter with
  | .error _ => []
  | .ok l => l.toList.map LambdaFilter.bindings

/-- The bindings of the parser, of the lambda filter and of the planned joins. -/
def sources (c : Context) : List Bindings :=
  c.parts.bindings :: (c.lambdaBindings ++ c.includePlan.joins.map Join.bindings)

/-- A lambda filter that is resolved, or none, is merged behind the parser's bindings. -/
theorem resolve_of_lambdaPart (h : c.lambdaPart = .ok (fragments, bound)) :
    ∃ lambda, Filter.resolve c.engine.dialect c.rootAlias c.root c.parts.filter = .ok lambda ∧
      fragments = lambda.toList.map (fun l => ⟨l.fragment c.engine.dialect, l.bindings⟩) ∧
      c.parts.bindings.mergeAll (lambda.toList.map LambdaFilter.bindings) = .ok bound := by
  rw [lambdaPart] at h
  cases hr : Filter.resolve c.engine.dialect c.rootAlias c.root c.parts.filter with
  | error e => simp [hr] at h
  | ok lambda =>
    rw [hr] at h
    cases lambda with
    | none =>
      obtain ⟨rfl, rfl⟩ := by simpa using h
      exact ⟨none, rfl, rfl, rfl⟩
    | some l =>
      cases hm : c.parts.bindings.merge l.bindings with
      | error e => simp [hm] at h
      | ok both =>
        obtain ⟨rfl, rfl⟩ := by simpa [hm] using h
        exact ⟨some l, rfl, rfl, by simp [mergeAll, hm]⟩

/-- The lambda filter's conditions bind what the filter binds. -/
theorem mergeAll_of_lambdaPart (h : c.lambdaPart = .ok (fragments, bound)) :
    fragments.map Fragment.bindings = c.lambdaBindings ∧ c.parts.bindings.mergeAll c.lambdaBindings = .ok bound := by
  obtain ⟨lambda, hr, rfl, hm⟩ := resolve_of_lambdaPart h
  rw [lambdaBindings, hr]
  exact ⟨List.map_map, hm⟩

theorem mergeAll_of_joinPart (h : c.joinPart bound = .ok bound') :
    bound.mergeAll (c.includePlan.joins.map Join.bindings) = .ok bound' := by
  have hf := failure_of_joinPart h
  rwa [joinPart, hf] at h

/-- The stages merge all sources, each behind those in front of it. -/
theorem mergeAll_sources (hl : c.lambdaPart = .ok (fragments, bound)) (hj : c.joinPart bound = .ok bound') :
    c.parts.bindings.mergeAll (c.lambdaBindings ++ c.includePlan.joins.map Join.bindings) = .ok bound' := by
  rw [mergeAll_append, (mergeAll_of_lambdaPart hl).2]
  exact mergeAll_of_joinPart hj

/-- The parameters of the plan that the stages leave on an empty one are what the stages have merged. -/
theorem boundParameters_paged (orders : List Order) (hl : c.lambdaPart = .ok (fragments, bound))
    (hj : c.joinPart bound = .ok bound') :
    (c.paged orders (c.joined ((c.selected {}).restrictAll fragments))).boundParameters = .ok bound' := by
  show Bindings.empty.mergeAll ((c.parts.fragments ++ fragments).map Fragment.bindings ++
    c.includePlan.joins.map Join.bindings) = _
  rw [List.map_append, List.append_assoc, mergeAll_append, c.parts.mergeAll_fragments, (mergeAll_of_lambdaPart hl).1]
  exact mergeAll_sources hl hj

end Script.Context

namespace Recorder

variable {ρ : Type}

/-- **No shadowed parameter is executed.** If a request is run on a recorder with an empty plan, then the parameters of
its plan can be merged: they are the bindings of the parser, then what is new in the lambda filter, then what is new in
each join, and they bind every name as its sources do. If two sources bind a name to different values, the request
fails without a run. -/
theorem boundParameters_of_run (engine : Engine) (r : Recorder ρ) (request : Request) (hr : r.plan = {}) :
    let t := engine.execute r request
    (t.builder.runs ≠ r.runs → ∃ c lambda bound,
      engine.context r.rootAlias r.entityName request = .ok c ∧
      Filter.resolve c.engine.dialect c.rootAlias c.root c.parts.filter = .ok lambda ∧
      t.builder.plan.joins = c.includePlan.joins ∧
      t.builder.plan.boundParameters = .ok bound ∧
      bound.entries = c.parts.bindings.entries ++
        gather c.parts.bindings.names
          (lambda.toList.map LambdaFilter.bindings ++ t.builder.plan.joins.map Join.bindings) ∧
      ∀ source ∈ c.sources, ∀ name value, source.get? name = some value → bound.get? name = some value) ∧
    ∀ c, engine.context r.rootAlias r.entityName request = .ok c →
      (∃ source ∈ c.sources, ∃ source' ∈ c.sources, ∃ name value value',
        source.get? name = some value ∧ source'.get? name = some value' ∧ value ≠ value') →
      (∃ e, t.outcome = .error e) ∧ t.builder.runs = r.runs := by
  intro t
  -- a request that is run has passed all stages, and they have merged all sources
  rcases execute_cases engine r request with hfailed | ⟨c, fragments, bound, bound', orders, hc, hl, hj, _, hb⟩
  · exact ⟨fun hrun => absurd hfailed.2 hrun, fun _ _ _ => hfailed⟩
  have hsources := Script.Context.mergeAll_sources hl hj
  constructor
  · intro _
    obtain ⟨lambda, hlambda, -, -⟩ := Script.Context.resolve_of_lambdaPart hl
    have hbindings : c.lambdaBindings = lambda.toList.map LambdaFilter.bindings := by
      rw [Script.Context.lambdaBindings, hlambda]
    have hjoins : t.builder.plan.joins = c.includePlan.joins := by
      rw [hb, hr]
      exact List.nil_append _
    refine ⟨c, lambda, bound', hc, hlambda, hjoins, ?_, ?_, fun source hs name value hv =>
      get?_of_mergeAll hv hsources hs⟩
    · rw [hb, hr]
      exact Script.Context.boundParameters_paged orders hl hj
    · rw [hjoins, ← hbindings]
      exact (mergeAll_eq_ok_iff.1 hsources).2
  · rintro c' hc' ⟨source, hs, source', hs', name, value, value', hv, hv', hne⟩
    obtain rfl : c = c' := by simpa [hc] using hc'
    have h := get?_of_mergeAll hv hsources hs
    have h' := get?_of_mergeAll hv' hsources hs'
    exact absurd (Option.some.inj (h.symm.trans h')) hne

/-- The join binds a name of the parser and one of the lambda filter, to the same values, or one of them to another. -/
theorem boundParameters_of_run_tags :
    let tags : Relation := ⟨"tags", "Post", "Tag", "tags", "post_id", "id"⟩
    let post : Entity := { name := "Post", table := "posts", relations := [tags] }
    let clause (tag : String) : IncludeClause := {
      property := "tags", bindings := ⟨[("param_0", tag), ("p", "x"), ("q", "y")], by simp⟩ }
    let engine (value tag : String) : Engine := {
      lookup := fun name => if name = "post" then some post else none
      parse := fun _ _ => .ok {
        condition := "post.title = :p"
        bindings := ⟨[("p", value)], by simp⟩
        includes := [.node (clause tag) []]
        filter := some (.leaf "tags/any(t: t/name eq 'red')") } }
    let r : Recorder Nat := { rootAlias := "post" }
    let t (value tag : String) := (engine value tag).execute r { expand := some "tags" }
    ((t "x" "red").builder.runs = 1 ∧ (t "x" "red").builder.plan.boundParameters =
        .ok ⟨[("p", "x"), ("param_0", "red"), ("q", "y")], by decide⟩) ∧
      ((∃ e, (t "z" "red").outcome = .error e) ∧ (t "z" "red").builder.runs = 0) ∧
      (∃ e, (t "x" "blue").outcome = .error e) ∧ (t "x" "blue").builder.runs = 0 := by
  intro tags post clause engine r t
  let c (value tag : String) : Script.Context := {
    engine := engine value tag, rootAlias := "post", root := post, skip := 0, top := none, counted := false
    parts := {
      condition := "post.title = :p"
      bindings := ⟨[("p", value)], by simp⟩
      includes := [.node (clause tag) []]
      filter := some (.leaf "tags/any(t: t/name eq 'red')") } }
  let red : Bindings := ⟨[("param_0", "red")], by decide⟩
  have hc (value tag : String) : (engine value tag).context "post" "post" { expand := some "tags" } =
    .ok (c value tag) := rfl
  -- the filter and the joins do not depend on what the parser binds
  have hlambda (value tag : String) : (c value tag).lambdaBindings = [red] := by
    have h : (c "" "").lambdaBindings = [red] := by decide +kernel
    exact h
  have hjoins (value tag : String) : (c value tag).includePlan.joins.map Join.bindings = [(clause tag).bindings] := rfl
  have hsources (value tag : String) :
      (c value tag).sources = [⟨[("p", value)], by simp⟩, red, (clause tag).bindings] := by
    rw [Script.Context.sources, hjoins, hlambda]
    rfl
  have hrun : (t "x" "red").builder.runs = 1 := by decide +kernel
  obtain ⟨c', lambda, bound, hc', hl, hplanned, hbound, he, -⟩ :=
    (boundParameters_of_run (engine "x" "red") r { expand := some "tags" } rfl).1 (by rw [hrun]; decide)
  obtain rfl : c "x" "red" = c' := Except.ok.inj ((hc "x" "red").symm.trans hc')
  have hresolved : lambda.toList.map LambdaFilter.bindings = [red] := by
    rw [← hlambda "x" "red", Script.Context.lambdaBindings, hl]
  rw [hplanned, hjoins, hresolved] at he
  have hentries : bound = ⟨[("p", "x"), ("param_0", "red"), ("q", "y")], by decide⟩ :=
    Bindings.ext (he.trans (by decide))
  refine ⟨⟨hrun, hentries ▸ hbound⟩, ?_, ?_⟩
  · refine (boundParameters_of_run (engine "z" "red") r { expand := some "tags" } rfl).2 (c "z" "red") (hc _ _) ?_
    rw [hsources]
    exact ⟨_, List.mem_cons_self, (clause "red").bindings, by simp, "p", "z", "x", rfl, rfl, by decide⟩
  · refine (boundParameters_of_run (engine "x" "blue") r { expand := some "tags" } rfl).2 (c "x" "blue") (hc _ _) ?_
    rw [hsources]
    exact ⟨red, by simp, (clause "blue").bindings, by simp, "param_0", "red", "blue", rfl, rfl, by decide⟩

end Recorder

end RelQuery
