import RelQuery.Proofs.Include.Joins
import RelQuery.Proofs.Script.Play
import Mathlib.Data.List.Flatten
import Mathlib.Data.List.Forall2

/-!
# Passes over the includes of a query

The includes of a query may be resolved in several passes, on the same aliases and the same builder. A pass claims its
aliases one by one while it plans, and the builder takes its joins once the whole forest is planned. So a pass that
fails leaves the builder as it was, but the aliases that it has claimed until then stay claimed.

* `IncludeState.aliases_step`, `IncludeState.builder_step` : what one pass leaves;
* `IncludeState.aliases_run`, `IncludeState.builder_run` : what passes leave, pass by pass;
* `IncludeState.run_ofRoot` : both, for a new query, and when the aliases are those of the builder's joins.
-/

namespace RelQuery

/-- One pass: a forest of includes of an entity, joined on its alias. -/
structure IncludePass where
  lookup : String → Option Entity
  dialect : Dialect := {}
  parentAlias : String
  parent : Entity
  forest : List Include

namespace IncludePass

/-- The plan of a pass behind the aliases claimed so far. -/
def plan (pass : IncludePass) (aliases : Aliases) : IncludePlan :=
  .ofForest pass.lookup pass.dialect pass.parentAlias pass.parent aliases pass.forest

/-- The plans of passes, each behind the aliases that are claimed once those in front of it are done. -/
def plans : Aliases → List IncludePass → List IncludePlan
  | _, [] => []
  | aliases, pass :: passes => pass.plan aliases :: plans (pass.plan aliases).aliases passes

/-- Each pass that does not fail plans its own forest. -/
theorem realizes_plans : ∀ (passes : List IncludePass) (aliases : Aliases),
    List.Forall₂ (fun pass p => p.failure = none → p.Realizes pass.dialect pass.parentAlias pass.forest) passes
      (plans aliases passes)
  | [], _ => .nil
  | pass :: passes, aliases => .cons IncludePlan.realizes_ofForest (realizes_plans passes (pass.plan aliases).aliases)

end IncludePass

/-- A query that passes add to: the aliases claimed for it and its builder. -/
structure IncludeState (σ : Type) where
  aliases : Aliases
  builder : σ

namespace IncludeState

variable {σ ρ : Type} [QueryBuilder σ ρ]

/-- One pass over a query. -/
def step (s : IncludeState σ) (pass : IncludePass) : IncludeState σ where
  aliases := (pass.plan s.aliases).aliases
  builder := (QueryBuilder.takePlan s.builder (pass.plan s.aliases)).2

/-- Passes over a query, one behind the other. -/
def run (s : IncludeState σ) (passes : List IncludePass) : IncludeState σ :=
  passes.foldl step s

/-- A new query: the root alias is claimed, and nothing is recorded. -/
def ofRoot (rootAlias : String) (r : Recorder ρ) : IncludeState (Recorder ρ) where
  aliases := .ofRoot rootAlias
  builder := { r with plan := {} }

end IncludeState

/-! ## What is taken of plans -/

namespace IncludePlan

/-- The plans that did not fail. -/
def succeeded (plans : List IncludePlan) : List IncludePlan :=
  plans.filter fun p => p.failure.isNone

theorem succeeded_cons_of_none {p : IncludePlan} (h : p.failure = none) (plans : List IncludePlan) :
    succeeded (p :: plans) = p :: succeeded plans :=
  List.filter_cons_of_pos (by rw [h]; rfl)

theorem succeeded_cons_of_some {p : IncludePlan} {e : QueryError} (h : p.failure = some e) (plans : List IncludePlan) :
    succeeded (p :: plans) = succeeded plans :=
  List.filter_cons_of_neg (by rw [h]; exact Bool.false_ne_true)

/-- The joins that are taken are some of those planned, in the same order. -/
theorem joins_succeeded_sublist (plans : List IncludePlan) :
    ((succeeded plans).flatMap joins).Sublist (plans.flatMap joins) :=
  List.filter_sublist.flatMap joins

/-- All joins that are planned are taken exactly if those plans that failed hold none. -/
theorem joins_succeeded_eq_iff : ∀ plans : List IncludePlan,
    (succeeded plans).flatMap joins = plans.flatMap joins ↔ ∀ p ∈ plans, p.failure ≠ none → p.joins = []
  | [] => by simp [succeeded]
  | p :: plans => by
    have ih := joins_succeeded_eq_iff plans
    rw [List.forall_mem_cons]
    cases hf : p.failure with
    | none =>
      rw [succeeded_cons_of_none hf, List.flatMap_cons, List.flatMap_cons, List.append_cancel_left_eq, ih]
      simp
    | some e =>
      rw [succeeded_cons_of_some hf, List.flatMap_cons, ← ih]
      constructor
      · intro h
        have hle := (joins_succeeded_sublist plans).length_le
        have hlength := congrArg List.length h
        rw [List.length_append] at hlength
        have hnil : p.joins = [] := List.eq_nil_of_length_eq_zero (by omega)
        rw [hnil] at h
        exact ⟨fun _ => hnil, h⟩
      · rintro ⟨hnil, h⟩
        rw [hnil (by simp), h]
        rfl

end IncludePlan

/-- The plan of a query behind those plans that did not fail. -/
def Plan.takeAll (p : Plan) (plans : List IncludePlan) : Plan :=
  { p with
    joins := p.joins ++ (IncludePlan.succeeded plans).flatMap IncludePlan.joins
    orders := p.orders ++ (IncludePlan.succeeded plans).flatMap IncludePlan.orders }

theorem Plan.takeAll_nil (p : Plan) : p.takeAll [] = p := by
  simp [takeAll, IncludePlan.succeeded]

theorem Plan.takeAll_cons (p : Plan) (q : IncludePlan) (plans : List IncludePlan) :
    p.takeAll (q :: plans) = (p.takeAll [q]).takeAll plans := by
  simp only [takeAll, IncludePlan.succeeded, List.append_assoc, ← List.flatMap_append, ← List.filter_append]
  rfl

/-! ## Passes -/

namespace IncludeState

variable {ρ : Type}

/-- A pass claims one alias for each join that it plans, whether it fails or not. -/
theorem aliases_step {σ : Type} [QueryBuilder σ ρ] (s : IncludeState σ) (pass : IncludePass) :
    (s.step pass).aliases.used = s.aliases.used ++ (pass.plan s.aliases).joins.map Join.aliasName := by
  obtain ⟨js, hj, ha⟩ :=
    (IncludePlan.walked_ofForest pass.lookup pass.dialect pass.parentAlias pass.parent s.aliases pass.forest).grows
  obtain rfl : (pass.plan s.aliases).joins = js := hj
  exact ha

/-- A pass hands over all of its plan, or nothing if it fails. -/
theorem builder_step (s : IncludeState (Recorder ρ)) (pass : IncludePass) :
    (s.step pass).builder = { s.builder with plan := s.builder.plan.takeAll [pass.plan s.aliases] } := by
  rw [step, QueryBuilder.takePlan]
  split
  next e he =>
    rw [Plan.takeAll, IncludePlan.succeeded_cons_of_some he]
    simp [IncludePlan.succeeded]
  next he =>
    rw [Recorder.calls_eq, IncludePlan.calls, Plan.addAll_append, Plan.addAll_join, Plan.addAll_order, Plan.takeAll,
      IncludePlan.succeeded_cons_of_none he]
    simp [IncludePlan.succeeded]

theorem aliases_run {σ : Type} [QueryBuilder σ ρ] : ∀ (passes : List IncludePass) (s : IncludeState σ),
    (s.run passes).aliases.used =
      s.aliases.used ++ ((IncludePass.plans s.aliases passes).flatMap IncludePlan.joins).map Join.aliasName
  | [], _ => (List.append_nil _).symm
  | pass :: passes, s => by
    have ih := aliases_run passes (s.step pass)
    rw [aliases_step, List.append_assoc, ← List.map_append] at ih
    exact ih

theorem builder_run : ∀ (passes : List IncludePass) (s : IncludeState (Recorder ρ)),
    (s.run passes).builder =
      { s.builder with plan := s.builder.plan.takeAll (IncludePass.plans s.aliases passes) }
  | [], s => by rw [IncludePass.plans, Plan.takeAll_nil]; rfl
  | pass :: passes, s => by
    have ih := builder_run passes (s.step pass)
    rw [builder_step] at ih
    rw [IncludePass.plans, Plan.takeAll_cons]
    exact ih

/-- **Passes over a new query** claim, behind the root alias and pass by pass, one alias for each join that they plan,
and no alias twice. The builder holds the joins and the orders of the passes that did not fail, in order, and nothing
else: one join and one order list for each include of their forests. The aliases of these joins are claimed in their
order, and they are all that is claimed exactly if no pass that failed had planned a join. -/
theorem run_ofRoot (rootAlias : String) (r : Recorder ρ) (passes : List IncludePass) :
    let s := (ofRoot rootAlias r).run passes
    let plans := IncludePass.plans (.ofRoot rootAlias) passes
    let taken := IncludePlan.succeeded plans
    s.aliases.used = rootAlias :: (plans.flatMap IncludePlan.joins).map Join.aliasName ∧
      s.aliases.used.Nodup ∧
      s.builder = { r with plan := {
        joins := taken.flatMap IncludePlan.joins, orders := taken.flatMap IncludePlan.orders } } ∧
      List.Forall₂ (fun pass p => p.failure = none → p.Realizes pass.dialect pass.parentAlias pass.forest)
        passes plans ∧
      (rootAlias :: s.builder.plan.joins.map Join.aliasName).Sublist s.aliases.used ∧
      (s.aliases.used = rootAlias :: s.builder.plan.joins.map Join.aliasName ↔
        ∀ p ∈ plans, p.failure ≠ none → p.joins = []) := by
  intro s plans taken
  have hused : s.aliases.used = rootAlias :: (plans.flatMap IncludePlan.joins).map Join.aliasName :=
    aliases_run passes (ofRoot rootAlias r)
  have hbuilder : s.builder = { r with plan := {
      joins := taken.flatMap IncludePlan.joins, orders := taken.flatMap IncludePlan.orders } } :=
    builder_run passes (ofRoot rootAlias r)
  have hjoins : s.builder.plan.joins = taken.flatMap IncludePlan.joins := by rw [hbuilder]
  have hsublist := (IncludePlan.joins_succeeded_sublist plans).map Join.aliasName
  refine ⟨hused, s.aliases.nodup, hbuilder, IncludePass.realizes_plans passes _, ?_, ?_⟩
  · rw [hused, hjoins]
    exact hsublist.cons_cons rootAlias
  · rw [hused, hjoins, ← IncludePlan.joins_succeeded_eq_iff, List.cons_inj_right]
    constructor
    · intro h
      -- as many aliases, so as many joins
      have hlength := congrArg List.length h
      rw [List.length_map, List.length_map] at hlength
      exact (IncludePlan.joins_succeeded_sublist plans).eq_of_length hlength.symm
    · intro h
      exact congrArg (List.map Join.aliasName) h.symm

/-- A pass that fails at its second include keeps the alias of the first. -/
theorem not_forall_run_in_step :
    ¬∀ (rootAlias : String) (r : Recorder Nat) (passes : List IncludePass),
      let s := (ofRoot rootAlias r).run passes
      s.aliases.used = rootAlias :: s.builder.plan.joins.map Join.aliasName := by
  intro h
  let tags : Relation := ⟨"tags", "Post", "Tag", "tag", "postId", "id"⟩
  let post : Entity := { name := "Post", table := "post", relations := [tags] }
  let pass : IncludePass := {
    lookup := fun name => if name = "Post" then some post else none
    parentAlias := "post"
    parent := post
    forest := [.node { property := "tags" } [], .node { property := "likes" } []] }
  have hstep := h "post" { rootAlias := "post" } [pass]
  exact absurd hstep (by decide +kernel)

end IncludeState

end RelQuery
