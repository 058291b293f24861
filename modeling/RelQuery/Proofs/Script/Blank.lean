import RelQuery.Proofs.Include.Joins
import RelQuery.Proofs.Script.Bound
import RelQuery.Proofs.Script.Dangling

/-!
# Blank conditions

The conditions of a plan come from the parser, from the lambda filter and from the clauses of includes. A lambda filter
is never blank, and a blank clause is left out. The parser's condition is recorded if it binds a parameter, whether it is
blank or not.

* `LambdaFilter.isBlankText_fragment`, `IncludePlan.isBlankText_of_mem_joins` : the conditions that are never blank;
* `Recorder.isBlankText_recorded_iff` : when a plan holds a blank condition, and which one it is.
-/

namespace RelQuery

open Text

/-! ## Conditions that are not blank -/

theorem LambdaFilter.isBlankText_fragment (d : Dialect) (l : LambdaFilter) :
    isBlankText (l.fragment d).toList = false := by
  have hparen : '(' ∈ (l.fragment d).toList := by simp [fragment, ToString.toString]
  exact Bool.eq_false_iff.2 fun h => notMem_of_isBlankText h (by decide) hparen

theorem IncludeClause.isBlankText_of_joinCondition {d : Dialect} {aliasName condition : String} {clause : IncludeClause}
    (h : clause.joinCondition d aliasName = some condition) : isBlankText condition.toList = false := by
  obtain ⟨-, hblank⟩ := Option.filter_eq_some_iff.1 h
  simpa using hblank

namespace IncludePlan

variable {lookup : String → Option Entity} {d : Dialect} {parentAlias : String} {parent : Entity} {aliases : Aliases}
  {forest : List Include}

/-- The joins of a plan that did not fail are those of clauses. -/
theorem exists_clause_of_mem_joins (hf : (ofForest lookup d parentAlias parent aliases forest).failure = none) {j : Join}
    (hj : j ∈ (ofForest lookup d parentAlias parent aliases forest).joins) :
    ∃ clause a, j = IncludeClause.join d a j.aliasName clause := by
  have hwalk := walked_ofForest lookup d parentAlias parent aliases forest
  obtain ⟨i, hi⟩ := List.mem_iff_getElem?.1 hj
  have hlt : i < (Include.preorder forest).length := by
    have hlength := hwalk.length hf
    have hlt := (List.getElem?_eq_some_iff.1 hi).1
    simpa [hlength] using hlt
  obtain ⟨j', a, hj', -, -, he⟩ := hwalk.placed hf i _ _ (List.getElem?_eq_getElem hlt)
  rw [List.length_nil, Nat.zero_add, hi] at hj'
  obtain rfl : j = j' := Option.some.inj hj'
  exact ⟨_, a, he⟩

/-- A join has a condition that is not blank, or none. -/
theorem isBlankText_of_mem_joins (hf : (ofForest lookup d parentAlias parent aliases forest).failure = none) {j : Join}
    (hj : j ∈ (ofForest lookup d parentAlias parent aliases forest).joins) {condition : String}
    (hc : j.condition = some condition) : isBlankText condition.toList = false := by
  obtain ⟨clause, a, he⟩ := exists_clause_of_mem_joins hf hj
  rw [he] at hc
  exact IncludeClause.isBlankText_of_joinCondition hc

end IncludePlan

/-! ## The conditions of a plan -/

/-- The conditions of a resolved lambda filter are not blank. -/
theorem Script.Context.isBlankText_of_lambdaPart {c : Context} {fragments : List Fragment} {bound : Bindings}
    (h : c.lambdaPart = .ok (fragments, bound)) : ∀ f ∈ fragments, isBlankText f.sql.toList = false := by
  obtain ⟨lambda, -, rfl, -⟩ := resolve_of_lambdaPart h
  rw [List.forall_mem_map]
  exact fun l _ => l.isBlankText_fragment c.engine.dialect

/-- The parser's condition is recorded if it binds a parameter. -/
theorem QueryParts.mem_fragments {q : QueryParts} {f : Fragment} :
    f ∈ q.fragments ↔ q.bindings.isEmpty = false ∧ f = ⟨q.conditionText, q.bindings⟩ := by
  rw [fragments]
  split
  next h => simp [h]
  next h => simp [h]

namespace Recorder

variable {ρ : Type}

/-- **The only blank condition** that a request records in an empty plan is the parser's: it stands in front of all
others and is the empty text. It is recorded exactly if the parser binds a parameter and its condition is blank, or blank
but for one `AND` behind a blank. -/
theorem isBlankText_recorded_iff (engine : Engine) (r : Recorder ρ) (request : Request) (hr : r.plan = {}) :
    let plan := (engine.execute r request).builder.plan
    (∀ j ∈ plan.joins, ∀ condition, j.condition = some condition → isBlankText condition.toList = false) ∧
      (∀ f ∈ plan.wheres, isBlankText f.sql.toList = true → f.sql = "" ∧ plan.wheres.head? = some f) ∧
      ((∃ f ∈ plan.wheres, isBlankText f.sql.toList = true) ↔
        ∃ c, engine.context r.rootAlias r.entityName request = .ok c ∧ c.parts.bindings.isEmpty = false ∧
          (QueryParts.AndTail 0 c.parts.condition.toList ∨ QueryParts.AndTail 1 c.parts.condition.toList)) := by
  intro plan
  cases hc : engine.context r.rootAlias r.entityName request with
  | error e =>
    have hplan : plan = {} := (congrArg Recorder.plan (execute_of_context_error hc).2).trans hr
    simp [hplan]
  | ok c =>
    obtain ⟨fragments, joins, hfragments, hjoins, -, hwheres, hplan⟩ := plan_of_context hc
    rw [hr] at hwheres hplan
    -- a blank condition is not the lambda filter's, so it is the parser's
    have hparser : ∀ f ∈ plan.wheres, isBlankText f.sql.toList = true → f ∈ c.parts.fragments := by
      intro f hf hblank
      rw [hwheres, List.nil_append] at hf
      rcases List.mem_append.1 hf with hf | hf
      · exact hf
      · rcases hfragments with rfl | ⟨bound, hl⟩
        · cases hf
        · simp [Script.Context.isBlankText_of_lambdaPart hl f hf] at hblank
    refine ⟨fun j hj condition hcondition => ?_, fun f hf hblank => ?_, ?_⟩
    · rw [hplan, List.nil_append] at hj
      rcases hjoins with rfl | ⟨hfailure, rfl⟩
      · cases hj
      · exact IncludePlan.isBlankText_of_mem_joins hfailure hj hcondition
    · have hmem := hparser f hf hblank
      obtain ⟨hbound, rfl⟩ := QueryParts.mem_fragments.1 hmem
      refine ⟨QueryParts.isBlankText_conditionText.1 hblank, ?_⟩
      rw [hwheres, QueryParts.fragments, if_neg (by simp [hbound])]
      rfl
    · constructor
      · rintro ⟨f, hf, hblank⟩
        obtain ⟨hbound, rfl⟩ := QueryParts.mem_fragments.1 (hparser f hf hblank)
        exact ⟨c, rfl, hbound,
          QueryParts.conditionText_eq_empty_iff.1 (QueryParts.isBlankText_conditionText.1 hblank)⟩
      · rintro ⟨c', hc', hbound, htail⟩
        obtain rfl : c = c' := Except.ok.inj hc'
        refine ⟨⟨c.parts.conditionText, c.parts.bindings⟩, ?_, ?_⟩
        · rw [hwheres]
          exact List.mem_append_left _ (List.mem_append_right _ (QueryParts.mem_fragments.2 ⟨hbound, rfl⟩))
        · exact QueryParts.isBlankText_conditionText.2 (QueryParts.conditionText_eq_empty_iff.2 htail)

/-- Nothing but an `AND` is left of the condition, and the parameter of what was not translated is bound. -/
theorem isBlankText_recorded_iff_and :
    let post : Entity := { name := "Post", table := "post", columns := ["id", "title"] }
    let engine : Engine := {
      lookup := fun name => if name = "Post" then some post else none
      parse := fun _ _ => .ok { condition := " AND ", bindings := ⟨[("p", "x")], by decide⟩ } }
    let r : Recorder Nat := { rootAlias := "post", entity := some "Post" }
    let plan := (engine.execute r { filter := some "f" }).builder.plan
    r.plan = {} ∧
      (∃ f ∈ plan.wheres, isBlankText f.sql.toList = true) ∧
      (∀ f ∈ plan.wheres, isBlankText f.sql.toList = true → f.sql = "") ∧
      plan.explain = "SELECT post.id, post.title\nWHERE \nOFFSET 0\n" := by
  intro post engine r plan
  let parts : QueryParts := { condition := " AND ", bindings := ⟨[("p", "x")], by decide⟩ }
  let c : Script.Context := { engine, rootAlias := "post", root := post, parts, skip := 0, top := none, counted := false }
  have hc : engine.context "post" "Post" { filter := some "f" } = .ok c := rfl
  have htail : QueryParts.AndTail 1 " AND ".toList :=
    .and [] ' ' "AND".toList [' '] rfl (by decide) (by decide) (.blanks [' '] (by decide))
  obtain ⟨-, hblank, hiff⟩ := isBlankText_recorded_iff engine r { filter := some "f" } rfl
  exact ⟨rfl, hiff.2 ⟨c, hc, rfl, .inr htail⟩, fun f hf h => (hblank f hf h).1, by decide +kernel⟩

/-- A parser that binds a parameter may leave the condition blank, which is recorded all the same. -/
theorem not_forall_isBlankText_eq_false :
    ¬∀ (engine : Engine) (r : Recorder Nat) (request : Request), r.plan = {} →
      let plan := (engine.execute r request).builder.plan
      (∀ f ∈ plan.wheres, isBlankText f.sql.toList = false) ∧
        ∀ j ∈ plan.joins, ∀ condition, j.condition = some condition → isBlankText condition.toList = false := by
  intro h
  let post : Entity := { name := "Post", table := "post", columns := ["id", "title"] }
  let engine : Engine := {
    lookup := fun name => if name = "Post" then some post else none
    parse := fun _ _ => .ok { condition := " AND ", bindings := ⟨[("p", "x")], by decide⟩ } }
  obtain ⟨hwheres, -⟩ := h engine { rootAlias := "post", entity := some "Post" } { filter := some "f" } rfl
  exact absurd hwheres (by decide +kernel)

end Recorder

end RelQuery
