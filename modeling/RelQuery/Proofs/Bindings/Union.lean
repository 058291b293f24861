import RelQuery.Plan
import RelQuery.Proofs.Bindings.Merge

/-!
# What a plan binds

The parameters of a plan are merged from left to right, up to the first conflict. Whether there is one, and what each
name is bound to, does not depend on the order of the conditions and of the joins.

* `Plan.boundParameters_cases` : the parameters bind what any condition binds, or a name is bound to two values;
* `Plan.boundParameters_eq_union` : both directions of this, for plans in any order.
-/

namespace RelQuery

namespace Plan

open Bindings

variable {p q : Plan} {bound : Bindings} {name value : String}

/-- A condition of the plan, in its WHERE clause or of a join, binds the name to the value. -/
def Binds (p : Plan) (name value : String) : Prop :=
  (∃ f ∈ p.wheres, f.bindings.get? name = some value) ∨ ∃ j ∈ p.joins, j.bindings.get? name = some value

theorem anyBinds_iff_binds :
    AnyBinds (.empty :: (p.wheres.map Fragment.bindings ++ p.joins.map Join.bindings)) name value ↔
      p.Binds name value := by
  have hempty : Bindings.empty.get? name ≠ some value := nofun
  simp only [anyBinds_cons, hempty, false_or]
  simp only [AnyBinds, Binds, List.mem_append, List.mem_map, or_and_right, exists_or, exists_exists_and_eq_and]

/-- The order of the conditions and of the joins does not matter for what they bind. -/
theorem binds_of_perm (hw : q.wheres.Perm p.wheres) (hj : q.joins.Perm p.joins) :
    q.Binds name value ↔ p.Binds name value := by
  simp only [Binds, hw.mem_iff, hj.mem_iff]

/-- The names that are bound, whatever their values. -/
theorem exists_binds_iff : (∃ value, p.Binds name value) ↔
    (∃ f ∈ p.wheres, name ∈ f.bindings.names) ∨ ∃ j ∈ p.joins, name ∈ j.bindings.names := by
  simp only [Binds, mem_names_iff, exists_or]
  refine or_congr ?_ ?_ <;> exact ⟨fun ⟨v, x, hx, h⟩ => ⟨x, hx, v, h⟩, fun ⟨x, hx, v, h⟩ => ⟨v, x, hx, h⟩⟩

theorem boundParameters_cases (p : Plan) :
    (∃ bound, p.boundParameters = .ok bound ∧ ∀ name value, bound.get? name = some value ↔ p.Binds name value) ∨
      ∃ name value value', p.boundParameters = .error (.parameterConflict name) ∧ value ≠ value' ∧
        p.Binds name value ∧ p.Binds name value' := by
  simp only [← anyBinds_iff_binds]
  exact mergeAll_cases _ .empty

theorem exists_boundParameters_iff : (∃ bound, p.boundParameters = .ok bound) ↔
    ∀ name value value', p.Binds name value → p.Binds name value' → value = value' := by
  rcases p.boundParameters_cases with ⟨bound, hb, hbinds⟩ | ⟨name, value, value', he, hne, hv, hv'⟩
  · refine iff_of_true ⟨bound, hb⟩ fun name value value' hv hv' => ?_
    exact Option.some.inj (((hbinds name value).2 hv).symm.trans ((hbinds name value').2 hv'))
  · refine iff_of_false (fun ⟨bound, hb⟩ => ?_) fun h => hne (h name value value' hv hv')
    cases hb.symm.trans he

theorem get?_of_boundParameters (h : p.boundParameters = .ok bound) (name value : String) :
    bound.get? name = some value ↔ p.Binds name value := by
  rcases p.boundParameters_cases with ⟨bound', hb, hbinds⟩ | ⟨_, _, _, he, _⟩
  · obtain rfl : bound' = bound := Except.ok.inj (hb.symm.trans h)
    exact hbinds name value
  · cases h.symm.trans he

/-- **The parameters of a plan** are those of its conditions and joins together. They can be merged exactly if no name
is bound to two values; then each name stands among them once, with its one value. Another order of the conditions and
of the joins changes neither whether they can be merged nor the value of a name. A conflict names a name that is bound
to two values. -/
theorem boundParameters_eq_union (p : Plan) :
    ((∃ bound, p.boundParameters = .ok bound) ↔
        ∀ name value value', p.Binds name value → p.Binds name value' → value = value') ∧
      (∀ bound, p.boundParameters = .ok bound →
        bound.names.Nodup ∧
          (∀ name, name ∈ bound.names ↔
            (∃ f ∈ p.wheres, name ∈ f.bindings.names) ∨ ∃ j ∈ p.joins, name ∈ j.bindings.names) ∧
          ∀ name value, bound.get? name = some value ↔ p.Binds name value) ∧
      (∀ q : Plan, q.wheres.Perm p.wheres → q.joins.Perm p.joins →
        ((∃ bound, q.boundParameters = .ok bound) ↔ ∃ bound, p.boundParameters = .ok bound) ∧
          ∀ bound bound', p.boundParameters = .ok bound → q.boundParameters = .ok bound' →
            ∀ name, bound'.get? name = bound.get? name) ∧
      ∀ e, p.boundParameters = .error e →
        ∃ name value value', e = .parameterConflict name ∧ value ≠ value' ∧
          p.Binds name value ∧ p.Binds name value' := by
  refine ⟨exists_boundParameters_iff, fun bound hb => ?_, fun q hw hj => ?_, fun e he => ?_⟩
  · have hbinds := get?_of_boundParameters hb
    refine ⟨bound.nodup, fun name => ?_, hbinds⟩
    rw [mem_names_iff, ← exists_binds_iff]
    exact exists_congr fun value => hbinds name value
  · constructor
    · rw [exists_boundParameters_iff, exists_boundParameters_iff]
      simp only [binds_of_perm hw hj]
    · intro bound bound' hb hb' name
      refine Option.ext fun value => ?_
      rw [get?_of_boundParameters hb, get?_of_boundParameters hb', binds_of_perm hw hj]
  · rcases p.boundParameters_cases with ⟨bound, hb, _⟩ | ⟨name, value, value', he', hne, hv, hv'⟩
    · cases he.symm.trans hb
    · exact ⟨name, value, value', Except.error.inj (he.symm.trans he'), hne, hv, hv'⟩

/-- Two conditions in either order: the names are bound in another order, to the same values. With one value changed,
both orders end in a conflict. -/
theorem boundParameters_eq_union_two :
    let first (value : String) : Fragment := ⟨"a = :p and b = :q", ⟨[("p", value), ("q", "y")], by simp⟩⟩
    let second : Fragment := ⟨"c = :r and a = :p", ⟨[("r", "z"), ("p", "x")], by decide⟩⟩
    let plan (value : String) : Plan := { wheres := [first value, second] }
    let swapped (value : String) : Plan := { wheres := [second, first value] }
    (swapped "x").wheres.Perm (plan "x").wheres ∧ (swapped "x").joins.Perm (plan "x").joins ∧
      (∃ bound bound', (plan "x").boundParameters = .ok bound ∧ (swapped "x").boundParameters = .ok bound' ∧
        bound.names = ["p", "q", "r"] ∧ bound'.names = ["r", "p", "q"] ∧
        ∀ name, bound'.get? name = bound.get? name) ∧
      (plan "w").boundParameters = .error (.parameterConflict "p") ∧
      ∃ value value', value ≠ value' ∧ (plan "w").Binds "p" value ∧ (plan "w").Binds "p" value' := by
  intro first second plan swapped
  have hw : (swapped "x").wheres.Perm (plan "x").wheres := .swap _ _ _
  have hj : (swapped "x").joins.Perm (plan "x").joins := .refl _
  have hb : (plan "x").boundParameters = .ok ⟨[("p", "x"), ("q", "y"), ("r", "z")], by decide⟩ := rfl
  have hb' : (swapped "x").boundParameters = .ok ⟨[("r", "z"), ("p", "x"), ("q", "y")], by decide⟩ := rfl
  have he : (plan "w").boundParameters = .error (.parameterConflict "p") := rfl
  obtain ⟨-, -, hswap, -⟩ := boundParameters_eq_union (plan "x")
  obtain ⟨-, -, -, hconflict⟩ := boundParameters_eq_union (plan "w")
  obtain ⟨name, value, value', hname, hne, hv, hv'⟩ := hconflict _ he
  obtain rfl := QueryError.parameterConflict.inj hname
  exact ⟨hw, hj, ⟨_, _, hb, hb', rfl, rfl, (hswap _ hw hj).2 _ _ hb hb'⟩, he, value, value', hne, hv, hv'⟩

end Plan

end RelQuery
