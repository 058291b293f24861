import RelQuery.Proofs.Include.Joins
import RelQuery.Proofs.Script.Origins
import Mathlib.Data.List.Perm.Subperm

/-!
# Attempts at an alias

A claim tries as many candidates as the dialect allows, and the candidates are all different, except that the name behind
its parent may be the name with a number. So a claim that finds none of them free has all its attempts, less one, among
the aliases claimed before.

* `Aliases.claim?_eq_none_iff` : a claim fails exactly if all its candidates are claimed;
* `Aliases.attempts_le_of_claim?_eq_none` : a claim that fails leaves as many aliases, but for one, as it has attempts;
* `IncludePlan.failure_ofForest_ne_noFreeAlias` : a forest with fewer includes than attempts are left finds its aliases.
-/

namespace RelQuery

namespace Aliases

variable {name parent : String}

/-! ## Candidates -/

/-- A candidate with a number is the name, a low line and the number. -/
theorem toList_candidate {n : Nat} (h0 : n ≠ 0) (h1 : n ≠ 1) :
    (candidate name parent n).toList = name.toList ++ '_' :: Text.decimal n := by
  match n with
  | 0 => exact absurd rfl h0
  | 1 => exact absurd rfl h1
  | n + 2 =>
    show (name ++ "_" ++ Text.decimalText (n + 2)).toList = _
    simp [Text.decimalText]

/-- The name itself is no candidate with a number, which is longer. -/
theorem candidate_ne_name {n : Nat} (h0 : n ≠ 0) (h1 : n ≠ 1) : candidate name parent n ≠ name := by
  intro h
  have hl := congrArg (fun s => s.toList.length) h
  simp [toList_candidate h0 h1] at hl

/-- **Candidates are different**, the name behind its parent aside. -/
theorem candidate_injective {m n : Nat} (hm : m ≠ 1) (hn : n ≠ 1)
    (h : candidate name parent m = candidate name parent n) : m = n := by
  by_cases hm0 : m = 0
  · subst hm0
    by_cases hn0 : n = 0
    · exact hn0.symm
    · exact absurd h.symm (candidate_ne_name hn0 hn)
  · by_cases hn0 : n = 0
    · subst hn0
      exact absurd h (candidate_ne_name hm0 hm)
    · have hl := congrArg String.toList h
      rw [toList_candidate hm0 hm, toList_candidate hn0 hn] at hl
      exact Text.decimal_injective (List.cons_injective (List.append_cancel_left hl))

/-! ## Claims that fail -/

theorem firstFrom?_eq_none_iff {p : Nat → Bool} {start count : Nat} :
    firstFrom? p start count = none ↔ ∀ i < count, p (start + i) = false := by
  induction count generalizing start with
  | zero => simp [firstFrom?]
  | succ count ih =>
    rw [firstFrom?, Nat.forall_lt_succ_left, ← Bool.not_eq_true]
    split
    next hp => simp [hp]
    next hp => simp [hp, ih, Nat.add_assoc, Nat.add_comm 1]

/-- A claim fails exactly if all its candidates are claimed. -/
theorem claim?_eq_none_iff {a : Aliases} {attempts : Nat} :
    a.claim? name parent attempts = none ↔ ∀ n < max attempts 1, candidate name parent n ∈ a.used := by
  have hsearch : a.claim? name parent attempts = none ↔
      firstFrom? (fun n => decide (candidate name parent n ∉ a.used)) 0 (max attempts 1) = none := by
    unfold claim?
    split
    next h => exact iff_of_true rfl h
    next n h => exact iff_of_false (fun hs => by cases hs) (fun hs => by cases h.symm.trans hs)
  rw [hsearch, firstFrom?_eq_none_iff]
  simp

/-- **A claim that fails** leaves as many aliases, but for one, as it has attempts: its candidates are among them. -/
theorem attempts_le_of_claim?_eq_none {a : Aliases} {attempts : Nat} (h : a.claim? name parent attempts = none) :
    attempts ≤ a.used.length + 1 := by
  -- one place is left out, since the candidate there may be another one's
  let places := (List.range attempts).erase 1
  have hplaces : ∀ n ∈ places, n ≠ 1 ∧ n < attempts := fun n hn => by
    simpa using List.nodup_range.mem_erase_iff.1 hn
  have hnodup : (places.map (candidate name parent)).Nodup :=
    (List.nodup_range.erase 1).map_on fun m hm n hn => candidate_injective (hplaces m hm).1 (hplaces n hn).1
  have hused : places.map (candidate name parent) ⊆ a.used := by
    intro s hs
    obtain ⟨n, hn, rfl⟩ := List.mem_map.1 hs
    exact claim?_eq_none_iff.1 h n (Nat.lt_of_lt_of_le (hplaces n hn).2 (Nat.le_max_left ..))
  have hle := (hnodup.subperm hused).length_le
  have hlength : attempts - 1 ≤ places.length := by
    simpa using List.le_length_erase (a := 1) (l := List.range attempts)
  rw [List.length_map] at hle
  omega

end Aliases

/-! ## Planning -/

namespace IncludePlan

variable {d : Dialect} {parentAlias : String} {p : IncludePlan}

/-- A walk that does not fail claims one alias at each place. -/
theorem Walked.length_used {top : String} {q : IncludePlan} {places : List (IncludeClause × Option Nat)}
    (h : Walked d top p q places) (hq : q.failure = none) :
    q.aliases.used.length = p.aliases.used.length + places.length := by
  obtain ⟨js, hjoins, hused⟩ := h.grows
  have hlength := h.length hq
  rw [hjoins, List.length_append] at hlength
  rw [hused, List.length_append, List.length_map]
  omega

mutual

theorem failure_add_ne_noFreeAlias (lookup : String → Option Entity) (name : String) : ∀ (tree : Include)
    {parentAlias : String} {parent : Entity} {p : IncludePlan}, p.failure = none →
      p.aliases.used.length + tree.size < d.aliasAttempts →
        (add lookup d parentAlias parent p tree).failure ≠ some (.noFreeAlias name)
  | .node clause children, parentAlias, parent, p, hp, hlt, h => by
    rw [Include.size] at hlt
    rw [add] at h
    split at h
    next he =>
      obtain rfl := Entity.eq_of_requireRelation_error he
      cases h
    next relation _ =>
      split at h
      next hc =>
        have hle := Aliases.attempts_le_of_claim?_eq_none hc
        omega
      next aliasName aliases hc =>
        dsimp only at h
        split at h
        next he =>
          unfold IncludeClause.orders at he
          split at he
          next => cases he
          next =>
            obtain ⟨source, fault, rfl⟩ := Order.exists_of_ofText_error he
            cases h
        next orders _ =>
          split at h
          next => cases hp.symm.trans h
          next =>
            split at h
            next => cases h
            next =>
              -- the join has taken one alias of those that were left for the tree
              have hused : aliases.used.length = p.aliases.used.length + 1 := by
                rw [Aliases.used_of_claim? hc, List.length_append, List.length_singleton]
              refine failure_addAll_ne_noFreeAlias lookup name children ?_ ?_ h
              · exact hp
              · show aliases.used.length + Include.sizeAll children < d.aliasAttempts
                omega

/-- As long as there are attempts for all includes, planning a forest does not fail for an alias. -/
theorem failure_addAll_ne_noFreeAlias (lookup : String → Option Entity) (name : String) : ∀ (forest : List Include)
    {parentAlias : String} {parent : Entity} {p : IncludePlan}, p.failure = none →
      p.aliases.used.length + Include.sizeAll forest < d.aliasAttempts →
        (addAll lookup d parentAlias parent p forest).failure ≠ some (.noFreeAlias name)
  | [], _, _, _, hp, _, h => by
    rw [addAll] at h
    cases hp.symm.trans h
  | tree :: forest, parentAlias, parent, p, hp, hlt, h => by
    rw [Include.sizeAll] at hlt
    rw [addAll] at h
    split at h
    next => exact failure_add_ne_noFreeAlias lookup name tree hp (by omega) h
    next hf =>
      have hwalk : Walked d parentAlias p (add lookup d parentAlias parent p tree) (tree.places none p.joins.length) :=
        walked_add lookup tree parent hp rfl
      have hused := hwalk.length_used hf
      rw [Include.length_places] at hused
      exact failure_addAll_ne_noFreeAlias lookup name forest hf (by omega) h

end

/-- **Aliases do not run out early.** If the includes of a forest and the aliases claimed before are fewer than the
attempts, planning does not fail for want of an alias, whatever the properties are called. So behind a root alias alone
there may be as many includes as attempts, but for two. -/
theorem failure_ofForest_ne_noFreeAlias (lookup : String → Option Entity) (d : Dialect) (parentAlias : String)
    (parent : Entity) (forest : List Include) (name : String) :
    (∀ aliases : Aliases, (forest.map Include.size).sum + aliases.used.length < d.aliasAttempts →
        (ofForest lookup d parentAlias parent aliases forest).failure ≠ some (.noFreeAlias name)) ∧
      ∀ rootAlias, (forest.map Include.size).sum + 2 ≤ d.aliasAttempts →
        (ofForest lookup d parentAlias parent (.ofRoot rootAlias) forest).failure ≠ some (.noFreeAlias name) := by
  have hfree (aliases : Aliases) (hlt : (forest.map Include.size).sum + aliases.used.length < d.aliasAttempts) :
      (ofForest lookup d parentAlias parent aliases forest).failure ≠ some (.noFreeAlias name) := by
    rw [← Include.sizeAll_eq_sum, Nat.add_comm] at hlt
    exact failure_addAll_ne_noFreeAlias lookup name forest rfl hlt
  exact ⟨hfree, fun rootAlias hle => hfree (.ofRoot rootAlias) hle⟩

/-- With the property and the alias `2`, the name behind its parent is also the first one with a number. So a second
include of the property takes the last of four attempts, and is refused with three. -/
theorem failure_ofForest_ne_noFreeAlias_two :
    let two : Relation := ⟨"2", "2", "2", "two", "parentId", "id"⟩
    let root : Entity := { name := "2", table := "two", relations := [two] }
    let leaf : Include := .node { property := "2" } []
    let plan (attempts : Nat) (aliases : Aliases) (forest : List Include) :=
      ofForest (fun _ => none) { aliasAttempts := attempts } "2" root aliases forest
    let claimed : Aliases := { used := ["2", "2_2"] }
    ([leaf].map Include.size).sum + claimed.used.length < 4 ∧
      (plan 4 claimed [leaf]).failure ≠ some (.noFreeAlias "2") ∧
      (plan 4 claimed [leaf]).aliases.used = ["2", "2_2", "2_3"] ∧
      ([leaf, leaf].map Include.size).sum + 2 ≤ 4 ∧
      (plan 4 (.ofRoot "2") [leaf, leaf]).failure ≠ some (.noFreeAlias "2") ∧
      (plan 3 (.ofRoot "2") [leaf, leaf]).failure = some (.noFreeAlias "2") := by
  intro two root leaf plan claimed
  have hclaimed : ([leaf].map Include.size).sum + claimed.used.length < 4 := by decide
  have hroot : ([leaf, leaf].map Include.size).sum + 2 ≤ 4 := by decide
  obtain ⟨hfree, -⟩ :=
    failure_ofForest_ne_noFreeAlias (fun _ => none) { aliasAttempts := 4 } "2" root [leaf] "2"
  obtain ⟨-, hfreeRoot⟩ :=
    failure_ofForest_ne_noFreeAlias (fun _ => none) { aliasAttempts := 4 } "2" root [leaf, leaf] "2"
  refine ⟨hclaimed, hfree claimed hclaimed, ?_, hroot, hfreeRoot "2" hroot, ?_⟩
  · decide +kernel
  · decide +kernel

end IncludePlan

end RelQuery
