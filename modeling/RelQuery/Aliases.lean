import RelQuery.Text.Decimal

/-!
# Aliases

The aliases claimed in one query, in the order in which they were claimed; no alias is claimed twice.

* `Aliases.claim?` tries the wanted name, then the name behind its parent, then the name with the numbers from 2 on.
-/

namespace RelQuery

/-- Claimed aliases, in order. -/
@[ext] structure Aliases where
  used : List String := []
  nodup : used.Nodup := by simp

namespace Aliases

/-- Only the root alias is claimed. -/
def ofRoot (aliasName : String) : Aliases where
  used := [aliasName]

/-- The candidates for a name, from the first on. -/
def candidate (name parent : String) : Nat → String
  | 0 => name
  | 1 => s!"{parent}_{name}"
  | n => s!"{name}_{Text.decimalText n}"

/-- The least number from `start` on that satisfies `p`, among the next `count`. -/
def firstFrom? (p : Nat → Bool) (start : Nat) : Nat → Option Nat
  | 0 => none
  | count + 1 => if p start then some start else firstFrom? p (start + 1) count

theorem satisfies_of_firstFrom? {p : Nat → Bool} {start count n : Nat} (h : firstFrom? p start count = some n) :
    p n = true := by
  induction count generalizing start with
  | zero => simp [firstFrom?] at h
  | succ count ih =>
    simp only [firstFrom?] at h
    split at h
    next hp => simp_all
    next => exact ih h

/-- Claims an alias that is free. -/
def push (a : Aliases) (aliasName : String) (free : aliasName ∉ a.used) : Aliases where
  used := a.used ++ [aliasName]
  nodup := List.nodup_append.2 ⟨a.nodup, by simp, fun x hx y hy => by simp at hy; rintro rfl; simp_all⟩

/-- Claims the first free candidate for a name among the first `attempts`, one at least. -/
def claim? (a : Aliases) (name parent : String) (attempts : Nat) : Option (String × Aliases) :=
  match h : firstFrom? (fun n => decide (candidate name parent n ∉ a.used)) 0 (max attempts 1) with
  | none => none
  | some n =>
    let chosen := candidate name parent n
    some (chosen, a.push chosen (by simpa using satisfies_of_firstFrom? h))

end Aliases

end RelQuery
