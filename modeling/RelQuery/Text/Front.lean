/-!
# Reading from the front of a list

* `Front α s` : a value read from the front of `s`, with what follows it, which is shorter than `s`.
-/

namespace RelQuery.Text

/-- A value read from the front of `s`, with what follows it. -/
structure Front {β : Type} (α : Type) (s : List β) where
  value : α
  rest : List β
  shorter : rest.length < s.length

/-- What follows the first of the elements left over is shorter, too. -/
theorem Front.length_lt {α β : Type} {s rest : List β} {b : β} {r : Front α s} (h : r.rest = b :: rest) :
    rest.length < s.length := by
  have hr := r.shorter
  rw [h] at hr
  exact Nat.lt_of_succ_lt hr

/-- The same reading of a list that is no shorter, with the value turned into another. -/
def Front.within {α β γ : Type} {s t : List β} (r : Front α s) (f : α → γ) (h : s.length ≤ t.length) :
    Front γ t :=
  ⟨f r.value, r.rest, Nat.lt_of_lt_of_le r.shorter h⟩

end RelQuery.Text
