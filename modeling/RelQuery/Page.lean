import RelQuery.Json.Basic

/-!
# Pages

The answer to a query: the rows of a page, and the total number of matches where the request asked for it.
-/

namespace RelQuery

/-- The rows of a page. -/
inductive Page (ρ : Type) where
  | rows (items : List ρ)
  | counted (items : List ρ) (count : Nat)
  deriving DecidableEq, Repr

namespace Page

variable {ρ : Type}

/-- The rows. -/
def items : Page ρ → List ρ
  | rows items => items
  | counted items _ => items

/-- The total number of matches, where it was asked for. -/
def count? : Page ρ → Option Nat
  | rows _ => none
  | counted _ count => some count

/-- The number of rows. -/
def size (p : Page ρ) : Nat :=
  p.items.length

/-- A page without a count is an array; one with a count is an object. -/
def toJson (item : ρ → Json) : Page ρ → Json
  | rows items => .array (items.map item)
  | counted items count => .ofMembers [("items", .array (items.map item)), ("count", .ofNat count)]

end Page

end RelQuery
