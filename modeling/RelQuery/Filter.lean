import RelQuery.Condition
import RelQuery.Text.Split

/-!
# Filters

The filter of a request, as a parser hands it over: leaves keep their source text.

* `Filter.lambda?` finds the first leaf that holds a lambda filter.
-/

namespace RelQuery

/-- A filter. -/
inductive Filter where
  | leaf (raw : String)
  | both (connective : Connective) (left right : Filter)
  | group (inner : Filter)
  deriving DecidableEq, Repr

namespace Filter

/-- What stands between a navigation property and the body of a lambda filter. -/
def marker : String := "/any("

/-- The text of the first leaf, from left to right, that holds the marker. -/
def lambda? : Filter → Option String
  | .leaf raw => if Text.contains marker.toList raw.toList then some raw else none
  | .both _ left right => left.lambda?.or right.lambda?
  | .group inner => inner.lambda?

end Filter

end RelQuery
