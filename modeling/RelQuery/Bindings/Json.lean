import RelQuery.Bindings
import RelQuery.Json.Basic

/-!
# Bindings as JSON
-/

namespace RelQuery.Bindings

/-- The object of names and values, in binding order. -/
def toJson (b : Bindings) : Json :=
  .ofMembers (b.entries.map fun (name, value) => (name, .ofText value))

/-- The bindings as a JSON text. -/
def toText (b : Bindings) : String :=
  b.toJson.print

end RelQuery.Bindings
