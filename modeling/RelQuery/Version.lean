/-!
# The version of the library
-/

namespace RelQuery

/-- The version that the library reports. -/
def version : String := "0.1.0"

end RelQuery
