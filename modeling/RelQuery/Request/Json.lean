import RelQuery.Json.Parser
import RelQuery.Request

/-!
# Requests as JSON

A request is written as an object of its present keys. It is read from such an object, or from an array of values in key
order.

* `Request.ofText?` : unknown keys are skipped, a known key may stand once, `null` means absent; the numbers and the
  count may be written as strings, as integers that fit 64 bits, or as booleans.
-/

namespace RelQuery.Request

/-- Whether a key's value may be written as an integer or a boolean. -/
def takesScalar : RequestKey → Bool
  | .top | .skip | .count => true
  | .select | .filter | .expand | .orderBy => false

/-- Whether a numeral is that of a 64-bit integer, signed or unsigned; a negative zero is not. -/
def isWord (literal : List Char) : Bool :=
  match (Json.number literal).int? with
  | none => false
  | some n => literal != ['-', '0'] && decide (-9223372036854775808 ≤ n ∧ n < Text.wordCount)

/-- The text that a value stands for under a key: nothing for `null`. -/
def readValue? (key : RequestKey) : Json → Option (Option String)
  | .null => some none
  | .string literal => (Json.string literal).text?.map some
  | .number literal => if takesScalar key && isWord literal then some (some (String.ofList literal)) else none
  | .bool b => if takesScalar key then some (some (if b then "true" else "false")) else none
  | .array _ | .object _ => none

/-- The text under a key, from the values found there: none or one. -/
def readValues? (key : RequestKey) : List Json → Option (Option String)
  | [] => some none
  | [value] => readValue? key value
  | _ => none

/-- The request with the given values under its keys. -/
def ofValues? (values : RequestKey → List Json) : Option Request := do
  let read key := readValues? key (values key)
  pure {
    select := ← read .select, filter := ← read .filter, expand := ← read .expand, orderBy := ← read .orderBy
    top := ← read .top, skip := ← read .skip, count := ← read .count }

/-- The members of an object under their keys' texts. -/
def readKeys? : List (List Char × Json) → Option (List (List Char × Json))
  | [] => some []
  | (literal, value) :: members => do
    let key ← Json.unescape? literal
    pure ((key, value) :: (← readKeys? members))

/-- The request that a JSON value stands for. -/
def ofJson? : Json → Option Request
  | .object members => do
    let members ← readKeys? members
    ofValues? fun key => (members.filter (·.1 == key.name.toList)).map (·.2)
  | .array items =>
    if items.length ≤ RequestKey.all.length then
      ofValues? fun key => (RequestKey.all.zip items).filterMap fun (k, item) => if k = key then some item else none
    else none
  | _ => none

/-- The request that a JSON text stands for. -/
def ofText? (text : String) : Option Request :=
  (Json.parse? text).bind ofJson?

/-- The object of the present keys. -/
def toJson (r : Request) : Json :=
  .ofMembers (r.present.map fun (key, value) => (key.name, .ofText value))

/-- The request as a JSON text. -/
def toText (r : Request) : String :=
  r.toJson.print

end RelQuery.Request
