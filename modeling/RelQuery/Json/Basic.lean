import RelQuery.Json.Escape
import RelQuery.Text.Decimal

/-!
# JSON texts

A JSON text as a tree: strings and numbers stand in it as they are written, and members keep their order.

* `Json.compact` prints a tree without blanks;
* `Json.ofText` and `Json.text?` write and read a string;
* `Json.respell` spells a tree in one way: strings as short as possible, and every key once.
-/

namespace RelQuery

/-- A JSON text. -/
inductive Json where
  | null
  | bool (value : Bool)
  /-- A number, as written. -/
  | number (literal : List Char)
  /-- A string: what stands between its quotes. -/
  | string (literal : List Char)
  | array (items : List Json)
  /-- An object, with what stands between the quotes of its keys. -/
  | object (members : List (List Char × Json))
  deriving Inhabited, Repr

namespace Json

/-- The string with the given text. -/
def ofText (s : String) : Json :=
  .string (escape s.toList)

/-- The text of a string. -/
def text? : Json → Option String
  | .string literal => (unescape? literal).map String.ofList
  | _ => none

/-- The number `n`. -/
def ofNat (n : Nat) : Json :=
  .number (Text.decimal n)

/-- The integer that a number written without fraction and exponent stands for. -/
def int? : Json → Option Int
  | .number ('-' :: digits) => (Text.nat? digits).map fun n => -(n : Int)
  | .number digits => (Text.nat? digits).map Int.ofNat
  | _ => none

/-- An object with the given texts as keys. -/
def ofMembers (members : List (String × Json)) : Json :=
  .object (members.map fun (key, value) => (escape key.toList, value))

/-! ## Printing -/

mutual

/-- A tree, printed without blanks. -/
def compact : Json → List Char
  | .null => "null".toList
  | .bool true => "true".toList
  | .bool false => "false".toList
  | .number literal => literal
  | .string literal => '"' :: literal ++ ['"']
  | .array items => '[' :: compactItems items ++ [']']
  | .object members => '{' :: compactMembers members ++ ['}']

/-- The items of an array, parted by commas. -/
def compactItems : List Json → List Char
  | [] => []
  | [item] => item.compact
  | item :: items => item.compact ++ ',' :: compactItems items

/-- The members of an object, parted by commas. -/
def compactMembers : List (List Char × Json) → List Char
  | [] => []
  | [(key, value)] => '"' :: key ++ '"' :: ':' :: value.compact
  | (key, value) :: members => '"' :: key ++ '"' :: ':' :: value.compact ++ ',' :: compactMembers members

end

/-- A tree as a string, printed without blanks. -/
def print (j : Json) : String :=
  String.ofList j.compact

/-- The members with a value under a key: in the place of an earlier value under that key, or behind all others. -/
def putMember (key : List Char) (value : Json) : List (List Char × Json) → List (List Char × Json)
  | [] => [(key, value)]
  | (k, v) :: members => if k = key then (k, value) :: members else (k, v) :: putMember key value members

/-- What stands between the quotes of a string, in its shortest spelling; a string that stands for no text keeps its
own. -/
def respellLiteral (literal : List Char) : List Char :=
  ((unescape? literal).map escape).getD literal

mutual

/-- The tree with every string in its shortest spelling and every key once, with its last value. -/
def respell : Json → Json
  | .string literal => .string (respellLiteral literal)
  | .array items => .array (respellItems items)
  | .object members => .object (respellMembers [] members)
  | j => j

/-- Respells the items of an array. -/
def respellItems : List Json → List Json
  | [] => []
  | item :: items => item.respell :: respellItems items

/-- Respells the keys and values of an object behind the members respelled so far. -/
def respellMembers (done : List (List Char × Json)) : List (List Char × Json) → List (List Char × Json)
  | [] => done
  | (key, value) :: members => respellMembers (putMember (respellLiteral key) value.respell done) members

end

end Json

end RelQuery
