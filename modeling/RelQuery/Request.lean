import RelQuery.Error
import RelQuery.Text.Decimal
import RelQuery.Text.Split

/-!
# Requests

A request holds seven keys as raw text, each of which may be absent.

* `Request.queryString` writes the present keys as `key=value`, joined by `&`;
* `Request.skipValue` and `Request.topValue?` read the two numbers.
-/

namespace RelQuery

/-- The keys of a request, in the order in which they are written. -/
inductive RequestKey where
  | select
  | filter
  | expand
  | orderBy
  | top
  | skip
  | count
  deriving DecidableEq, Repr

namespace RequestKey

/-- The key as a request writes it. -/
def name : RequestKey → String
  | select => "$select"
  | filter => "$filter"
  | expand => "$expand"
  | orderBy => "$orderby"
  | top => "$top"
  | skip => "$skip"
  | count => "$count"

/-- All keys in order. -/
def all : List RequestKey :=
  [select, filter, expand, orderBy, top, skip, count]

end RequestKey

/-- A request. -/
@[ext] structure Request where
  select : Option String := none
  filter : Option String := none
  expand : Option String := none
  orderBy : Option String := none
  top : Option String := none
  skip : Option String := none
  count : Option String := none
  deriving DecidableEq, Repr

namespace Request

/-- The text of a key. -/
def get? (r : Request) : RequestKey → Option String
  | .select => r.select
  | .filter => r.filter
  | .expand => r.expand
  | .orderBy => r.orderBy
  | .top => r.top
  | .skip => r.skip
  | .count => r.count

/-- The present keys with their texts, in order. -/
def present (r : Request) : List (RequestKey × String) :=
  RequestKey.all.filterMap fun key => (r.get? key).map fun value => (key, value)

/-- The request in the form in which a parser takes it. -/
def queryString (r : Request) : String :=
  "&".intercalate (r.present.map fun (key, value) => s!"{key.name}={value}")

/-- The number that a key's text stands for, blanks around it aside. -/
def pagingValue (key : PagingKey) (text : String) : Except QueryError Nat :=
  match Text.word64? (Text.trim text.toList) with
  | some n => .ok n
  | none => .error (.invalidPaging key text)

/-- The number of rows that a page may hold, if it is bounded. -/
def topValue? (r : Request) : Except QueryError (Option Nat) :=
  match r.top with
  | none => .ok none
  | some text => (pagingValue .top text).map some

/-- The number of rows in front of the page. -/
def skipValue (r : Request) : Except QueryError Nat :=
  match r.skip with
  | none => .ok 0
  | some text => pagingValue .skip text

/-- Any text but the empty one and `false` asks for the total number of matches. -/
def wantsCount (r : Request) : Bool :=
  match r.count with
  | none => false
  | some text => text != "" && text != "false"

/-! ## Building a request -/

/-- The request with at most `n` rows on its page. -/
def withTop (r : Request) (n : Nat) : Request :=
  { r with top := some (Text.decimalText n) }

/-- The request with `n` rows in front of its page. -/
def withSkip (r : Request) (n : Nat) : Request :=
  { r with skip := some (Text.decimalText n) }

end Request

end RelQuery
