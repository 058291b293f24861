import RelQuery.Error
import RelQuery.Text.Split

/-!
# Orders

An order list is written `column [ASC|DESC], …`, the direction in any case and ascending by default.

* `Order.ofText` reads an order list, `Order.text` writes an entry of one.
-/

namespace RelQuery

/-- The direction of an order. -/
inductive Direction where
  | asc
  | desc
  deriving DecidableEq, Repr

namespace Direction

/-- The SQL keyword of the direction. -/
def keyword : Direction → String
  | asc => "ASC"
  | desc => "DESC"

/-- The direction that a word names, whatever its case. -/
def ofWord? (word : List Char) : Option Direction :=
  let lower := word.map Char.toLower
  if lower = "asc".toList then some .asc else if lower = "desc".toList then some .desc else none

end Direction

/-- A column and its direction. -/
structure Order where
  column : String
  direction : Direction := .asc
  deriving DecidableEq, Repr

namespace Order

open Text

/-- The entry of an order list that stands for an order. -/
def text (o : Order) : String :=
  s!"{o.column} {o.direction.keyword}"

/-- Reads one entry of the order list `source`. -/
def ofEntry (source entry : List Char) : Except QueryError Order :=
  let malformed fault := .error (.malformedExpression (String.ofList source) fault)
  match words entry with
  | [] => .ok ⟨"", .asc⟩
  | [column] => .ok ⟨String.ofList column, .asc⟩
  | column :: word :: rest =>
    match Direction.ofWord? word with
    | none => malformed (.unknownDirection (String.ofList word))
    | some direction =>
      if rest.isEmpty then .ok ⟨String.ofList column, direction⟩
      else malformed (.extraWords (String.ofList entry))

/-- Reads the entries of the order list `source`; the first bad one ends it. -/
def ofEntries (source : List Char) : List (List Char) → Except QueryError (List Order)
  | [] => .ok []
  | entry :: entries =>
    match ofEntry source entry with
    | .error e => .error e
    | .ok order =>
      match ofEntries source entries with
      | .error e => .error e
      | .ok orders => .ok (order :: orders)

/-- Reads an order list; the text `noOrder` and a blank one hold no order. -/
def ofText (noOrder text : String) : Except QueryError (List Order) :=
  let source := trim text.toList
  if source.isEmpty ∨ source = noOrder.toList then .ok [] else ofEntries source (entries source)

end Order

end RelQuery
