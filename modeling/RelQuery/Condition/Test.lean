import RelQuery.Condition
import RelQuery.Text.Atom

/-!
# Tests in a filter expression

A test is written `path eq literal` or `contains(path, literal)`; its column is the last segment of the path.

* `Test.ofSpan?` reads the text of one test.
-/

namespace RelQuery

/-- What a test compares: a column, how, and the value of the literal. -/
structure Test where
  column : List Char
  comparison : Comparison
  value : List Char
  deriving DecidableEq, Repr

namespace Test

open Text

/-- The word between a path and the literal it equals. -/
def eqWord : List Char := " eq ".toList

/-- The word that begins a containment test. -/
def containsWord : List Char := "contains".toList

/-- The column that a written path names. -/
def columnOf (path : List Char) : List Char :=
  lastSegment (trim path)

/-- The test `path eq literal`, from its two sides. -/
def ofSides? (path literal : List Char) : Option Test :=
  let column := columnOf path
  let literal := trim literal
  if column.isEmpty ∨ literal.isEmpty then none else some ⟨column, .equals, decode literal⟩

/-- The test of a call with the given text between its parentheses. -/
def ofArguments? (arguments : List Char) : Option Test := do
  let (path, literal) ← aroundComma? arguments
  let column := columnOf path
  if column.isEmpty then none else some ⟨column, .contains, decode (trim literal)⟩

/-- The test `contains(path, literal)`, from the text behind the word; the call ends the text. -/
def ofCall? (call : List Char) : Option Test := do
  let (_, opened) ← cut? ['('] call
  let (arguments, rest) ← insideParen? opened
  if isBlankText rest then ofArguments? arguments else none

/-- Reads the text of one test. An ` eq ` outside quotes decides for an equality, whatever else the text holds. -/
def ofSpan? (span : List Char) : Option Test :=
  match aroundOutside? eqWord span with
  | some (path, literal) => ofSides? path literal
  | none =>
    match aroundOutside? containsWord span with
    | some (_, call) => ofCall? call
    | none => none

end Test

end RelQuery
