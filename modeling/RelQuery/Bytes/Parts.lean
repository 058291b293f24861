import RelQuery.Bytes.Scanner
import RelQuery.Filter.Lambda

/-!
# Cutting texts by position

What takes a text apart at the positions that the scanners find. Every part that is cut out is a `slice`, which ends the
run where it would cut through a character.

* `splitComma`, `unquote` : the two sides of a comma, and the value of a literal;
* `readTest` : the test that a span stands for;
* `splitLambda` : property and body of a lambda filter;
* `dropDanglingAnd` : a condition without an `AND` at its end.
-/

namespace RelQuery.Bytes

open Text

/-- The text without blanks at its ends. -/
def trimmed (s : String) : String :=
  String.ofList (trim s.toList)

/-- The two sides of the first comma outside literals and parentheses. -/
def splitComma (s : String) : Checked (Option (String × String)) := do
  match ← commaAt (bytes s) with
  | none => return none
  | some i =>
    let left ← slice s 0 i
    let right ← slice s (i + 1) s.utf8ByteSize
    return some (left, right)

/-- The value of a text between two equal quotes; any other text stands for itself. -/
def unquote (s : String) : Checked String :=
  if (bytes s).length < 2 then return s
  else do
    let first ← unitAt (bytes s) 0
    if !isMark first then return s
    else
      let last ← unitAt (bytes s) ((bytes s).length - 1)
      if first ≠ last then return s
      else
        let inner ← slice s 1 (s.utf8ByteSize - 1)
        let quote := if stands '\'' first then '\'' else '"'
        if Text.contains [quote, quote] inner.toList then
          return String.ofList (replace [quote, quote] [quote] inner.toList)
        else return inner

/-- The test `path eq literal` of a span in which the word stands at `i`. -/
def readSides (span : String) (i : Nat) : Checked (Option Test) := do
  let path ← slice span 0 i
  let column := Test.columnOf path.toList
  let literal ← slice span (i + width UInt8 Test.eqWord) span.utf8ByteSize
  if column.isEmpty ∨ (trim literal.toList).isEmpty then return none
  else
    let value ← unquote (trimmed literal)
    return some ⟨column, .equals, value.toList⟩

/-- The test `contains(path, literal)` of a span in which the word stands at `i`. -/
def readCall (span : String) (i : Nat) : Checked (Option Test) := do
  let call ← slice span i span.utf8ByteSize
  match offset? ['('] call with
  | none => return none
  | some offset =>
    let start := i + offset
    match ← matchingParen (bytes span) start with
    | none => return none
    | some close =>
      let rest ← slice span (close + 1) span.utf8ByteSize
      if isBlankText rest.toList then
        let arguments ← slice span (start + 1) close
        match ← splitComma arguments with
        | none => return none
        | some (path, literal) =>
          let column := Test.columnOf path.toList
          let value ← unquote (trimmed literal)
          if column.isEmpty then return none else return some ⟨column, .contains, value.toList⟩
      else return none

/-- The test that a span stands for. -/
def readTest (span : String) : Checked (Option Test) := do
  match ← findOutside Test.eqWord (bytes span) with
  | some i => readSides span i
  | none =>
    match ← findOutside Test.containsWord (bytes span) with
    | some i => readCall span i
    | none => return none

/-- Takes the text of a lambda filter apart. -/
def splitLambda (raw : String) : Checked (Except QueryError LambdaText) := do
  match offset? Filter.marker.toList raw with
  | none => return .error (.malformedExpression raw .missingMarker)
  | some marker =>
    let front ← slice raw 0 marker
    let property := LambdaText.propertyOf front.toList
    if property.isEmpty then return .error (.malformedExpression raw .missingProperty)
    else
      let start := marker + width UInt8 Filter.marker.toList - 1
      match ← matchingParen (bytes raw) start with
      | none => return .error (.malformedExpression raw .unclosedLambda)
      | some close =>
        let lambda ← slice raw (start + 1) close
        match offset? [':'] lambda with
        | none => return .error (.malformedExpression raw .missingVariable)
        | some colon =>
          let body ← slice lambda (colon + 1) lambda.utf8ByteSize
          return .ok ⟨String.ofList property, trimmed body⟩

/-- A text without an `AND`, in any case, behind a blank at its end. -/
def dropAnd (text : String) : Checked String :=
  if text.utf8ByteSize < 3 then return text
  else
    match front? text (text.utf8ByteSize - 3) with
    | none => return text
    | some head => do
      let tail ← slice text head.utf8ByteSize text.utf8ByteSize
      if tail.toList.map Char.toLower = "and".toList ∧ head.toList.getLast?.any isBlank then
        return String.ofList (trimEnd head.toList)
      else return text

/-- A condition without trailing blanks and without an `AND` at its end. -/
def dropDanglingAnd (s : String) : Checked String :=
  dropAnd (String.ofList (trimEnd s.toList))

end RelQuery.Bytes
