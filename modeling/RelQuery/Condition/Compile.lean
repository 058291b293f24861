import RelQuery.Bindings
import RelQuery.Condition.Outline
import RelQuery.Condition.Test

/-!
# Compiling a filter expression

The body of a lambda filter, such as `x/name eq 'a' and (x/age eq 3)`, becomes a condition and the bindings of its
parameters. Tests are numbered from left to right through all groups; a counter is kept beside the bindings.

* `Condition.compile` reads the outline, then each test, then checks the condition; the first fault in text order wins.
-/

namespace RelQuery

namespace Condition

/-- The value that a test binds. -/
def boundValue (d : Dialect) (test : Test) : String :=
  match test.comparison with
  | .equals => String.ofList test.value
  | .contains => d.wrap (String.ofList test.value)

/-- The parameters of a condition that is being read: those bound so far, and the number of the next. -/
structure Parameters where
  bound : Bindings := .empty
  next : Nat := 0

/-- Binds the value of a test to the next parameter. -/
def bindValue (d : Dialect) (test : Test) (ps : Parameters) : Except QueryError (Node × Parameters) :=
  let param := d.paramName ps.next
  match ps.bound.insert? param (boundValue d test) with
  | none => .error (.parameterConflict param)
  | some bound => .ok (.test (String.ofList test.column) test.comparison param, ⟨bound, ps.next + 1⟩)

/-- Reads one test and binds its value to the next parameter. -/
def bindTest (d : Dialect) (span : List Char) (ps : Parameters) : Except QueryError (Node × Parameters) :=
  match Test.ofSpan? span with
  | none => .error (.malformedPredicate (String.ofList span))
  | some test => bindValue d test ps

mutual

/-- Reads one piece of an outline behind the given parameters. -/
def ofPiece (d : Dialect) (source : String) (ps : Parameters) : Piece → Except QueryError (Node × Parameters)
  | .span text => bindTest d text ps
  | .link connective => .ok (.link connective, ps)
  | .fault fault => .error (.malformedExpression source fault)
  | .group pieces =>
    match ofPieces d source ps pieces with
    | .ok (nodes, ps) => .ok (.group nodes, ps)
    | .error e => .error e

/-- Reads the pieces of an outline behind the given parameters. -/
def ofPieces (d : Dialect) (source : String) (ps : Parameters) :
    List Piece → Except QueryError (Condition × Parameters)
  | [] => .ok ([], ps)
  | piece :: pieces =>
    match ofPiece d source ps piece with
    | .error e => .error e
    | .ok (node, ps) =>
      match ofPieces d source ps pieces with
      | .error e => .error e
      | .ok (nodes, ps) => .ok (node :: nodes, ps)

end

/-- The condition that a filter expression stands for, with the bindings of its parameters. -/
def compile (d : Dialect) (source : String) : Except QueryError (Condition × Bindings) :=
  match ofPieces d source {} (Outline.ofText source.toList) with
  | .error e => .error e
  | .ok (nodes, ps) =>
    match violation? nodes with
    | some violation => .error (.malformedExpression source (.violation violation))
    | none => .ok (nodes, ps.bound)

end Condition

end RelQuery
