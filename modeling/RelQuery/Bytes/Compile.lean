import RelQuery.Bytes.Parts

/-!
# Compiling by position

A filter expression is read by one cursor over its bytes, with the place where the pending span begins; each span is
read when it ends, and a group by a cursor of its own over its inside.

* `sequence` : the elements from a position on, behind those that were read before;
* `compile` : the condition that an expression stands for.
-/

namespace RelQuery.Bytes

open Text

/-- The beginning of a containment call. -/
def callWord : List Char :=
  "contains(".toList

/-- The text of a connective between two operands. -/
def linkText (connective : Connective) : List Char :=
  ' ' :: connective.keyword.toList ++ [' ']

/-- The connective that units begin with. -/
def link? {α : Type} [CodeUnit α] (us : List α) : Option Connective :=
  [.and, .or].find? fun connective => beginsWith (linkText connective) us

/-- Reads the pending span, which is a test, or blank behind a group. -/
def closeSpan (d : Dialect) (source span : String) (nodes : Condition) (ps : Condition.Parameters) :
    Checked (Except QueryError (Condition × Condition.Parameters)) :=
  if (trimmed span).isEmpty then
    match nodes.getLast? with
    | some (.group _) => return .ok (nodes, ps)
    | _ => return .error (.malformedExpression source .missingOperand)
  else do
    match ← readTest (trimmed span) with
    | none => return .error (.malformedPredicate (trimmed span))
    | some test =>
      match Condition.bindValue d test ps with
      | .error e => return .error e
      | .ok (node, ps) => return .ok (nodes ++ [node], ps)

theorem width_linkText_pos (connective : Connective) : 0 < width UInt8 (linkText connective) := by
  cases connective <;> decide

/-- Reads the elements from `cursor` on. The pending span begins at `start`, and `nodes` stand in front of it. -/
def sequence (d : Dialect) (source text : String) (cursor start : Nat) (nodes : Condition)
    (ps : Condition.Parameters) : Checked (Except QueryError (Condition × Condition.Parameters)) :=
  if cursor < (bytes text).length then do
    let rest ← unitsFrom (bytes text) cursor
    let u ← unitAt (bytes text) cursor
    if isMark u then
      match ← (skipQuoted (bytes text) cursor).attach with
      | ⟨none, _⟩ => return .error (.malformedExpression source .unterminatedLiteral)
      | ⟨some behind, _h⟩ => sequence d source text behind start nodes ps
    else if beginsWith callWord rest then
      match ← (matchingParen (bytes text) (cursor + width UInt8 callWord - 1)).attach with
      | ⟨none, _⟩ => return .error (.malformedExpression source .unclosedContains)
      | ⟨some close, _h⟩ => sequence d source text (close + 1) start nodes ps
    else
      match link? rest with
      | some connective =>
        let span ← slice text start cursor
        match ← closeSpan d source span nodes ps with
        | .error e => return .error e
        | .ok (nodes, ps) =>
          let behind := cursor + width UInt8 (linkText connective)
          sequence d source text behind behind (nodes ++ [.link connective]) ps
      | none =>
        if stands '(' u then
          match ← (matchingParen (bytes text) cursor).attach with
          | ⟨none, _⟩ => return .error (.malformedExpression source .unclosedParen)
          | ⟨some close, _h⟩ =>
            let span ← slice text start cursor
            if isBlankText span.toList then
              let ⟨inside, _hi⟩ ← (slice text (cursor + 1) close).attach
              match ← sequence d source inside 0 0 [] ps with
              | .error e => return .error e
              | .ok (children, ps) =>
                sequence d source text (close + 1) (close + 1) (nodes ++ [.group children]) ps
            else sequence d source text (close + 1) start nodes ps
        else if stands ')' u then return .error (.malformedExpression source .unexpectedClose)
        else sequence d source text (cursor + 1) start nodes ps
  else do
    let tail ← slice text start text.utf8ByteSize
    if isBlankText tail.toList then return .ok (nodes, ps) else closeSpan d source tail nodes ps
termination_by (text.utf8ByteSize, (bytes text).length - cursor)
decreasing_by
  · have := lt_of_skipQuoted _h
    exact Prod.Lex.right _ (by omega)
  · have := lt_of_matchingParen _h
    exact Prod.Lex.right _ (by omega)
  · have := width_linkText_pos connective
    exact Prod.Lex.right _ (by omega)
  · -- the inside of a group is shorter than the text
    have := lt_of_matchingParen _h
    have := utf8ByteSize_of_slice _hi
    exact Prod.Lex.left _ _ (by omega)
  · have := lt_of_matchingParen _h
    exact Prod.Lex.right _ (by omega)
  · have := lt_of_matchingParen _h
    exact Prod.Lex.right _ (by omega)
  · exact Prod.Lex.right _ (by omega)

/-- The condition that a filter expression stands for, with the bindings of its parameters. -/
def compile (d : Dialect) (source : String) : Checked (Except QueryError (Condition × Bindings)) := do
  match ← sequence d source source 0 0 [] {} with
  | .error e => return .error e
  | .ok (nodes, ps) =>
    match Condition.violation? nodes with
    | some violation => return .error (.malformedExpression source (.violation violation))
    | none => return .ok (nodes, ps.bound)

end RelQuery.Bytes
