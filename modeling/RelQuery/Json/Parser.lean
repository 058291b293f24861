import RelQuery.Json.Token
import RelQuery.Text.Front

/-!
# Reading JSON texts

* `Json.parse?` : the tree of a text, if the text is one JSON value and nothing else.

Nesting is not bounded, and a string need not stand for a text; `Json.text?` decides that.
-/

namespace RelQuery.Json

open Text

mutual

/-- Reads one value. -/
def value? (ts : List Token) : Option (Front Json ts) :=
  match ts with
  | .null :: rest => some ⟨.null, rest, Nat.lt_succ_self _⟩
  | .bool b :: rest => some ⟨.bool b, rest, Nat.lt_succ_self _⟩
  | .number literal :: rest => some ⟨.number literal, rest, Nat.lt_succ_self _⟩
  | .string literal :: rest => some ⟨.string literal, rest, Nat.lt_succ_self _⟩
  | .mark '[' :: .mark ']' :: rest => some ⟨.array [], rest, Nat.lt_succ_of_lt (Nat.lt_succ_self _)⟩
  | .mark '[' :: rest => (items? rest).map (·.within .array (Nat.le_succ _))
  | .mark '{' :: .mark '}' :: rest => some ⟨.object [], rest, Nat.lt_succ_of_lt (Nat.lt_succ_self _)⟩
  | .mark '{' :: rest => (members? rest).map (·.within .object (Nat.le_succ _))
  | _ => none
termination_by (ts.length, 0)

/-- Reads the items of an array, of which there is one at least, and the closing bracket. -/
def items? (ts : List Token) : Option (Front (List Json) ts) :=
  match value? ts with
  | none => none
  | some item =>
    match hr : item.rest with
    | .mark ']' :: rest => some ⟨[item.value], rest, Front.length_lt hr⟩
    | .mark ',' :: rest => (items? rest).map (·.within (item.value :: ·) (Nat.le_of_lt (Front.length_lt hr)))
    | _ => none
termination_by (ts.length, 1)
decreasing_by
  · exact Prod.Lex.right _ (by decide)
  · exact Prod.Lex.left _ _ (Front.length_lt hr)

/-- Reads the members of an object, of which there is one at least, and the closing brace. -/
def members? (ts : List Token) : Option (Front (List (List Char × Json)) ts) :=
  match ts with
  | .string key :: .mark ':' :: rest =>
    match value? rest with
    | none => none
    | some value =>
      match hr : value.rest with
      | .mark '}' :: rest' =>
        have hlt := Nat.lt_add_right 2 (Front.length_lt hr)
        some ⟨[(key, value.value)], rest', hlt⟩
      | .mark ',' :: rest' =>
        have hlt := Nat.lt_add_right 2 (Front.length_lt hr)
        (members? rest').map (·.within ((key, value.value) :: ·) (Nat.le_of_lt hlt))
      | _ => none
  | _ => none
termination_by (ts.length, 1)
decreasing_by
  · exact Prod.Lex.left _ _ (Nat.lt_succ_of_lt (Nat.lt_succ_self _))
  · exact Prod.Lex.left _ _ hlt

end

/-- The tree of a JSON text. -/
def parse? (s : String) : Option Json := do
  let ts ← tokens? s.toList
  match ← value? ts with
  | ⟨value, [], _⟩ => some value
  | _ => none

end RelQuery.Json
