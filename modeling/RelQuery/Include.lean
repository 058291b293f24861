import RelQuery.Bindings
import RelQuery.Text.Split

/-!
# Includes

An include asks for the related rows of one navigation property; includes nest. The clauses of an include may name the
joined entity by the dialect's placeholder.
-/

namespace RelQuery

/-- The columns that an include selects. -/
inductive Selection where
  | all
  | columns (columns : List String)
  deriving DecidableEq, Repr

/-- A star selects all; any other text is a comma-separated list of columns. -/
def Selection.ofText (text : String) : Selection :=
  let trimmed := Text.trim text.toList
  if trimmed = ['*'] then .all else .columns ((Text.entries trimmed).map String.ofList)

/-- What an include says of its own join. -/
structure IncludeClause where
  property : String
  selection : Option Selection := none
  condition : Option String := none
  bindings : Bindings := .empty
  order : Option String := none

/-- An include with those nested in it. -/
inductive Include where
  | node (clause : IncludeClause) (children : List Include)

mutual

/-- The number of includes in a tree. -/
def Include.size : Include → Nat
  | .node _ children => 1 + Include.sizeAll children

/-- The number of includes in a forest. -/
def Include.sizeAll : List Include → Nat
  | [] => 0
  | tree :: forest => tree.size + Include.sizeAll forest

end

end RelQuery
