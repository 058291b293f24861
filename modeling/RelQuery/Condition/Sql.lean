import RelQuery.Condition
import RelQuery.Dialect

/-!
# Conditions as SQL

A condition prints in its own order: tests as `alias.column operator :parameter`, connectives as their words, groups in
parentheses, all parted by single spaces.
-/

namespace RelQuery

mutual

/-- One element of a condition as SQL. -/
def Node.sql (q : Quoting) (aliasName : String) : Node → String
  | .test column comparison param => s!"{q.qualify aliasName column} {comparison.sql} :{param}"
  | .link connective => connective.keyword
  | .group nodes => "(" ++ " ".intercalate (Condition.sqlParts q aliasName nodes) ++ ")"

/-- The elements of a condition as SQL. -/
def Condition.sqlParts (q : Quoting) (aliasName : String) : List Node → List String
  | [] => []
  | node :: nodes => node.sql q aliasName :: Condition.sqlParts q aliasName nodes

end

/-- A condition as SQL, its columns taken from `alias`. -/
def Condition.sql (q : Quoting) (aliasName : String) (condition : Condition) : String :=
  " ".intercalate (Condition.sqlParts q aliasName condition)

end RelQuery
