import RelQuery.Condition.Sql

/-!
# The SQL of a condition, piece by piece

The SQL of a condition is fixed text with placeholders in it, one for each test.

* `Condition.sql_cons` : the SQL of an element, then that of the rest behind a blank;
* `Condition.sql_eq_join` : the pieces of a condition, put together, are its SQL;
* `Condition.placeholders_sqlPieces` : the placeholders are the condition's parameters, from left to right.
-/

namespace RelQuery

variable (q : Quoting) (aliasName : String)

/-! ## One element at a time -/

@[simp] theorem Condition.sql_nil : Condition.sql q aliasName [] = "" := by
  simp [Condition.sql, Condition.sqlParts]

theorem Condition.sql_cons (node : Node) (nodes : List Node) : Condition.sql q aliasName (node :: nodes) =
    node.sql q aliasName ++ if nodes.isEmpty then "" else " " ++ Condition.sql q aliasName nodes := by
  cases nodes with
  | nil => simp [Condition.sql, Condition.sqlParts]
  | cons node' nodes =>
    simp only [Condition.sql, Condition.sqlParts, String.intercalate_cons_cons, String.append_assoc]
    rfl

theorem Node.sql_test (column : String) (k : Comparison) (param : String) :
    (Node.test column k param).sql q aliasName = q.qualify aliasName column ++ " " ++ k.sql ++ " :" ++ param := rfl

theorem Node.sql_group (nodes : List Node) :
    (Node.group nodes).sql q aliasName = "(" ++ Condition.sql q aliasName nodes ++ ")" := rfl

/-! ## Pieces -/

/-- A piece of SQL: text as it stands, or the placeholder of a parameter. -/
inductive SqlPiece where
  | text (text : String)
  | placeholder (param : String)

namespace SqlPiece

/-- The piece as it is written; a placeholder is its parameter behind a colon. -/
def sql : SqlPiece → String
  | text s => s
  | placeholder param => ":" ++ param

/-- Pieces put together. -/
def join (pieces : List SqlPiece) : String :=
  String.join (pieces.map sql)

/-- The parameter of a placeholder. -/
def param? : SqlPiece → Option String
  | text _ => none
  | placeholder param => some param

/-- The parameters of the placeholders, from left to right. -/
def placeholders (pieces : List SqlPiece) : List String :=
  pieces.filterMap param?

@[simp] theorem join_nil : join [] = "" := rfl

@[simp] theorem join_cons (p : SqlPiece) (ps : List SqlPiece) : join (p :: ps) = p.sql ++ join ps := by
  simp [join]

@[simp] theorem join_append (ps qs : List SqlPiece) : join (ps ++ qs) = join ps ++ join qs := by
  simp [join]

@[simp] theorem placeholders_text (s : String) (ps : List SqlPiece) :
    placeholders (text s :: ps) = placeholders ps := rfl

@[simp] theorem placeholders_append (ps qs : List SqlPiece) :
    placeholders (ps ++ qs) = placeholders ps ++ placeholders qs := by
  simp [placeholders]

end SqlPiece

mutual

/-- The pieces of an element's SQL. -/
def Node.sqlPieces : Node → List SqlPiece
  | .test column comparison param =>
    [.text (q.qualify aliasName column ++ " " ++ comparison.sql ++ " "), .placeholder param]
  | .link connective => [.text connective.keyword]
  | .group nodes => .text "(" :: Condition.sqlPieces nodes ++ [.text ")"]

/-- The pieces of a condition's SQL. -/
def Condition.sqlPieces : List Node → List SqlPiece
  | [] => []
  | node :: nodes =>
    node.sqlPieces ++ if nodes.isEmpty then [] else .text " " :: Condition.sqlPieces nodes

end

mutual

theorem Node.join_sqlPieces : ∀ node : Node, SqlPiece.join (node.sqlPieces q aliasName) = node.sql q aliasName
  | .test column comparison param => by
    have hcolon : " :" ++ param = " " ++ (":" ++ param) := by
      rw [← String.append_assoc]
      rfl
    simp [Node.sqlPieces, SqlPiece.sql, Node.sql_test, hcolon, String.append_assoc]
  | .link _ => by simp [Node.sqlPieces, Node.sql, SqlPiece.sql]
  | .group nodes => by
    simp [Node.sqlPieces, Node.sql_group, SqlPiece.sql, Condition.sql_eq_join nodes, String.append_assoc]

/-- The pieces of a condition, put together, are its SQL. -/
theorem Condition.sql_eq_join : ∀ nodes : List Node,
    Condition.sql q aliasName nodes = SqlPiece.join (Condition.sqlPieces q aliasName nodes)
  | [] => by simp [Condition.sqlPieces]
  | node :: nodes => by
    rw [Condition.sql_cons, Condition.sqlPieces, SqlPiece.join_append, Node.join_sqlPieces node,
      Condition.sql_eq_join nodes]
    cases nodes <;> simp [SqlPiece.sql]

end

mutual

theorem Node.placeholders_sqlPieces : ∀ node : Node,
    SqlPiece.placeholders (node.sqlPieces q aliasName) = node.params
  | .test .. => rfl
  | .link _ => rfl
  | .group nodes => by
    rw [Node.sqlPieces, List.cons_append, SqlPiece.placeholders_text, SqlPiece.placeholders_append,
      Condition.placeholders_sqlPieces nodes]
    exact List.append_nil _

/-- The placeholders of a condition's SQL are its parameters, from left to right. -/
theorem Condition.placeholders_sqlPieces : ∀ nodes : List Node,
    SqlPiece.placeholders (Condition.sqlPieces q aliasName nodes) = Condition.params nodes
  | [] => rfl
  | node :: nodes => by
    rw [Condition.sqlPieces, SqlPiece.placeholders_append, Node.placeholders_sqlPieces node, Condition.params,
      ← Condition.placeholders_sqlPieces nodes]
    cases nodes <;> rfl

end

end RelQuery
