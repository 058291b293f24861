import RelQuery.Condition.Compile
import RelQuery.Condition.Sql
import RelQuery.Entity
import RelQuery.Filter

/-!
# Lambda filters

A lambda filter `property/any(x: body)` asks for rows that have a related row of which the body holds. It becomes an
`IN (SELECT DISTINCT …)` condition on the key of the declaring table.

* `LambdaText.ofText` takes the text apart, `LambdaFilter.ofText` also resolves the relation and compiles the body;
* `LambdaFilter.fragment` is the SQL of the condition.
-/

namespace RelQuery

/-- The text of a lambda filter, taken apart. -/
structure LambdaText where
  property : String
  body : String
  deriving DecidableEq, Repr

namespace LambdaText

open Text

/-- The navigation property in front of the marker; parentheses that open around the filter are dropped. -/
def propertyOf (front : List Char) : List Char :=
  trim ((trim front).dropWhile (· == '('))

/-- Takes the text of a lambda filter apart: the property, the bound variable up to the first colon, the body. What
stands behind the closing parenthesis does not matter. -/
def ofText (raw : String) : Except QueryError LambdaText :=
  match cut? Filter.marker.toList raw.toList with
  | none => .error (.malformedExpression raw .missingMarker)
  | some (front, opened) =>
    let property := propertyOf front
    if property.isEmpty then .error (.malformedExpression raw .missingProperty)
    else
      match insideParen? opened with
      | none => .error (.malformedExpression raw .unclosedLambda)
      | some (lambda, _) =>
        match cut? [':'] lambda with
        | none => .error (.malformedExpression raw .missingVariable)
        | some (_, body) => .ok ⟨String.ofList property, String.ofList (trim body)⟩

end LambdaText

/-- A lambda filter on the rows of `root` under the alias `target`. -/
structure LambdaFilter where
  target : String
  root : Entity
  relation : Relation
  condition : Condition
  bindings : Bindings

namespace LambdaFilter

/-- Resolves and compiles a lambda filter. -/
def ofText (d : Dialect) (target : String) (root : Entity) (raw : String) : Except QueryError LambdaFilter :=
  match LambdaText.ofText raw with
  | .error e => .error e
  | .ok text =>
    match root.requireRelation text.property .filter with
    | .error e => .error e
    | .ok relation =>
      match Condition.compile d text.body with
      | .error e => .error e
      | .ok (condition, bindings) => .ok { target, root, relation, condition, bindings }

/-- The body's condition as SQL on the related table. -/
def conditionSql (d : Dialect) (l : LambdaFilter) : String :=
  l.condition.sql d.quoting d.childAlias

/-- The filter as SQL: the key is among those of rows that are joined to a related row of which the body holds. -/
def fragment (d : Dialect) (l : LambdaFilter) : String :=
  let q := d.quoting
  let parentKey := q.qualify d.parentAlias l.root.key
  let childKey := q.qualify d.childAlias l.relation.foreignKey
  s!"{q.qualify l.target l.root.key} IN (SELECT DISTINCT {parentKey} FROM {q.quote l.root.table} AS " ++
    s!"{q.quote d.parentAlias} JOIN {q.quote l.relation.table} AS {q.quote d.childAlias} ON " ++
    s!"{parentKey} = {childKey} WHERE {l.conditionSql d})"

end LambdaFilter

/-- The lambda filter of a request's filter, if it has one. -/
def Filter.resolve (d : Dialect) (target : String) (root : Entity) (filter : Option Filter) :
    Except QueryError (Option LambdaFilter) :=
  match filter.bind Filter.lambda? with
  | none => .ok none
  | some raw =>
    match LambdaFilter.ofText d target root raw with
    | .error e => .error e
    | .ok l => .ok (some l)

end RelQuery
