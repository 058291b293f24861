import RelQuery.Condition
import RelQuery.Dialect

/-!
# Errors

Every failure names its cause. A cause has a class, an origin and a wording, each given by one function.
-/

namespace RelQuery

/-- The stage of a query that an error is attributed to. -/
inductive Origin where
  | lambda
  | filter
  | joins
  | query
  | dialect
  deriving DecidableEq, Repr

/-- The origin's label. -/
def Origin.label : Origin → String
  | lambda => "lambda"
  | filter => "filter"
  | joins => "include"
  | query => "query"
  | dialect => "config"

/-- The kind of thing that went wrong. -/
inductive ErrorClass where
  | malformed
  | notFound
  | conflict
  | invariantViolation
  | external
  deriving DecidableEq, Repr

/-- The class's label. -/
def ErrorClass.label : ErrorClass → String
  | malformed => "malformed"
  | notFound => "not_found"
  | conflict => "conflict"
  | invariantViolation => "invariant_violation"
  | external => "external"

/-- Why a lambda expression or an order list cannot be read. -/
inductive Fault where
  | unterminatedLiteral
  | unclosedContains
  | unclosedParen
  | unexpectedClose
  | missingOperand
  | violation (violation : Violation)
  | missingMarker
  | missingProperty
  | unclosedLambda
  | missingVariable
  | unknownDirection (word : String)
  | extraWords (entry : String)
  /-- A reason given in words. -/
  | stated (reason : String)
  deriving DecidableEq, Repr

/-- The reason in words. -/
def Fault.reason : Fault → String
  | unterminatedLiteral => "unterminated string literal"
  | unclosedContains => "unbalanced parentheses in contains()"
  | unclosedParen => "unbalanced parentheses"
  | unexpectedClose => "unexpected ')'"
  | missingOperand => "missing operand"
  | violation v => v.message
  | missingMarker => "missing /any( marker"
  | missingProperty => "missing navigation property before /any("
  | unclosedLambda => "unterminated lambda body"
  | missingVariable => "missing lambda variable"
  | unknownDirection word => s!"unknown order direction '{word}'"
  | extraWords entry => s!"unexpected tokens in order entry '{entry}'"
  | stated reason => reason

/-- The two keys of a request that hold a number. -/
inductive PagingKey where
  | top
  | skip
  deriving DecidableEq, Repr

/-- The key as a request writes it. -/
def PagingKey.name : PagingKey → String
  | top => "$top"
  | skip => "$skip"

/-- Every failure of this library. -/
inductive QueryError where
  | malformedExpression (expression : String) (fault : Fault)
  | malformedPredicate (predicate : String)
  | unknownRelation (entity property : String) (origin : Origin)
  | unknownEntity (entity : String)
  | noFreeAlias (aliasName : String)
  | parameterConflict (name : String)
  | invalidPaging (key : PagingKey) (value : String)
  | parse (message : String)
  | execute (message : String)
  | dialect (fault : DialectFault)
  deriving DecidableEq, Repr

namespace QueryError

/-- The error's class. -/
def errorClass : QueryError → ErrorClass
  | malformedExpression .. | malformedPredicate _ | invalidPaging .. | dialect _ => .malformed
  | unknownRelation .. | unknownEntity _ => .notFound
  | parameterConflict _ => .conflict
  | noFreeAlias _ => .invariantViolation
  | parse _ | execute _ => .external

/-- The stage the error is attributed to. -/
def origin : QueryError → Origin
  | malformedExpression .. | malformedPredicate _ | parameterConflict _ => .lambda
  | unknownRelation _ _ origin => origin
  | noFreeAlias _ => .joins
  | unknownEntity _ | invalidPaging .. | parse _ | execute _ => .query
  | dialect _ => .dialect

/-- The error in words. -/
def message : QueryError → String
  | malformedExpression expression fault => s!"malformed expression '{expression}': {fault.reason}"
  | malformedPredicate predicate =>
    s!"malformed predicate '{predicate}': expected `<path> eq <value>` or `contains(<path>, <value>)`"
  | unknownRelation entity property _ => s!"unknown relation '{property}' on entity '{entity}'"
  | unknownEntity entity => s!"unknown entity '{entity}'"
  | noFreeAlias aliasName => s!"unable to find a free join alias for '{aliasName}'"
  | parameterConflict name => s!"parameter '{name}' is already bound to a different value"
  | invalidPaging key value => s!"invalid paging value for {key.name}: '{value}'"
  | parse message => s!"query parse failed: {message}"
  | execute message => s!"query execution failed: {message}"
  | dialect fault => s!"configuration error: {fault.message}"

/-- The error in words, behind its origin and its class. -/
def classified (e : QueryError) : String :=
  s!"{e.origin.label}:{e.errorClass.label}: {e.message}"

end QueryError

end RelQuery
