import RelQuery.Text.Decimal

/-!
# Dialects

A dialect fixes how SQL fragments are written: the names of parameters, the wildcard, the quoting of identifiers and
the aliases inside a lowered lambda filter. Every field has a default.
-/

namespace RelQuery

/-- How an identifier is quoted. -/
inductive Quoting where
  | none
  | backtick
  | double
  deriving DecidableEq, Repr

namespace Quoting

/-- The style's name in a dialect document. -/
def name : Quoting → String
  | none => "none"
  | backtick => "backtick"
  | double => "double"

/-- The style with the given name. -/
def ofName? (s : String) : Option Quoting :=
  [none, backtick, double].find? (·.name == s)

/-- The character written on both sides of an identifier. -/
def mark : Quoting → String
  | none => ""
  | backtick => "`"
  | double => "\""

/-- An identifier between the style's marks; a mark inside the identifier stays as it is. -/
def quote (q : Quoting) (identifier : String) : String :=
  q.mark ++ identifier ++ q.mark

/-- A column of an alias, both quoted. -/
def qualify (q : Quoting) (aliasName column : String) : String :=
  q.quote aliasName ++ "." ++ q.quote column

end Quoting

/-- The knobs of the SQL that this library writes. -/
structure Dialect where
  /-- What a parameter's number is written behind. -/
  paramStem : String := "param_"
  /-- What a `contains` value is put between. -/
  wildcard : String := "%"
  quoting : Quoting := .none
  /-- The alias of the declaring table inside a lowered lambda filter. -/
  parentAlias : String := "parent"
  /-- The alias of the related table inside a lowered lambda filter. -/
  childAlias : String := "child"
  /-- The word of an include's clauses that stands for the alias its join is given. -/
  placeholder : String := "typeorm_query"
  /-- How many candidates are tried for a join's alias; at least one always is. -/
  aliasAttempts : Nat := 32
  /-- The order text that means "no explicit order". -/
  noOrder : String := "1"
  deriving DecidableEq, Repr

/-- Why a dialect document is refused. -/
inductive DialectFault where
  | emptyParamStem
  | emptyAlias
  | equalAliases (aliasName : String)
  /-- The document is not the text of a dialect. -/
  | document (message : String)
  /-- The file at `path` is missing or holds no text. -/
  | file (path message : String)
  /-- A reason given in words. -/
  | stated (message : String)
  deriving DecidableEq, Repr

/-- The reason in words. -/
def DialectFault.message : DialectFault → String
  | emptyParamStem => "param_prefix must not be empty"
  | emptyAlias => "parent_alias and child_alias must not be empty"
  | equalAliases aliasName => s!"parent_alias and child_alias must differ (both '{aliasName}')"
  | document message => message
  | file path message => s!"{path}: {message}"
  | stated message => message

namespace Dialect

/-- The first rule of a usable dialect that this one breaks. -/
def fault? (d : Dialect) : Option DialectFault :=
  if d.paramStem = "" then some .emptyParamStem
  else if d.parentAlias = "" ∨ d.childAlias = "" then some .emptyAlias
  else if d.parentAlias = d.childAlias then some (.equalAliases d.parentAlias)
  else none

/-- The name of the parameter with the given number. -/
def paramName (d : Dialect) (index : Nat) : String :=
  d.paramStem ++ Text.decimalText index

/-- A value between two wildcards. -/
def wrap (d : Dialect) (value : String) : String :=
  d.wildcard ++ value ++ d.wildcard

end Dialect

end RelQuery
