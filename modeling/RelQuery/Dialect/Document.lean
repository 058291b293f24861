import RelQuery.Dialect
import RelQuery.Toml.Document

/-!
# Dialects as documents

A dialect document is a TOML table of fields, each of which may be left out.

* `Dialect.ofDocument` reads a document, `Dialect.ofFile` the contents of a file; both refuse an unusable dialect.
-/

namespace RelQuery.Dialect

/-- The text of a value. -/
def textOf? : Toml → Option String
  | .text value => some (String.ofList value)
  | _ => none

/-- The number of attempts that a value stands for: an integer of 32 bits. -/
def attemptsOf? : Toml → Option Nat
  | .integer n => if 0 ≤ n ∧ n < 4294967296 then some n.toNat else none
  | _ => none

/-- The quoting style that a value stands for: its name, or a table with the name as its only key and nothing in it. -/
def quotingOf? : Toml → Option Quoting
  | .text value => Quoting.ofName? (String.ofList value)
  | .table _ [(name, .table _ [])] => Quoting.ofName? (String.ofList name)
  | .table _ [(name, .array [])] => Quoting.ofName? (String.ofList name)
  | _ => none

/-- The dialect with one field set. -/
def withField? (d : Dialect) (key : String) (value : Toml) : Option Dialect :=
  match key with
  | "param_prefix" => (textOf? value).map fun v => { d with paramStem := v }
  | "wildcard" => (textOf? value).map fun v => { d with wildcard := v }
  | "quote" => (quotingOf? value).map fun v => { d with quoting := v }
  | "parent_alias" => (textOf? value).map fun v => { d with parentAlias := v }
  | "child_alias" => (textOf? value).map fun v => { d with childAlias := v }
  | "include_placeholder" => (textOf? value).map fun v => { d with placeholder := v }
  | "max_alias_attempts" => (attemptsOf? value).map fun v => { d with aliasAttempts := v }
  | "no_order_sentinel" => (textOf? value).map fun v => { d with noOrder := v }
  | _ => none

/-- The dialect with the fields of a table set. -/
def withFields? (d : Dialect) : Toml.Members → Option Dialect
  | [] => some d
  | (key, value) :: members => (d.withField? (String.ofList key) value).bind (·.withFields? members)

/-- The dialect that a document describes. -/
def ofDocument (text : String) : Except DialectFault Dialect :=
  match (Toml.parse? text).bind ({} : Dialect).withFields? with
  | none => .error (.document "the document is not a table of dialect fields")
  | some d =>
    match d.fault? with
    | some fault => .error fault
    | none => .ok d

/-- The dialect that the contents of the file at `path` describe; `none` stands for a missing file. -/
def ofFile (path : String) (contents : Option ByteArray) : Except DialectFault Dialect :=
  match contents with
  | none => .error (.file path "no such file")
  | some bytes =>
    match String.fromUTF8? bytes with
    | none => .error (.file path "not a text in UTF-8")
    | some text => ofDocument text

end RelQuery.Dialect
