/-!
# TOML tables

A table remembers how it came about, since that decides what a document may still add to it.

* `Toml.assign?` writes a value under a dotted key, `Toml.openTable?` opens the table of a header; both refuse to define
  anything twice.
-/

namespace RelQuery

/-- How a table came about: on the way to a table of a longer header, by its own header, by a dotted key, or between
braces. -/
inductive TableKind where
  | onTheWay
  | header
  | dotted
  | braced
  deriving DecidableEq, Repr

/-- A TOML value: a string, an integer, an array or a table. -/
inductive Toml where
  | text (value : List Char)
  | integer (value : Int)
  | array (items : List Toml)
  | table (kind : TableKind) (members : List (List Char × Toml))
  deriving Repr

namespace Toml

/-- The keys and values of a table. -/
abbrev Members := List (List Char × Toml)

/-- The members with the value of a key replaced, or with a new member. -/
def put (key : List Char) (value : Toml) : Members → Members
  | [] => [(key, value)]
  | (k, v) :: members => if k = key then (k, value) :: members else (k, v) :: put key value members

/-- Writes a value under a dotted key, whose tables must be those of dotted keys. -/
def assign? (value : Toml) : List (List Char) → Members → Option Members
  | [], _ => none
  | [key], members => if (members.lookup key).isSome then none else some (put key value members)
  | key :: path, members =>
    match members.lookup key with
    | none => (assign? value path []).map fun inner => put key (.table .dotted inner) members
    | some (.table .dotted inner) =>
      (assign? value path inner).map fun inner => put key (.table .dotted inner) members
    | some _ => none

/-- Opens the table of a header, which must be new or have been on the way only. -/
def openTable? : List (List Char) → Members → Option Members
  | [], _ => none
  | [key], members =>
    match members.lookup key with
    | none => some (put key (.table .header []) members)
    | some (.table .onTheWay inner) => some (put key (.table .header inner) members)
    | some _ => none
  | key :: path, members =>
    match members.lookup key with
    | none => (openTable? path []).map fun inner => put key (.table .onTheWay inner) members
    | some (.table .braced _) => none
    | some (.table kind inner) => (openTable? path inner).map fun inner => put key (.table kind inner) members
    | some _ => none

/-- Changes the members of the table under a header. -/
def within? (change : Members → Option Members) : List (List Char) → Members → Option Members
  | [], members => change members
  | key :: path, members =>
    match members.lookup key with
    | some (.table kind inner) =>
      (within? change path inner).map fun inner => put key (.table kind inner) members
    | _ => none

end Toml

end RelQuery
