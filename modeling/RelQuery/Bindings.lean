import RelQuery.Error

/-!
# Bindings

Parameter names with their values, in binding order. A name is bound at most once, so a binding never changes.

* `Bindings.insert?` binds a name, and refuses to bind it to a second value;
* `Bindings.extend` binds a list of names up to the first conflict and keeps what it bound before.
-/

namespace RelQuery

/-- Names with their values, in binding order, no name twice. -/
@[ext] structure Bindings where
  entries : List (String × String) := []
  nodup : (entries.map Prod.fst).Nodup := by simp

namespace Bindings

/-- No name is bound. -/
def empty : Bindings := {}

/-- The bound names in binding order. -/
def names (b : Bindings) : List String :=
  b.entries.map Prod.fst

/-- The number of bound names. -/
def size (b : Bindings) : Nat :=
  b.entries.length

/-- No name is bound. -/
def isEmpty (b : Bindings) : Bool :=
  b.entries.isEmpty

/-- The value that a name is bound to. -/
def get? (b : Bindings) (name : String) : Option String :=
  b.entries.lookup name

/-- Whether a name is bound. -/
def contains (b : Bindings) (name : String) : Bool :=
  (b.get? name).isSome

theorem get?_eq_none_iff {b : Bindings} {name : String} : b.get? name = none ↔ name ∉ b.names := by
  simp only [get?, names, List.lookup_eq_none_iff, List.mem_map, bne_iff_ne, ne_eq]
  constructor
  · rintro h ⟨entry, hm, rfl⟩
    exact h entry hm rfl
  · rintro h entry hm rfl
    exact h ⟨entry, hm, rfl⟩

/-- Binds a name that is free. -/
def push (b : Bindings) (name value : String) (free : b.get? name = none) : Bindings where
  entries := b.entries ++ [(name, value)]
  nodup := by
    have h := get?_eq_none_iff.1 free
    simp only [names] at h
    simp only [List.map_append, List.map_cons, List.map_nil]
    exact List.nodup_append.2 ⟨b.nodup, by simp, fun a ha c hc => by simp_all; rintro rfl; simp_all⟩

/-- Binds a name. To bind it to its own value again changes nothing; another value is refused. -/
def insert? (b : Bindings) (name value : String) : Option Bindings :=
  match h : b.get? name with
  | none => some (b.push name value h)
  | some bound => if bound = value then some b else none

/-- Binds names up to the first that is bound to another value, which is returned beside what was bound. -/
def extend (b : Bindings) : List (String × String) → Bindings × Option String
  | [] => (b, none)
  | (name, value) :: entries =>
    match b.insert? name value with
    | some b' => b'.extend entries
    | none => (b, some name)

/-- The bindings of both; a name that they bind differently is a conflict. -/
def merge (b other : Bindings) : Except QueryError Bindings :=
  match b.extend other.entries with
  | (merged, none) => .ok merged
  | (_, some name) => .error (.parameterConflict name)

/-- The bindings of both, in order, for each of a list; a conflict ends it. -/
def mergeAll (b : Bindings) : List Bindings → Except QueryError Bindings
  | [] => .ok b
  | other :: others =>
    match b.merge other with
    | .ok merged => merged.mergeAll others
    | .error e => .error e

/-- The bindings of a list; of two entries for one name the first stays. -/
def ofList (entries : List (String × String)) : Bindings :=
  entries.foldl (fun b (name, value) => (b.insert? name value).getD b) empty

end Bindings

end RelQuery
