import RelQuery.Entity
import Mathlib.Data.List.Nodup

/-!
# Declaring an entity

An entity may come with any columns. One that is declared begins with the key `id` and is given keys, columns and
relations, in any order: a new key takes the first place, from wherever it stood, and drives out the former key; a new
column goes to the end, unless it is there already. So its key stands first, and no column stands twice.

* `Entity.Keyed` : what holds of every declared entity; `Entity.Keyed.declare`, `Entity.keyed_declareAll` : it does;
* `Entity.layout_declareAll` : the key and the columns are what the declarations make of a plain list.
-/

namespace RelQuery

namespace Entity

variable {e : Entity} {column : String} {columns : List String}

/-- What an entity is given. -/
inductive Declaration where
  | key (column : String)
  | columns (columns : List String)
  | relation (relation : Relation)

/-- The entity with what it is given. -/
def declare (e : Entity) : Declaration → Entity
  | .key column => e.withKey column
  | .columns columns => e.withColumns columns
  | .relation relation => e.withRelation relation

/-- The entity with all that it is given, from left to right. -/
def declareAll (e : Entity) (ds : List Declaration) : Entity :=
  ds.foldl declare e

/-! ## The key in front, no column twice -/

/-- The key is the first column, and no column stands twice. -/
structure Keyed (e : Entity) : Prop where
  head : e.columns.head? = some e.key
  nodup : e.columns.Nodup

theorem keyed_new (name table : String) : ({ name, table } : Entity).Keyed := ⟨rfl, List.nodup_singleton "id"⟩

namespace Keyed

theorem columns_ne_nil (h : e.Keyed) : e.columns ≠ [] := by
  intro hc
  have := h.head
  simp [hc] at this

theorem withKey (h : e.Keyed) (column : String) : (e.withKey column).Keyed where
  head := rfl
  nodup := List.nodup_cons.2 ⟨by simp, h.nodup.filter _⟩

theorem withColumn (h : e.Keyed) (column : String) : (e.withColumn column).Keyed := by
  rw [Entity.withColumn]
  split
  next => exact h
  next hc =>
    refine ⟨?_, h.nodup.append (List.nodup_singleton column) (List.disjoint_singleton.2 hc)⟩
    exact (List.head?_append_of_ne_nil _ h.columns_ne_nil).trans h.head

theorem withColumns (h : e.Keyed) (columns : List String) : (e.withColumns columns).Keyed := by
  rw [Entity.withColumns]
  induction columns generalizing e with
  | nil => exact h
  | cons column columns ih => exact ih (h.withColumn column)

/-- **A declaration** leaves the key in front, and repeats no column. -/
theorem declare (h : e.Keyed) (d : Declaration) : (e.declare d).Keyed := by
  cases d with
  | key column => exact h.withKey column
  | columns columns => exact h.withColumns columns
  | relation relation => exact ⟨h.head, h.nodup⟩

theorem declareAll (h : e.Keyed) (ds : List Declaration) : (e.declareAll ds).Keyed := by
  induction ds generalizing e with
  | nil => exact h
  | cons d ds ih => exact ih (h.declare d)

end Keyed

/-- A declared entity has its key in front, and no column twice. -/
theorem keyed_declareAll (name table : String) (ds : List Declaration) : (declareAll { name, table } ds).Keyed :=
  (keyed_new name table).declareAll ds

/-! ## Keys and columns as lists -/

/-- A key and a list of columns. -/
structure Layout where
  key : String
  columns : List String

/-- The key and all columns. -/
def layout (e : Entity) : Layout :=
  ⟨e.key, e.columns⟩

/-- What a declaration does to the list: a key drops the former key and itself from it and is put in front, and columns
are put behind it that it does not hold. -/
def Layout.declare (l : Layout) : Declaration → Layout
  | .key column => ⟨column, column :: l.columns.filter fun c => c ≠ l.key ∧ c ≠ column⟩
  | .columns columns =>
    ⟨l.key, columns.foldl (fun known column => if column ∈ known then known else known ++ [column]) l.columns⟩
  | .relation _ => l

theorem layout_withColumn (e : Entity) (column : String) : (e.withColumn column).layout =
    ⟨e.key, if column ∈ e.columns then e.columns else e.columns ++ [column]⟩ := by
  rw [withColumn]
  split <;> rfl

theorem layout_withColumns : (e.withColumns columns).layout = e.layout.declare (.columns columns) := by
  rw [withColumns]
  induction columns generalizing e with
  | nil => rfl
  | cons column columns ih =>
    obtain ⟨hkey, hcolumns⟩ := Layout.mk.inj (e.layout_withColumn column)
    rw [List.foldl_cons, ih, layout, hkey, hcolumns]
    rfl

theorem layout_declare (e : Entity) (d : Declaration) : (e.declare d).layout = e.layout.declare d := by
  cases d with
  | key column => rfl
  | columns columns => exact layout_withColumns
  | relation relation => rfl

theorem layout_declareAll (e : Entity) (ds : List Declaration) :
    (e.declareAll ds).layout = ds.foldl Layout.declare e.layout := by
  induction ds generalizing e with
  | nil => rfl
  | cons d ds ih =>
    rw [List.foldl_cons, ← layout_declare]
    exact ih (e.declare d)

end Entity

end RelQuery
