import RelQuery.Error

/-!
# Entities and their relations

An entity is a table with a key, the columns that a query selects by default, and relations to other entities. It may be
given as a whole, with any columns; one that is declared step by step begins with the key `id` as its only column.

* `Entity.requireRelation` finds a relation by its navigation property;
* `Catalog.entity?` finds an entity by its name.
-/

namespace RelQuery

/-- A relation from a declaring entity to the rows of a related table that refer back to it. -/
structure Relation where
  property : String
  declaring : String
  target : String
  table : String
  foreignKey : String
  targetKey : String := "id"
  deriving DecidableEq, Repr

/-- An entity: its table, the column of its key, all columns, and its relations. -/
structure Entity where
  name : String
  table : String
  key : String := "id"
  columns : List String := ["id"]
  relations : List Relation := []
  deriving DecidableEq, Repr

namespace Entity

/-- The entity with another key, which becomes the first column; the former key is no longer a column. -/
def withKey (e : Entity) (column : String) : Entity :=
  { e with key := column, columns := column :: e.columns.filter fun c => c ≠ e.key ∧ c ≠ column }

/-- The entity with one more column, unless it has that column already. -/
def withColumn (e : Entity) (column : String) : Entity :=
  if column ∈ e.columns then e else { e with columns := e.columns ++ [column] }

/-- The entity with more columns, from left to right. -/
def withColumns (e : Entity) (columns : List String) : Entity :=
  columns.foldl withColumn e

/-- The entity with one more relation. -/
def withRelation (e : Entity) (relation : Relation) : Entity :=
  { e with relations := e.relations ++ [relation] }

/-- The first relation with the given navigation property. -/
def relation? (e : Entity) (property : String) : Option Relation :=
  e.relations.find? (·.property == property)

/-- The first relation with the given navigation property; a missing one is blamed on `origin`. -/
def requireRelation (e : Entity) (property : String) (origin : Origin) : Except QueryError Relation :=
  match e.relation? property with
  | some relation => .ok relation
  | none => .error (.unknownRelation e.name property origin)

/-- Every column, behind an alias. -/
def qualifiedColumns (e : Entity) (aliasName : String) : List String :=
  e.columns.map fun column => s!"{aliasName}.{column}"

end Entity

/-- Entities under their names, no name twice. -/
structure Catalog where
  entities : List Entity := []
  deriving Repr

namespace Catalog

/-- The entity with the given name. -/
def entity? (c : Catalog) (name : String) : Option Entity :=
  c.entities.find? (·.name == name)

/-- The catalog with an entity, in the place of any other of its name. -/
def register (c : Catalog) (e : Entity) : Catalog :=
  ⟨e :: c.entities.filter (·.name ≠ e.name)⟩

/-- The number of entities. -/
def size (c : Catalog) : Nat :=
  c.entities.length

/-- The catalog of a list of entities; of two with one name the last stays. -/
def ofList (entities : List Entity) : Catalog :=
  entities.foldl register {}

/-- The relation with the given navigation property on the entity with the given name. -/
def relation? (c : Catalog) (name property : String) : Option Relation :=
  (c.entity? name).bind (·.relation? property)

end Catalog

end RelQuery
