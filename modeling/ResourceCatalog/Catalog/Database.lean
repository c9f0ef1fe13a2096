import ResourceCatalog.Catalog.Entities
import ResourceCatalog.Graph.Edges

/-!
# The database

All collections and relationships of the catalog. Services, resources and regions are found by their
name and made where they are missing; a resource is linked to the definitions that its types use.
-/

namespace ResourceCatalog

/-- The collections and relationships of the catalog. -/
structure Database where
  services : Collection Service
  resources : Collection Resource
  typeDefinitions : Collection TypeDefinition
  regions : Collection Region
  hasResource : Edges Unit
  usesType : Edges Use
  regionHasResource : Edges Unit

/-- The names of the relationships. -/
inductive Relationship where
  | hasResource
  | usesType
  | regionHasResource
  deriving DecidableEq, Repr

def Relationship.name : Relationship → String
  | .hasResource => "has_resource"
  | .usesType => "uses_type"
  | .regionHasResource => "region_has_resource"

namespace Database

def empty : Database :=
  ⟨Collection.empty, Collection.empty, Collection.empty, Collection.empty, Edges.empty,
    Edges.empty, Edges.empty⟩

instance : Inhabited Database := ⟨empty⟩

/-! ### Look-ups -/

def resourceByTypeName (db : Database) (typeName : String) :
    Except GraphError (Option (Record Resource)) :=
  db.resources.findOnly "type_name" typeName

def serviceByName (db : Database) (name : String) : Except GraphError (Option (Record Service)) :=
  db.services.findOnly "name" name

def regionByName (db : Database) (name : String) : Except GraphError (Option (Record Region)) :=
  db.regions.findOnly "name" name

/-- The definitions that a resource uses, with the path of each use. -/
def typesOf (db : Database) (resource : Identity) :
    Except GraphError (List (Record TypeDefinition × Use)) :=
  db.usesType.follow resource db.typeDefinitions

def resourcesOf (db : Database) (service : Identity) :
    Except GraphError (List (Record Resource)) :=
  (db.hasResource.follow service db.resources).map fun found => found.map Prod.fst

/-- The name of a type definition. -/
def typeName (db : Database) (definition : Identity) : Except GraphError String :=
  (db.typeDefinitions.get definition).map fun record => record.entity.name

/-- The text of a type. -/
def render (db : Database) (type : PropertyType) : Except GraphError String :=
  type.render db.typeName

/-! ### Finding or making -/

/-- The entity found under its name, or a new one made from a fresh identity. -/
def findOrMake {α : Type} [Entity α] (collection : Collection α) (supply : Supply)
    (index key : String) (entity : α) :
    Except GraphError (Identity × Collection α × Supply) := do
  match ← collection.findOnly index key with
  | some record => return (record.id, collection, supply)
  | none => return collection.allocate supply entity

def upsertResource (db : Database) (supply : Supply) (typeName : String) :
    Except GraphError (Identity × Database × Supply) := do
  let (id, resources, supply) ←
    findOrMake db.resources supply "type_name" typeName (Resource.ofTypeName typeName)
  return (id, { db with resources }, supply)

def upsertService (db : Database) (supply : Supply) (service : Service) :
    Except GraphError (Identity × Database × Supply) := do
  let (id, services, supply) ← findOrMake db.services supply "name" service.name service
  return (id, { db with services }, supply)

def upsertRegion (db : Database) (supply : Supply) (name : String) :
    Except GraphError (Identity × Database × Supply) := do
  let (id, regions, supply) ← findOrMake db.regions supply "name" name ⟨name⟩
  return (id, { db with regions }, supply)

/-! ### Counts -/

/-- How many entities and edges of each kind there are. -/
def stats (db : Database) : List (String × Nat) :=
  [("services", db.services.size), ("resources", db.resources.size),
    ("type_definitions", db.typeDefinitions.size), ("regions", db.regions.size),
    (Relationship.hasResource.name, db.hasResource.size),
    (Relationship.usesType.name, db.usesType.size),
    (Relationship.regionHasResource.name, db.regionHasResource.size)]

end Database

/-- Gives a property another type. Unless both have one text, the old type joins the types it had
before, and the property counts as changed. -/
def Property.updateType (db : Database) (property : Property) (type : PropertyType) :
    Except GraphError (Bool × Property) := do
  let before ← db.render property.type
  let after ← db.render type
  if before = after then return (false, property)
  else
    return (true, { property with
      type := type
      previousTypes := property.previousTypes ++ [property.type] })

end ResourceCatalog
