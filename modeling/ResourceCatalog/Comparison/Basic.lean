import ResourceCatalog.Catalog.Database
import ResourceCatalog.Json.Printer

/-!
# Comparing databases

Two databases are compared by names: services, resources and type definitions of one name are the
same thing in both, whatever their identities. Values are compared by their texts, each of them made
in its own database.
-/

namespace ResourceCatalog

/-- A field that has another text. -/
structure FieldChange where
  field : String
  old : String
  new : String
  deriving DecidableEq, Repr

/-- What was added to a set of named things, what was removed, and what has changed. -/
structure KeyedChange (α : Type) where
  added : List String
  removed : List String
  updated : List α
  deriving DecidableEq, Repr

def KeyedChange.isEmpty {α : Type} (c : KeyedChange α) : Bool :=
  c.added.isEmpty && c.removed.isEmpty && c.updated.isEmpty

/-- A property, or a service, of which fields have changed. -/
structure FieldChanges where
  name : String
  changes : List FieldChange
  deriving DecidableEq, Repr

structure DefinitionChange where
  name : String
  changes : List FieldChange
  properties : KeyedChange FieldChanges
  deriving DecidableEq, Repr

structure ResourceChange where
  typeName : String
  changes : List FieldChange
  properties : KeyedChange FieldChanges
  attributes : KeyedChange FieldChanges
  typeDefinitions : KeyedChange DefinitionChange
  deriving DecidableEq, Repr

/-- What is different between two databases. -/
structure DatabaseChange where
  services : KeyedChange FieldChanges
  resources : KeyedChange ResourceChange
  deriving DecidableEq, Repr

def DatabaseChange.isEmpty (c : DatabaseChange) : Bool :=
  c.services.isEmpty && c.resources.isEmpty

/-! ### Comparing -/

namespace Comparison

/-- Compares what both sides have, in the order of the names. -/
def updates {α β : Type} (compare : String → α → α → Except GraphError (Option β))
    (new : Keyed α) : Keyed α → Except GraphError (List β)
  | [] => .ok []
  | (key, before) :: rest => do
    let update? ←
      match Keyed.get? key new with
      | some after => compare key before after
      | none => .ok none
    return update?.toList ++ (← updates compare new rest)

/-- Compares two sets of named things. -/
def keyed {α β : Type} (compare : String → α → α → Except GraphError (Option β))
    (old new : Keyed α) : Except GraphError (KeyedChange β) := do
  let updated ← updates compare new old
  return {
    added := (Keyed.keys new).filter fun key => !old.contains key
    removed := (Keyed.keys old).filter fun key => !new.contains key
    updated }

/-- The fields of which the texts differ, in the order of the first list. -/
def fields (old new : List (String × String)) : List FieldChange :=
  (old.zip new).filterMap fun (before, after) =>
    if before.2 = after.2 then none else some ⟨before.1, before.2, after.2⟩

def boolText (b : Bool) : String := if b then "true" else "false"

/-- The texts of a property's fields in its database. -/
def propertyFields (db : Database) (p : Property) : Except GraphError (List (String × String)) := do
  let type ← db.render p.type
  return [
    ("type", type),
    ("required", boolText p.required),
    ("documentation", p.documentation.getD ""),
    ("default", (p.default.map Json.compact).getD ""),
    ("deprecated", boolText p.deprecated),
    ("causes_replacement", boolText p.causesReplacement)]

def resourceFields (r : Resource) : List (String × String) := [
  ("documentation", r.documentation.getD ""),
  ("primary_identifier", Text.join ", " r.primaryIdentifier),
  ("is_stateful", boolText r.isStateful),
  ("tag_property", r.tagProperty.getD "")]

/-- The change of something that consists of fields only. -/
def fieldChanges? (name : String) (changes : List FieldChange) : Option FieldChanges :=
  if changes.isEmpty then none else some ⟨name, changes⟩

section

variable (old new : Database)

def properties (before after : PropertyMap) : Except GraphError (KeyedChange FieldChanges) :=
  keyed
    (fun name a b => do
      let fieldsBefore ← propertyFields old a
      let fieldsAfter ← propertyFields new b
      return fieldChanges? name (fields fieldsBefore fieldsAfter))
    before after

/-- The definitions that a resource uses, by name. Of several with one name the one used first
counts. -/
def usedDefinitions (db : Database) (resource : Identity) :
    Except GraphError (Keyed TypeDefinition) := do
  let found ← db.typesOf resource
  return found.foldl
    (fun definitions (record, _) =>
      if definitions.contains record.entity.name then definitions
      else Keyed.insert record.entity.name record.entity definitions)
    []

def definitions (before after : Identity) : Except GraphError (KeyedChange DefinitionChange) := do
  let definitionsBefore ← usedDefinitions old before
  let definitionsAfter ← usedDefinitions new after
  keyed
    (fun name a b => do
      let changes := fields [("documentation", a.documentation.getD "")]
        [("documentation", b.documentation.getD "")]
      let properties ← properties old new a.properties b.properties
      return if changes.isEmpty && properties.isEmpty then none
        else some ⟨name, changes, properties⟩)
    definitionsBefore definitionsAfter

def resource? (name : String) (a b : Record Resource) :
    Except GraphError (Option ResourceChange) := do
  let change : ResourceChange := {
    typeName := name
    changes := fields (resourceFields a.entity) (resourceFields b.entity)
    properties := ← properties old new a.entity.properties b.entity.properties
    attributes := ← properties old new a.entity.attributes b.entity.attributes
    typeDefinitions := ← definitions old new a.id b.id }
  return if change.changes.isEmpty && change.properties.isEmpty && change.attributes.isEmpty &&
      change.typeDefinitions.isEmpty then none
    else some change

def service? (name : String) (a b : Record Service) : Option FieldChanges :=
  fieldChanges? name (fields [("short_name", a.entity.shortName)]
    [("short_name", b.entity.shortName)])

/-- The records of a collection by a name. Of several with one name the last one counts. -/
def byName {α : Type} (collection : Collection α) (name : α → String) : Keyed (Record α) :=
  Keyed.ofList (collection.rows.map fun row => (name row.record.entity, row.record))

/-- What is different in the new database. -/
def databases : Except GraphError DatabaseChange := do
  let services ← keyed (fun name a b => .ok (service? name a b))
    (byName old.services Service.name) (byName new.services Service.name)
  let resources ← keyed (resource? old new)
    (byName old.resources Resource.typeName) (byName new.resources Resource.typeName)
  return ⟨services, resources⟩

end

end Comparison

end ResourceCatalog
