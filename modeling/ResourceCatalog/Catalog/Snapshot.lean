import ResourceCatalog.Catalog.Decoding
import ResourceCatalog.Schema.Fingerprint
import ResourceCatalog.Text.Timestamp
import ResourceCatalog.Text.Version

/-!
# Snapshots

A snapshot is a database as one document: a section of records for each collection, a section of
edges for each relationship, and a checksum of both. Indexes and the edges by their targets are not
stored; loading makes them anew. Loading fails as a whole, but whatever identities were taken in
before the failure stay used.
-/

namespace ResourceCatalog

/-- Why a snapshot cannot be loaded. -/
inductive SnapshotError where
  | incompatible (found : Version)
  | checksumMismatch (expected actual : String)
  | undecodable (sectionName : String)
  | graph (error : GraphError)
  deriving DecidableEq, Repr

/-- The format that is written. -/
def Version.current : Version := ⟨1, "1.0.0"⟩

def SnapshotError.message : SnapshotError → String
  | .incompatible found =>
    s!"Snapshot format {found.text} is not compatible with {Version.current.text}"
  | .checksumMismatch expected actual =>
    s!"Snapshot checksum mismatch: expected {expected}, got {actual}"
  | .undecodable sectionName => s!"Snapshot section '{sectionName}' could not be decoded"
  | .graph error => error.message

/-- A database as a document. -/
structure Snapshot where
  version : Version
  createdAt : String
  checksum : Option String
  entities : Members
  relationships : Members

namespace Snapshot

/-- The checksum of the sections. -/
def contentChecksum (snapshot : Snapshot) : String :=
  Json.checksum (.obj [
    ("entities", .obj snapshot.entities), ("relationships", .obj snapshot.relationships)])

/-- The snapshot with the checksum that its sections have. -/
def sealed (snapshot : Snapshot) : Snapshot :=
  { snapshot with checksum := some snapshot.contentChecksum }

/-- Checks that the format is one that can be read and that the checksum, if there is one, fits. -/
def verify (snapshot : Snapshot) : Except SnapshotError Unit :=
  if snapshot.version.major ≠ Version.current.major then .error (.incompatible snapshot.version)
  else
    match snapshot.checksum with
    | none => .ok ()
    | some expected =>
      if expected = snapshot.contentChecksum then .ok ()
      else .error (.checksumMismatch expected snapshot.contentChecksum)

/-! ### As a document -/

/-- The fields in the order in which they are written. -/
def toJson (snapshot : Snapshot) : Json :=
  .obj ([("format_version", .str snapshot.version.text), ("created_at", .str snapshot.createdAt)] ++
    (match snapshot.checksum with
      | some checksum => [("checksum", .str checksum)]
      | none => []) ++
    [("entities", .obj snapshot.entities), ("relationships", .obj snapshot.relationships)])

/-- The fields in the order in which they are given without their keys. -/
def fields : List String :=
  ["format_version", "created_at", "checksum", "entities", "relationships"]

def ofJson? (value : Json) : Option Snapshot := do
  let members ← value.structure? fields
  let timestamp? (value : Json) : Option String :=
    value.asString?.bind fun text => if Timestamp.isTimestamp text then some text else none
  return {
    version := ← Keyed.field? members "format_version" fun value =>
      value.asString?.bind Version.ofText?
    createdAt := ← Keyed.field? members "created_at" timestamp?
    checksum := ← Keyed.optional? members "checksum" Json.asString?
    entities := ← Keyed.fieldOr? members "entities" [] Json.asObject?
    relationships := ← Keyed.fieldOr? members "relationships" [] Json.asObject? }

end Snapshot

namespace Database

/-- The snapshot of a database at a point in time. -/
def save (db : Database) (createdAt : String) : Snapshot :=
  Snapshot.sealed {
    version := Version.current
    createdAt
    checksum := none
    entities := Keyed.ofList [
      (Entity.collection Service, db.services.toJson),
      (Entity.collection Resource, db.resources.toJson),
      (Entity.collection TypeDefinition, db.typeDefinitions.toJson),
      (Entity.collection Region, db.regions.toJson)]
    relationships := Keyed.ofList [
      (Relationship.hasResource.name, db.hasResource.toJson),
      (Relationship.usesType.name, db.usesType.toJson),
      (Relationship.regionHasResource.name, db.regionHasResource.toJson)] }

/-- What loading computes: a result, and the supply that is left. -/
abbrev Loading := ExceptT SnapshotError (StateM Supply)

/-- The collection of a section, or an empty one without the section. -/
def loadCollection {α : Type} [Entity α] [Readable α] (snapshot : Snapshot) :
    Loading (Collection α) := do
  match Keyed.get? (Entity.collection α) snapshot.entities with
  | none => return Collection.empty
  | some value =>
    match recordsOfJson? value with
    | none => throw (.undecodable (Entity.collection α))
    | some records =>
      let (result, supply) := Collection.insertAll Collection.empty (← get) records
      set supply
      match result with
      | .ok collection => return collection
      | .error e => throw (.graph e)

/-- The edges of a section, or none without the section. -/
def loadEdges {α : Type} [DecidableEq α] [Readable α] (snapshot : Snapshot)
    (relationship : Relationship) : Loading (Edges α) :=
  match Keyed.get? relationship.name snapshot.relationships with
  | none => return Edges.empty
  | some value =>
    match edgesOfJson? value with
    | none => throw (.undecodable relationship.name)
    | some edges => return edges

/-- Checks a snapshot and loads one section after the other. -/
def loadSections (snapshot : Snapshot) : Loading Database := do
  match snapshot.verify with
  | .error e => throw e
  | .ok () =>
    return {
      services := ← loadCollection snapshot
      resources := ← loadCollection snapshot
      typeDefinitions := ← loadCollection snapshot
      regions := ← loadCollection snapshot
      hasResource := ← loadEdges snapshot .hasResource
      usesType := ← loadEdges snapshot .usesType
      regionHasResource := ← loadEdges snapshot .regionHasResource }

/-- The database of a snapshot, and the supply without the identities taken in. -/
def load (snapshot : Snapshot) (supply : Supply) : Except SnapshotError Database × Supply :=
  (loadSections snapshot).run.run supply

end Database

end ResourceCatalog
