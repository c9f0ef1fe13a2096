import ResourceCatalog.Graph.Error
import ResourceCatalog.Graph.KeyIndex

/-!
# Collections of entities

A collection holds the entities of one kind in the order in which they came in, each with its
identity, and keeps the indexes that its kind declares. Changing an entity keeps its place in that
order, also under its new key.
-/

namespace ResourceCatalog

/-- An index that a kind of entity declares: its name and the key of an entity. -/
structure IndexDefinition (α : Type) where
  name : String
  key : α → String

/-- A kind of entity. -/
class Entity (α : Type) where
  /-- The name of the collection that holds these entities. -/
  collection : String
  indexes : List (IndexDefinition α)

/-- An entity with its identity. -/
structure Record (α : Type) where
  id : Identity
  entity : α
  deriving DecidableEq, Repr

/-- A record with the number under which its collection took it in. -/
structure Row (α : Type) where
  sequence : Nat
  record : Record α
  deriving DecidableEq, Repr

/-- What is looked for in an index. -/
inductive Query where
  | equals (key : String)
  | startsWith (start : String)
  deriving DecidableEq, Repr

def Query.text : Query → String
  | .equals key => s!"= '{key}'"
  | .startsWith start => s!"starts with '{start}'"

/-- The identities that an index lists for a query. -/
def KeyIndex.find (index : KeyIndex) : Query → List Identity
  | .equals key => index.equal key
  | .startsWith start => index.startingWith start

/-- The records found for a query. -/
structure Matches (α : Type) where
  collection : String
  query : String
  records : List (Record α)

namespace Matches

variable {α : Type}

def notUnique (found : Matches α) : GraphError :=
  .notUnique found.collection found.query found.records.length

/-- The only record found. -/
def only (found : Matches α) : Except GraphError (Record α) :=
  match found.records with
  | [one] => .ok one
  | _ => .error found.notUnique

/-- The only record found, or nothing if none was. -/
def onlyOrNone (found : Matches α) : Except GraphError (Option (Record α)) :=
  match found.records with
  | [] => .ok none
  | [one] => .ok (some one)
  | _ => .error found.notUnique

end Matches

/-- The entities of one kind. -/
structure Collection (α : Type) where
  rows : List (Row α)
  nextSequence : Nat
  /-- The indexes that the kind declares, in that order. -/
  indexes : List KeyIndex

namespace Collection

variable {α : Type} [Entity α]

def empty : Collection α := ⟨[], 0, (Entity.indexes (α := α)).map fun _ => KeyIndex.empty⟩

instance : Inhabited (Collection α) := ⟨empty⟩

/-- The records in the order in which they came in. -/
def all (c : Collection α) : List (Record α) := c.rows.map Row.record

def size (c : Collection α) : Nat := c.rows.length

def isEmpty (c : Collection α) : Bool := c.rows.isEmpty

/-! ### Records by identity -/

def row? (c : Collection α) (id : Identity) : Option (Row α) :=
  c.rows.find? fun row => row.record.id == id

def contains (c : Collection α) (id : Identity) : Bool := (c.row? id).isSome

def notFound (id : Identity) : GraphError := .notFound (Entity.collection α) id

def get (c : Collection α) (id : Identity) : Except GraphError (Record α) :=
  match c.row? id with
  | some row => .ok row.record
  | none => .error (notFound (α := α) id)

/-! ### Taking in and giving away -/

/-- Changes every index by a rule that knows the key of an entity. -/
def onIndexes (change : IndexDefinition α → KeyIndex → KeyIndex) (indexes : List KeyIndex) :
    List KeyIndex :=
  (Entity.indexes (α := α)).zipWith change indexes

/-- Puts a record behind all others. -/
def append (c : Collection α) (record : Record α) : Collection α where
  rows := c.rows ++ [⟨c.nextSequence, record⟩]
  nextSequence := c.nextSequence + 1
  indexes := onIndexes
    (fun definition index => index.insert (definition.key record.entity) c.nextSequence record.id)
    c.indexes

/-- Takes in an entity under a fresh identity. -/
def allocate (c : Collection α) (supply : Supply) (entity : α) :
    Identity × Collection α × Supply :=
  let (id, supply) := supply.fresh
  (id, c.append ⟨id, entity⟩, supply)

/-- Takes in a record that has an identity already. -/
def insert (c : Collection α) (supply : Supply) (record : Record α) :
    Except GraphError (Collection α × Supply) :=
  if c.contains record.id then .error (.duplicateId (Entity.collection α) record.id)
  else .ok (c.append record, supply.reserve record.id)

/-- Takes in records one after the other, up to the first that is refused. The supply has moved past
the records before it also where one is refused. -/
def insertAll (c : Collection α) (supply : Supply) :
    List (Record α) → Except GraphError (Collection α) × Supply
  | [] => (.ok c, supply)
  | record :: rest =>
    match c.insert supply record with
    | .error e => (.error e, supply)
    | .ok (c, supply) => c.insertAll supply rest

/-- Moves an entry to a new key. -/
def rekey (row : Row α) (entity : α) (definition : IndexDefinition α) (index : KeyIndex) :
    KeyIndex :=
  let before := definition.key row.record.entity
  let after := definition.key entity
  if before = after then index
  else (index.erase before row.record.id).insert after row.sequence row.record.id

/-- Changes an entity. -/
def update (c : Collection α) (id : Identity) (change : α → α) :
    Except GraphError (Collection α) :=
  match c.row? id with
  | none => .error (notFound (α := α) id)
  | some row =>
    let entity := change row.record.entity
    .ok { c with
      rows := c.rows.map fun other =>
        if other.record.id == id then { other with record := ⟨id, entity⟩ } else other
      indexes := onIndexes (rekey row entity) c.indexes }

/-- Gives a record away. -/
def remove (c : Collection α) (id : Identity) : Except GraphError (Record α × Collection α) :=
  match c.row? id with
  | none => .error (notFound (α := α) id)
  | some row =>
    .ok (row.record, { c with
      rows := c.rows.filter fun other => other.record.id != id
      indexes := onIndexes
        (fun definition index => index.erase (definition.key row.record.entity) id) c.indexes })

/-! ### Records by key -/

/-- The index of a name. -/
def index? (c : Collection α) (name : String) : Option KeyIndex :=
  (((Entity.indexes (α := α)).zip c.indexes).find? fun entry => entry.1.name == name).map Prod.snd

/-- The records that an index lists for a query. -/
def lookup (c : Collection α) (name : String) (query : Query) : Except GraphError (Matches α) :=
  match c.index? name with
  | none => .error (.noSuchIndex (Entity.collection α) name)
  | some index => do
    let records ← (index.find query).mapM c.get
    return ⟨Entity.collection α, s!"{name} {query.text}", records⟩

/-- The only record whose key in an index is the given one, if there is one. -/
def findOnly (c : Collection α) (name key : String) : Except GraphError (Option (Record α)) := do
  (← c.lookup name (.equals key)).onlyOrNone

end Collection

end ResourceCatalog
