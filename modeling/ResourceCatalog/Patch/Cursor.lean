import ResourceCatalog.Patch.Basic
import ResourceCatalog.Pointer.Basic

/-!
# Cursors

A cursor shows one place of a document: the value there, how it is reached from the root and the
values on the way. It never changes the document. What a rule wants changed it asks for, and every
such request is a correction that records the value at the cursor before and after.
-/

namespace ResourceCatalog

/-- How a value is reached from the container that holds it. -/
inductive Key where
  | property (name : String)
  | index (i : Nat)
  deriving DecidableEq, Repr

namespace Key

/-- The token of the key in pointers. -/
def token : Key → String
  | .property name => name
  | .index i => toString i

end Key

/-- One step down: the container and the key taken in it. -/
structure Step where
  container : Json
  key : Key

/-- The steps from a place up to the root, the last step first. -/
abbrev Trail := List Step

namespace Trail

/-- The pointer of the place at the end of a trail. -/
def pointer : Trail → String
  | [] => ""
  | step :: rest => Pointer.join (pointer rest) step.key.token

/-- The tokens of the place, from the root. -/
def tokens (trail : Trail) : List String := (trail.map fun step => step.key.token).reverse

end Trail

/-- One place of a document. -/
structure Cursor where
  subject : String
  document : Json
  value : Json
  trail : Trail

namespace Cursor

/-- The cursor on the whole document. -/
def root (subject : String) (document : Json) : Cursor := ⟨subject, document, document, []⟩

/-- The cursor one step further down. -/
def child (c : Cursor) (key : Key) (value : Json) : Cursor :=
  { c with value, trail := ⟨c.value, key⟩ :: c.trail }

def pointer (c : Cursor) : String := c.trail.pointer

def isRoot (c : Cursor) : Bool := c.trail.isEmpty

def key? (c : Cursor) : Option Key := c.trail.head?.map Step.key

/-- The name under which the place sits in an object. -/
def propertyName? (c : Cursor) : Option String :=
  match c.key? with
  | some (.property name) => some name
  | _ => none

/-- The index at which the place sits in an array. -/
def index? (c : Cursor) : Option Nat :=
  match c.key? with
  | some (.index i) => some i
  | _ => none

/-- The cursor on the container of the place. -/
def parent? (c : Cursor) : Option Cursor :=
  match c.trail with
  | [] => none
  | step :: rest => some { c with value := step.container, trail := rest }

/-- The number of containers around the place. -/
def depth (c : Cursor) : Nat := c.trail.length

/-! ### All places of a document -/

section Places

variable (subject : String) (document : Json)

mutual

/-- The cursors on a value and on all it holds, each container before what it holds. -/
def placesFrom (trail : Trail) : Json → List Cursor
  | .arr items => ⟨subject, document, .arr items, trail⟩ :: placesOfItems (.arr items) trail 0 items
  | .obj members =>
    ⟨subject, document, .obj members, trail⟩ :: placesOfMembers (.obj members) trail members
  | value => [⟨subject, document, value, trail⟩]

def placesOfItems (container : Json) (trail : Trail) (index : Nat) : List Json → List Cursor
  | [] => []
  | item :: rest =>
    placesFrom (⟨container, .index index⟩ :: trail) item ++
      placesOfItems container trail (index + 1) rest

def placesOfMembers (container : Json) (trail : Trail) : List (String × Json) → List Cursor
  | [] => []
  | (name, value) :: rest =>
    placesFrom (⟨container, .property name⟩ :: trail) value ++
      placesOfMembers container trail rest

end

end Places

/-- The cursors on all places of a document. -/
def places (subject : String) (document : Json) : List Cursor :=
  placesFrom subject document [] document

/-! ### Requests at any place -/

/-- A correction asked for at the place. -/
def request (c : Cursor) (patch : Patch) (reason : String) (after? : Option Json) : Correction :=
  { subject := c.subject, place := c.pointer, patch, reason, before := c.value, after? }

/-- Asks for another value at the place. -/
def replaceValue (c : Cursor) (value : Json) (reason : String) : Correction :=
  c.request (.replace c.pointer value) reason (some value)

/-- Asks for the place to be taken out of its container. -/
def remove (c : Cursor) (reason : String) : Correction :=
  c.request (.remove c.pointer) reason none

/-! ### Requests at objects

The members of the object are given; what they become is what the correction records. -/

def memberPointer (c : Cursor) (key : String) : String := Pointer.join c.pointer key

/-- Asks for a member to be removed. -/
def removeProperty (c : Cursor) (members : Members) (key reason : String) : Correction :=
  c.request (.remove (c.memberPointer key)) reason (some (.obj (members.erase key)))

/-- Asks for a member to be put under another key. -/
def renameProperty (c : Cursor) (members : Members) (key newKey reason : String) : Correction :=
  let after : Members :=
    match members.get? key with
    | some value => Keyed.insert newKey value (members.erase key)
    | none => members
  c.request (.move (c.memberPointer key) (c.memberPointer newKey)) reason (some (.obj after))

/-- Asks for a member to be added, or overwritten if it is there. -/
def addProperty (c : Cursor) (members : Members) (key : String) (value : Json)
    (reason : String) : Correction :=
  c.request (.add (c.memberPointer key) value) reason (some (.obj (members.insert key value)))

/-- Asks for the value of a member to be replaced. -/
def replaceProperty (c : Cursor) (members : Members) (key : String) (value : Json)
    (reason : String) : Correction :=
  c.request (.replace (c.memberPointer key) value) reason (some (.obj (members.insert key value)))

/-! ### Requests at arrays -/

/-- Asks for an item to be removed. -/
def removeItem (c : Cursor) (items : List Json) (index : Nat) (reason : String) : Correction :=
  c.request (.remove (Pointer.join c.pointer (toString index))) reason
    (some (.arr (items.eraseIdx index)))

end Cursor

end ResourceCatalog
