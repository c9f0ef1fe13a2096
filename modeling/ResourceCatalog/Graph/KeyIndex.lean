import ResourceCatalog.Graph.Identity
import ResourceCatalog.Text.Split

/-!
# Indexes by key

An index lists the entities of a collection by a key, such as their name. Several entities may have
the same key; they are told apart by their sequence, the number under which their collection took
them in. The entries are kept sorted by key and then by sequence, so those of one key and those of
keys with one beginning are neighbours.
-/

namespace ResourceCatalog

/-- An entry of an index. -/
structure KeyEntry where
  key : String
  sequence : Nat
  id : Identity
  deriving DecidableEq, Repr

/-- Whether an entry comes before the place of another one. -/
def KeyEntry.before (a b : KeyEntry) : Bool :=
  decide (a.key < b.key) || (a.key == b.key && decide (a.sequence < b.sequence))

/-- The sorted entries of an index. -/
structure KeyIndex where
  entries : List KeyEntry
  deriving DecidableEq, Repr

namespace KeyIndex

def empty : KeyIndex := ⟨[]⟩

def size (index : KeyIndex) : Nat := index.entries.length

def isEmpty (index : KeyIndex) : Bool := index.entries.isEmpty

/-- Puts an entry in front of the first one that does not come before it. -/
def insertEntry (entry : KeyEntry) : List KeyEntry → List KeyEntry
  | [] => [entry]
  | e :: rest => if e.before entry then e :: insertEntry entry rest else entry :: e :: rest

def insert (index : KeyIndex) (key : String) (sequence : Nat) (id : Identity) : KeyIndex :=
  ⟨insertEntry ⟨key, sequence, id⟩ index.entries⟩

/-- The entries without the first one of a key and an identity, if there is one. -/
def eraseFirst? (key : String) (id : Identity) : List KeyEntry → Option (List KeyEntry)
  | [] => none
  | e :: rest =>
    if e.key < key then (eraseFirst? key id rest).map (e :: ·)
    else if e.key = key then
      if e.id = id then some rest else (eraseFirst? key id rest).map (e :: ·)
    else none

/-- The index without the entry of a key and an identity. Nothing if there is no such entry. -/
def erase? (index : KeyIndex) (key : String) (id : Identity) : Option KeyIndex :=
  (eraseFirst? key id index.entries).map KeyIndex.mk

/-- The index without the entry of a key and an identity. -/
def erase (index : KeyIndex) (key : String) (id : Identity) : KeyIndex :=
  (index.erase? key id).getD index

/-- The entries from the first one on whose key is not below another key. -/
def dropBelow (index : KeyIndex) (key : String) : List KeyEntry :=
  index.entries.dropWhile fun e => decide (e.key < key)

/-- The identities under a key, by sequence. -/
def equal (index : KeyIndex) (key : String) : List Identity :=
  ((index.dropBelow key).takeWhile fun e => e.key == key).map KeyEntry.id

/-- The identities under the keys with some beginning, by key and then by sequence. -/
def startingWith (index : KeyIndex) (start : String) : List Identity :=
  ((index.dropBelow start).takeWhile fun e => Text.startsWith start.toList e.key.toList).map
    KeyEntry.id

end KeyIndex

end ResourceCatalog
