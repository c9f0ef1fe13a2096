import ResourceCatalog.Graph.Collection

/-!
# Directed edges

A relationship is a set of directed edges between two collections; an edge may have attributes, and
two edges with the same ends and different attributes are different. Edges are kept from both ends.
Those that leave an entity are in the order in which they were added. Those that reach an entity are
in the order of the identities where they start. The edges are counted as they come and go.
-/

namespace ResourceCatalog

/-- The other end of an edge, with the edge's attributes. -/
structure Edge (α : Type) where
  id : Identity
  attributes : α
  deriving DecidableEq, Repr

/-- Lists of edges by the entity at one end, in the order of identities and without empty lists. -/
abbrev Adjacency (α : Type) := List (Identity × List (Edge α))

namespace Adjacency

variable {α : Type}

def get (id : Identity) : Adjacency α → List (Edge α)
  | [] => []
  | (other, edges) :: rest => if other = id then edges else Adjacency.get id rest

/-- Replaces the list at an identity. -/
def set (id : Identity) (edges : List (Edge α)) : Adjacency α → Adjacency α
  | [] => if edges.isEmpty then [] else [(id, edges)]
  | (other, present) :: rest =>
    if id = other then if edges.isEmpty then rest else (id, edges) :: rest
    else if id.value < other.value then
      if edges.isEmpty then (other, present) :: rest else (id, edges) :: (other, present) :: rest
    else (other, present) :: set id edges rest

end Adjacency

/-- A set of directed edges. -/
structure Edges (α : Type) where
  forward : Adjacency α
  backward : Adjacency α
  /-- The number of edges. -/
  count : Nat
  deriving DecidableEq, Repr

namespace Edges

variable {α : Type}

def empty : Edges α := ⟨[], [], 0⟩

/-- The edges that leave an entity. -/
def outgoing (edges : Edges α) (start : Identity) : List (Edge α) :=
  Adjacency.get start edges.forward

/-- The edges that reach an entity. -/
def incoming (edges : Edges α) (target : Identity) : List (Edge α) :=
  Adjacency.get target edges.backward

def size (edges : Edges α) : Nat := edges.count

def isEmpty (edges : Edges α) : Bool := edges.size == 0

/-- Puts an edge behind those that start at the same or an earlier identity. -/
def insertByStart (edge : Edge α) : List (Edge α) → List (Edge α)
  | [] => [edge]
  | e :: rest =>
    if e.id.value ≤ edge.id.value then e :: insertByStart edge rest else edge :: e :: rest

variable [DecidableEq α]

/-- Adds an edge. Nothing if it is there already. -/
def add? (edges : Edges α) (start target : Identity) (attributes : α) : Option (Edges α) :=
  let outgoing := edges.outgoing start
  if outgoing.contains ⟨target, attributes⟩ then none
  else some
    { forward := Adjacency.set start (outgoing ++ [⟨target, attributes⟩]) edges.forward
      backward := Adjacency.set target
        (insertByStart ⟨start, attributes⟩ (edges.incoming target)) edges.backward
      count := edges.count + 1 }

def add (edges : Edges α) (start target : Identity) (attributes : α) : Edges α :=
  (edges.add? start target attributes).getD edges

/-- Removes all edges that leave an entity, and returns them. -/
def removeOutgoing (edges : Edges α) (start : Identity) : List (Edge α) × Edges α :=
  let removed := edges.outgoing start
  (removed,
    { forward := Adjacency.set start [] edges.forward
      backward := removed.foldl
        (fun backward edge =>
          Adjacency.set edge.id ((Adjacency.get edge.id backward).erase ⟨start, edge.attributes⟩)
            backward)
        edges.backward
      count := edges.count - removed.length })

/-- The edges of lists by their starts, added one after the other. -/
def ofForward (forward : Adjacency α) : Edges α :=
  forward.foldl
    (fun edges entry =>
      entry.2.foldl (fun edges edge => edges.add entry.1 edge.id edge.attributes) edges)
    empty

/-! ### Following edges -/

/-- The records at the other ends of some edges. -/
def dereference {β : Type} [Entity β] (edges : List (Edge α)) (collection : Collection β) :
    Except GraphError (List (Record β × α)) :=
  edges.mapM fun edge => (collection.get edge.id).map fun record => (record, edge.attributes)

/-- The targets of the edges that leave an entity. -/
def follow {β : Type} [Entity β] (edges : Edges α) (start : Identity) (targets : Collection β) :
    Except GraphError (List (Record β × α)) :=
  dereference (edges.outgoing start) targets

/-- The starts of the edges that reach an entity. -/
def followBack {β : Type} [Entity β] (edges : Edges α) (target : Identity)
    (starts : Collection β) : Except GraphError (List (Record β × α)) :=
  dereference (edges.incoming target) starts

end Edges

end ResourceCatalog
