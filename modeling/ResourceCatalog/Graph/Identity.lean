/-!
# Identities

Every entity has an identity, a number that is handed out once. Whatever carries an identity from
elsewhere into a collection moves the supply past it, so no later identity equals it.
-/

namespace ResourceCatalog

/-- The identity of an entity. -/
structure Identity where
  value : Nat
  deriving DecidableEq, Repr, Inhabited

def Identity.text (id : Identity) : String := s!"#{id.value}"

/-- The identities that have not been handed out: all from `next` on. -/
structure Supply where
  next : Nat
  deriving DecidableEq, Repr

namespace Supply

/-- The supply from which nothing has been taken. -/
def full : Supply := ⟨1⟩

/-- A fresh identity and what is left. -/
def fresh (supply : Supply) : Identity × Supply := (⟨supply.next⟩, ⟨supply.next + 1⟩)

/-- The supply without an identity and those before it. -/
def reserve (supply : Supply) (id : Identity) : Supply := ⟨max supply.next (id.value + 1)⟩

end Supply

end ResourceCatalog
