/-!
# Values by key

Values with distinct keys, kept with ascending keys. Keys are compared by code point, which is also
the order of their UTF-8 bytes, and every walk over the values goes in this order.
-/

namespace ResourceCatalog

/-- Values by key, in the order of the keys. -/
abbrev Keyed (α : Type) := List (String × α)

namespace Keyed

variable {α β : Type}

/-- The value under a key. -/
def get? (key : String) : Keyed α → Option α
  | [] => none
  | (k, v) :: rest => if k = key then some v else get? key rest

def contains (entries : Keyed α) (key : String) : Bool := (Keyed.get? key entries).isSome

/-- Puts a value under a key: in place of the value there, else where the key belongs. -/
def insert (key : String) (value : α) : Keyed α → Keyed α
  | [] => [(key, value)]
  | (k, v) :: rest =>
    if key = k then (key, value) :: rest
    else if key < k then (key, value) :: (k, v) :: rest
    else (k, v) :: insert key value rest

/-- Takes the value under a key away. -/
def erase (key : String) : Keyed α → Keyed α
  | [] => []
  | (k, v) :: rest => if k = key then rest else (k, v) :: erase key rest

/-- Puts values under their keys one after the other; the last one under a key stays. -/
def ofList (entries : List (String × α)) : Keyed α :=
  entries.foldl (fun members entry => insert entry.1 entry.2 members) []

def keys (entries : Keyed α) : List String := entries.map Prod.fst

def values (entries : Keyed α) : List α := entries.map Prod.snd

/-- Changes every value. -/
def mapValues (change : α → β) (entries : Keyed α) : Keyed β :=
  entries.map fun entry => (entry.1, change entry.2)

/-- Reads every value by a rule that can fail; the first failure counts. -/
def mapValuesM {ε : Type} (change : α → Except ε β) (entries : Keyed α) : Except ε (Keyed β) :=
  entries.mapM fun entry => (change entry.2).map fun value => (entry.1, value)

end Keyed

end ResourceCatalog
