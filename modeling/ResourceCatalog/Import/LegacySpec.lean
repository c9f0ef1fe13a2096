import ResourceCatalog.Catalog.Decoding

/-!
# The legacy specification

An older specification describes all resource types in one document. Of each it is known which
attributes it has and where its documentation is found.
-/

namespace ResourceCatalog

/-- What the legacy specification says of a resource type. -/
structure LegacyType where
  documentation : Option String
  attributes : List String
  deriving Repr

/-- The legacy specification. -/
structure LegacySpec where
  version : Option String
  types : Keyed LegacyType
  deriving Repr

def LegacyType.ofJson? (value : Json) : Option LegacyType := do
  let members ← value.structure? ["Documentation", "Attributes"]
  return {
    documentation := ← Keyed.optional? members "Documentation" Json.asString?
    attributes := Keyed.keys (← Keyed.fieldOr? members "Attributes" [] Json.asObject?) }

namespace LegacySpec

def ofJson? (value : Json) : Option LegacySpec := do
  let members ← value.structure? ["ResourceSpecificationVersion", "ResourceTypes"]
  let types? (value : Json) : Option (Keyed LegacyType) :=
    value.asObject?.bind fun types =>
      types.mapM fun entry => (LegacyType.ofJson? entry.2).map fun type => (entry.1, type)
  return {
    version := ← Keyed.optional? members "ResourceSpecificationVersion" Json.asString?
    types := ← Keyed.fieldOr? members "ResourceTypes" [] types? }

/-- The names of a resource type's attributes, perhaps with dots. -/
def attributeNames (spec : LegacySpec) (typeName : String) : List String :=
  ((Keyed.get? typeName spec.types).map LegacyType.attributes).getD []

def documentation? (spec : LegacySpec) (typeName : String) : Option String :=
  (Keyed.get? typeName spec.types).bind LegacyType.documentation

def size (spec : LegacySpec) : Nat := spec.types.length

def isEmpty (spec : LegacySpec) : Bool := spec.types.isEmpty

end LegacySpec

end ResourceCatalog
