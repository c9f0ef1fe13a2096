import ResourceCatalog.Catalog.PropertyType
import ResourceCatalog.Json.Basic

/-!
# The entities of the catalog

The catalog describes resources, which have properties and attributes and belong to services, the
type definitions that their types refer to, and the regions in which they are found.
-/

namespace ResourceCatalog

/-- A named slot of a resource or a type definition. -/
structure Property where
  type : PropertyType
  required : Bool
  documentation : Option String
  default : Option Json
  deprecated : Bool
  causesReplacement : Bool
  /-- The types it had before, oldest first. -/
  previousTypes : List PropertyType
  deriving Repr, Inhabited

/-- A property of some type, and nothing else known about it. -/
def Property.ofType (type : PropertyType) : Property :=
  ⟨type, false, none, none, false, false, []⟩

/-- Properties by name. -/
abbrev PropertyMap := Keyed Property

/-- A group of resources. -/
structure Service where
  name : String
  /-- The second segment of the name. -/
  shortName : String
  deriving DecidableEq, Repr, Inhabited

/-- The service of a resource type name, which has at least three segments, the first two not
empty. -/
def Service.ofTypeName? (typeName : String) : Option Service :=
  match Text.segments typeName with
  | organisation :: short :: _ :: _ =>
    if organisation = "" ∨ short = "" then none
    else some ⟨s!"{organisation}::{short}", short⟩
  | _ => none

instance : Entity Service where
  collection := "service"
  indexes := [⟨"name", Service.name⟩]

/-- A resource type. -/
structure Resource where
  /-- The full name, of several segments. -/
  typeName : String
  /-- The last segment of the full name. -/
  name : String
  documentation : Option String
  properties : PropertyMap
  attributes : PropertyMap
  primaryIdentifier : List String
  isStateful : Bool
  tagProperty : Option String
  deriving Repr, Inhabited

/-- A resource of which only the name is known. -/
def Resource.ofTypeName (typeName : String) : Resource :=
  ⟨typeName, Text.lastSegment typeName, none, [], [], [], false, none⟩

instance : Entity Resource where
  collection := "resource"
  indexes := [⟨"type_name", Resource.typeName⟩]

/-- A record type that the types of properties can refer to. -/
structure TypeDefinition where
  name : String
  documentation : Option String
  properties : PropertyMap
  deriving Repr, Inhabited

/-- A definition of which only the name is known. -/
def TypeDefinition.ofName (name : String) : TypeDefinition := ⟨name, none, []⟩

instance : Entity TypeDefinition where
  collection := "type_definition"
  indexes := [⟨"name", TypeDefinition.name⟩]

/-- A region. -/
structure Region where
  name : String
  deriving DecidableEq, Repr, Inhabited

instance : Entity Region where
  collection := "region"
  indexes := [⟨"name", Region.name⟩]

/-- How a resource uses a type definition: the path of the property that refers to it. -/
structure Use where
  via : String
  deriving DecidableEq, Repr, Inhabited

end ResourceCatalog
