import ResourceCatalog.Catalog.Database
import ResourceCatalog.Json.Basic

/-!
# The catalog as documents

Types, properties, entities and edges are written as objects. What is missing or empty is left out
where it is optional; the identity of a record stands beside the fields of its entity under `$id`.
-/

namespace ResourceCatalog

/-- An object of the fields that are there. -/
def Json.ofFields (fields : List (String × Option Json)) : Json :=
  .obj (Keyed.ofList (fields.filterMap fun (key, value?) => value?.map fun value => (key, value)))

/-- A list, unless it is empty. -/
def Json.nonEmpty? : List Json → Option Json
  | [] => none
  | items => some (.arr items)

/-! ### Types and properties -/

namespace PropertyType

/-- The word for the kind of a type. -/
def tag : PropertyType → String
  | .string => "string"
  | .number => "number"
  | .boolean => "boolean"
  | .dateTime => "date-time"
  | .json => "json"
  | .null => "null"
  | .ref _ => "ref"
  | .array _ => "array"
  | .map _ => "map"
  | .union _ => "union"

mutual

def toJson (type : PropertyType) : Json :=
  let tagged (key : String) (value : Json) : Json :=
    .obj (Keyed.ofList [("type", .str type.tag), (key, value)])
  match type with
  | .ref definition => tagged "reference" (Json.nat definition.value)
  | .array element => tagged "element" (toJson element)
  | .map element => tagged "element" (toJson element)
  | .union types => tagged "types" (.arr (toJsons types))
  | _ => .obj [("type", .str type.tag)]

def toJsons : List PropertyType → List Json
  | [] => []
  | type :: rest => toJson type :: toJsons rest

end

end PropertyType

def Property.toJson (p : Property) : Json :=
  Json.ofFields [
    ("type", some p.type.toJson),
    ("required", some (.bool p.required)),
    ("documentation", p.documentation.map .str),
    ("default_value", p.default),
    ("deprecated", some (.bool p.deprecated)),
    ("causes_replacement", some (.bool p.causesReplacement)),
    ("previous_types", Json.nonEmpty? (PropertyType.toJsons p.previousTypes))]

def PropertyMap.toJson (properties : PropertyMap) : Json :=
  .obj (Keyed.mapValues Property.toJson properties)

/-! ### Entities -/

/-- Entities that can be written as an object. -/
class Encodable (α : Type) where
  toJson : α → Json

instance : Encodable Service where
  toJson service := Json.ofFields [
    ("name", some (.str service.name)),
    ("short_name", some (.str service.shortName))]

instance : Encodable Resource where
  toJson resource := Json.ofFields [
    ("type_name", some (.str resource.typeName)),
    ("name", some (.str resource.name)),
    ("documentation", resource.documentation.map .str),
    ("properties", some (PropertyMap.toJson resource.properties)),
    ("attributes", some (PropertyMap.toJson resource.attributes)),
    ("primary_identifier", Json.nonEmpty? (resource.primaryIdentifier.map .str)),
    ("is_stateful", some (.bool resource.isStateful)),
    ("tag_property", resource.tagProperty.map .str)]

instance : Encodable TypeDefinition where
  toJson definition := Json.ofFields [
    ("name", some (.str definition.name)),
    ("documentation", definition.documentation.map .str),
    ("properties", some (PropertyMap.toJson definition.properties))]

instance : Encodable Region where
  toJson region := Json.ofFields [("name", some (.str region.name))]

instance : Encodable Unit where
  toJson _ := .null

instance : Encodable Use where
  toJson use := Json.ofFields [("via", some (.str use.via))]

/-- The fields of an object and one more. -/
def Json.withField (value : Json) (key : String) (field : Json) : Json :=
  match value with
  | .obj members => .obj (Keyed.insert key field members)
  | other => other

def Record.toJson {α : Type} [Encodable α] (record : Record α) : Json :=
  (Encodable.toJson record.entity).withField "$id" (Json.nat record.id.value)

def Edge.toJson {α : Type} [Encodable α] (edge : Edge α) : Json :=
  Json.ofFields [
    ("$id", some (Json.nat edge.id.value)),
    ("attrs", some (Encodable.toJson edge.attributes))]

/-! ### Collections and relationships -/

def Collection.toJson {α : Type} [Entity α] [Encodable α] (collection : Collection α) : Json :=
  .arr (collection.all.map Record.toJson)

/-- The edges that leave each entity, under its identity. -/
def Edges.toJson {α : Type} [Encodable α] (edges : Edges α) : Json :=
  .obj (Keyed.ofList (edges.forward.map fun (start, outgoing) =>
    (toString start.value, .arr (outgoing.map Edge.toJson))))

end ResourceCatalog
