import ResourceCatalog.Catalog.Encoding
import ResourceCatalog.Pointer.Basic

/-!
# The catalog from documents

What was written as a document can be read back. A structure is read from an object, where unknown
members do not matter, or from an array of its fields in their order. A field that may be missing
has a default; of an optional field, `null` means that it is missing.
-/

namespace ResourceCatalog

namespace Json

/-- The members of a structure that is given as an object or as an array of its first fields. -/
def structure? (fields : List String) : Json → Option Members
  | .obj members => some members
  | .arr items =>
    if items.length ≤ fields.length then some (Keyed.ofList (fields.zip items)) else none
  | _ => none

end Json

namespace Keyed

/-- A field that must be there. -/
def field? {α : Type} (members : Members) (key : String) (read : Json → Option α) : Option α :=
  (Keyed.get? key members).bind read

/-- A field with a default. -/
def fieldOr? {α : Type} (members : Members) (key : String) (default : α) (read : Json → Option α) :
    Option α :=
  match Keyed.get? key members with
  | none => some default
  | some value => read value

/-- A field that may be missing. -/
def optional? {α : Type} (members : Members) (key : String) (read : Json → Option α) :
    Option (Option α) :=
  match Keyed.get? key members with
  | none => some none
  | some .null => some none
  | some value => (read value).map some

end Keyed

def Identity.ofJson? (value : Json) : Option Identity := value.asNat?.map Identity.mk

/-! ### Types and properties -/

namespace PropertyType

/-- The words for the kinds of types, in the order in which they are numbered. -/
def tags : List String :=
  ["string", "number", "boolean", "date-time", "json", "null", "ref", "array", "map", "union"]

/-- The kind that a word or a number stands for. -/
def tagOf? : Json → Option String
  | .str tag => if tags.contains tag then some tag else none
  | .num n => n.toNat?.bind fun i => tags[i]?
  | _ => none

/-- The kind of a written type. -/
def tag? : Json → Option String
  | .obj members => Keyed.field? members "type" tagOf?
  | .arr (first :: _) => tagOf? first
  | _ => none

/-- Whether a written type has no more to it than its kind. -/
def isPlain : Json → Bool
  | .obj _ => true
  | .arr [_] => true
  | _ => false

/-- The one field of a written type beside its kind. -/
def part? (key : String) : Json → Option Json
  | .obj members => Keyed.get? key members
  | .arr [_, part] => some part
  | _ => none

theorem sizeOf_lt_of_part? {key : String} {value part : Json} (h : part? key value = some part) :
    sizeOf part < sizeOf value := by
  unfold part? at h
  split at h
  · have := Json.sizeOf_lt_of_get? h
    simp
    omega
  · obtain rfl := Option.some.inj h
    simp
    omega
  · cases h

mutual

def ofJson? (value : Json) : Option PropertyType :=
  let plain (type : PropertyType) : Option PropertyType :=
    if isPlain value then some type else none
  match tag? value with
  | some "string" => plain .string
  | some "number" => plain .number
  | some "boolean" => plain .boolean
  | some "date-time" => plain .dateTime
  | some "json" => plain .json
  | some "null" => plain .null
  | some "ref" => ((part? "reference" value).bind Identity.ofJson?).map .ref
  | some "array" =>
    match h : part? "element" value with
    | some element =>
      have := sizeOf_lt_of_part? h
      (ofJson? element).map .array
    | none => none
  | some "map" =>
    match h : part? "element" value with
    | some element =>
      have := sizeOf_lt_of_part? h
      (ofJson? element).map .map
    | none => none
  | some "union" =>
    match h : part? "types" value with
    | some (.arr types) =>
      have : sizeOf types < sizeOf value := by
        have := sizeOf_lt_of_part? h
        simp at this
        omega
      (ofJsons? types).map .union
    | _ => none
  | _ => none
  termination_by sizeOf value

def ofJsons? : List Json → Option (List PropertyType)
  | [] => some []
  | value :: rest => do
    let type ← ofJson? value
    return type :: (← ofJsons? rest)
  termination_by values => sizeOf values

end

end PropertyType

def Property.ofJson? (value : Json) : Option Property := do
  let members ← value.structure? ["type", "required", "documentation", "default_value",
    "deprecated", "causes_replacement", "previous_types"]
  return {
    type := ← Keyed.field? members "type" PropertyType.ofJson?
    required := ← Keyed.fieldOr? members "required" false Json.asBool?
    documentation := ← Keyed.optional? members "documentation" Json.asString?
    default := ← Keyed.optional? members "default_value" some
    deprecated := ← Keyed.fieldOr? members "deprecated" false Json.asBool?
    causesReplacement := ← Keyed.fieldOr? members "causes_replacement" false Json.asBool?
    previousTypes := ← Keyed.fieldOr? members "previous_types" [] fun types =>
      types.asArray?.bind PropertyType.ofJsons? }

def PropertyMap.ofJson? (value : Json) : Option PropertyMap := do
  (← value.asObject?).mapM fun entry => (Property.ofJson? entry.2).map fun p => (entry.1, p)

/-! ### Entities -/

/-- Entities and attributes that can be read from a document. -/
class Readable (α : Type) where
  ofJson? : Json → Option α

instance : Readable Service where
  ofJson? value := do
    let members ← value.asObject?
    return {
      name := ← Keyed.field? members "name" Json.asString?
      shortName := ← Keyed.field? members "short_name" Json.asString? }

instance : Readable Resource where
  ofJson? value := do
    let members ← value.asObject?
    return {
      typeName := ← Keyed.field? members "type_name" Json.asString?
      name := ← Keyed.field? members "name" Json.asString?
      documentation := ← Keyed.optional? members "documentation" Json.asString?
      properties := ← Keyed.fieldOr? members "properties" [] PropertyMap.ofJson?
      attributes := ← Keyed.fieldOr? members "attributes" [] PropertyMap.ofJson?
      primaryIdentifier := ← Keyed.fieldOr? members "primary_identifier" [] Json.asStrings?
      isStateful := ← Keyed.fieldOr? members "is_stateful" false Json.asBool?
      tagProperty := ← Keyed.optional? members "tag_property" Json.asString? }

instance : Readable TypeDefinition where
  ofJson? value := do
    let members ← value.asObject?
    return {
      name := ← Keyed.field? members "name" Json.asString?
      documentation := ← Keyed.optional? members "documentation" Json.asString?
      properties := ← Keyed.fieldOr? members "properties" [] PropertyMap.ofJson? }

instance : Readable Region where
  ofJson? value := do
    let members ← value.asObject?
    return { name := ← Keyed.field? members "name" Json.asString? }

instance : Readable Unit where
  ofJson?
    | .null => some ()
    | _ => none

instance : Readable Use where
  ofJson? value := do
    let members ← value.structure? ["via"]
    return { via := ← Keyed.field? members "via" Json.asString? }

def Record.ofJson? {α : Type} [Readable α] (value : Json) : Option (Record α) := do
  let members ← value.asObject?
  return {
    id := ← Keyed.field? members "$id" Identity.ofJson?
    entity := ← Readable.ofJson? value }

def Edge.ofJson? {α : Type} [Readable α] (value : Json) : Option (Edge α) := do
  let members ← value.structure? ["$id", "attrs"]
  return {
    id := ← Keyed.field? members "$id" Identity.ofJson?
    attributes := ← Keyed.field? members "attrs" Readable.ofJson? }

/-! ### Collections and relationships -/

def recordsOfJson? {α : Type} [Readable α] (value : Json) : Option (List (Record α)) :=
  value.asArray?.bind fun items => items.mapM Record.ofJson?

/-- Puts the edges of one entity among those of others, in the order of identities. -/
def Adjacency.insert {α : Type} (id : Identity) (edges : List (Edge α)) : Adjacency α → Adjacency α
  | [] => [(id, edges)]
  | (other, present) :: rest =>
    if id.value < other.value then (id, edges) :: (other, present) :: rest
    else (other, present) :: insert id edges rest

/-- Reads the edges that leave each entity. Every key is an identity in decimal digits. -/
def edgesOfJson? {α : Type} [DecidableEq α] [Readable α] (value : Json) : Option (Edges α) := do
  let entries ← (← value.asObject?).mapM fun (key, list) => do
    let id ← Pointer.index? key
    let edges ← list.asArray?.bind fun items => items.mapM Edge.ofJson?
    return (Identity.mk id, edges)
  return Edges.ofForward (entries.foldl (fun all entry => all.insert entry.1 entry.2) [])

end ResourceCatalog
