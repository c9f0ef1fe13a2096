import ResourceCatalog.Json.Printer

/-!
# The shape of a schema

A schema that is not a combinator has one of a few kinds, told from its `type` and, where that is
missing, from the keywords it has. Objects come in three kinds: records declare their properties,
maps give a schema for the values under arbitrary keys, and open objects do neither.
-/

namespace ResourceCatalog.Schema

/-- The keywords of which an unconstrained schema has none. -/
def shapeKeys : List String :=
  ["type", "$ref", "enum", "const", "properties", "additionalProperties", "patternProperties",
    "items", "anyOf", "oneOf", "allOf", "not"]

/-- Whether a schema accepts everything. -/
def isUnconstrained : Json → Bool
  | .bool true => true
  | .obj members => !shapeKeys.any (Keyed.contains members)
  | _ => false

/-- Whether a schema declares named properties. -/
def isRecord (schema : Json) : Bool :=
  match schema.member? "properties" with
  | some (.obj _) => true
  | _ => false

/-- Whether a keyword of a schema gives a schema for the values under further keys. -/
def describesValues : Option Json → Bool
  | some (.obj _) => true
  | some (.bool true) => true
  | _ => false

/-- Whether a schema gives schemas for the values under arbitrary keys. -/
def isMap (schema : Json) : Bool :=
  !isRecord schema &&
    (describesValues (schema.member? "additionalProperties") ||
      (match schema.member? "patternProperties" with
        | some (.obj _) => true
        | _ => false))

/-- The schemas of a map's values: that of `additionalProperties`, then those of
`patternProperties`. -/
def mapValues (schema : Json) : List Json :=
  (match schema.member? "additionalProperties" with
    | some (.bool true) => [.obj []]
    | some (.obj members) => [.obj members]
    | _ => []) ++
  (match schema.member? "patternProperties" with
    | some (.obj patterns) => Keyed.values patterns
    | _ => [])

/-- The kind of a schema. -/
inductive Kind where
  /-- Anything goes. -/
  | any
  | reference (target : String)
  | string
  | number
  | boolean
  | null
  | array
  | record
  | map
  | openObject
  /-- A schema without a rule, and why there is none. -/
  | unsupported (reason : String)
  deriving DecidableEq, Repr

def Kind.text : Kind → String
  | .any => "any"
  | .reference target => s!"reference {target}"
  | .string => "string"
  | .number => "number"
  | .boolean => "boolean"
  | .null => "null"
  | .array => "array"
  | .record => "record object"
  | .map => "map object"
  | .openObject => "open object"
  | .unsupported reason => s!"unsupported ({reason})"

/-- The kind of a schema for objects. -/
def objectKind (schema : Json) : Kind :=
  if isRecord schema then .record
  else if isMap schema then .map
  else .openObject

/-- The kind of a schema whose `type` is a text. -/
def namedKind (schema : Json) (type : String) : Kind :=
  match type with
  | "string" => .string
  | "number" => .number
  | "integer" => .number
  | "boolean" => .boolean
  | "null" => .null
  | "array" => .array
  | "object" => objectKind schema
  | other => .unsupported s!"type {other}"

/-- The kind of a schema without a `type`. -/
def untypedKind (members : Members) : Kind :=
  if ["properties", "additionalProperties", "patternProperties"].any members.contains then
    objectKind (.obj members)
  else if members.contains "items" then .array
  else
    match (members.get? "enum").bind Json.asArray? with
    | some values =>
      if !values.isEmpty && values.all Json.isString then .string
      else .unsupported "untyped enum"
    | none => .any

def kind : Json → Kind
  | .bool true => .any
  | .obj members =>
    match Keyed.get? "$ref" members with
    | some (.str target) => .reference target
    | some _ => .unsupported "non-string $ref"
    | none =>
      if ["anyOf", "oneOf", "allOf", "not"].any (Keyed.contains members) then
        .unsupported "combinator"
      else
        match Keyed.get? "type" members with
        | some (.str type) => namedKind (.obj members) type
        | some other => .unsupported s!"type {other.compact}"
        | none => untypedKind members
  | other => .unsupported s!"schema {other.compact}"

end ResourceCatalog.Schema
