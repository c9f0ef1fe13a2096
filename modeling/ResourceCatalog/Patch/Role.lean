import ResourceCatalog.Patch.Cursor

/-!
# What a place of a schema document holds

The root of a schema document is a schema. From there on, the key and the kind of value decide
whether a place holds a schema, a map from names to schemas, a list of schemas, or plain data such
as the value of a keyword, a member of an enumeration or a default. Below data there is only data.
-/

namespace ResourceCatalog

/-- What a place of a schema document holds. -/
inductive Role where
  | schema
  | nameMap
  | schemaList
  | data
  deriving DecidableEq, Repr

namespace Role

def name : Role → String
  | .schema => "schema"
  | .nameMap => "name_map"
  | .schemaList => "schema_list"
  | .data => "data"

/-- The keywords whose object maps names to schemas. -/
def nameMapKeys : List String := ["properties", "patternProperties", "definitions", "$defs"]

/-- The keywords whose array lists schemas. -/
def schemaListKeys : List String := ["anyOf", "oneOf", "allOf", "prefixItems"]

/-- The keywords whose object is a schema. -/
def schemaKeys : List String :=
  ["items", "additionalProperties", "not", "if", "then", "else", "contains"]

/-- What a member of a schema holds. -/
def ofKeyword (key : String) (value : Json) : Role :=
  if nameMapKeys.contains key && value.isObject then .nameMap
  else if schemaListKeys.contains key && value.isArray then .schemaList
  else if key == "items" && value.isArray then .schemaList
  else if schemaKeys.contains key && value.isObject then .schema
  else .data

/-- What a value holds, given what its container holds. -/
def below (container : Role) (key : Key) (value : Json) : Role :=
  match container, key with
  | .nameMap, .property _ => .schema
  | .schemaList, .index _ => .schema
  | .schema, .property name => ofKeyword name value
  | _, _ => .data

/-- What the place at the end of a trail holds. -/
def ofTrail (value : Json) : Trail → Role
  | [] => .schema
  | step :: rest => below (ofTrail step.container rest) step.key value

end Role

/-- What the place holds. -/
def Cursor.role (c : Cursor) : Role := Role.ofTrail c.value c.trail

end ResourceCatalog
