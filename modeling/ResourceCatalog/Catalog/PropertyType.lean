import ResourceCatalog.Graph.Collection
import ResourceCatalog.Text.Split

/-!
# Property types

A property type is what is left of a schema: a scalar, an opaque document, a reference to a type
definition, or arrays, maps and unions of property types. Its rendering names the definitions it
refers to, so types of two databases can be compared by their renderings.
-/

namespace ResourceCatalog

/-- The type of a value. -/
inductive PropertyType where
  | string
  | number
  | boolean
  | dateTime
  /-- A document about which no more is known. -/
  | json
  | null
  /-- A reference to a type definition. -/
  | ref (definition : Identity)
  | array (element : PropertyType)
  /-- A map from texts. -/
  | map (element : PropertyType)
  | union (types : List PropertyType)
  deriving Repr, Inhabited

namespace PropertyType

mutual

/-- The text of a type, given the names of type definitions. -/
def render (nameOf : Identity → Except GraphError String) : PropertyType → Except GraphError String
  | .string => .ok "string"
  | .number => .ok "number"
  | .boolean => .ok "boolean"
  | .dateTime => .ok "date-time"
  | .json => .ok "json"
  | .null => .ok "null"
  | .ref definition => nameOf definition
  | .array element => (render nameOf element).map fun text => s!"Array<{text}>"
  | .map element => (render nameOf element).map fun text => s!"Map<string, {text}>"
  | .union types => (renderAll nameOf types).map (Text.join " | ")

def renderAll (nameOf : Identity → Except GraphError String) :
    List PropertyType → Except GraphError (List String)
  | [] => .ok []
  | type :: rest => do
    let text ← render nameOf type
    return text :: (← renderAll nameOf rest)

end

mutual

/-- The type definitions that a type mentions, from left to right. -/
def references : PropertyType → List Identity
  | .ref definition => [definition]
  | .array element => references element
  | .map element => references element
  | .union types => referencesOfAll types
  | _ => []

def referencesOfAll : List PropertyType → List Identity
  | [] => []
  | type :: rest => references type ++ referencesOfAll rest

end

end PropertyType

end ResourceCatalog
