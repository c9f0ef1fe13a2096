import ResourceCatalog.Schema.Shape

/-!
# Unification

Two schemas of one type are unified into the narrowest schema, among those the rules can write, that
accepts what either of them accepts.

* Strings: enumerations are joined, bounds on the length widened, patterns become alternatives.
* Numbers: an integer and a number are a number, bounds are widened, enumerations joined.
* Arrays: the schemas of the items are unified, bounds widened.
* Records: shared properties are unified, the others kept; what only one side requires is optional.
* Maps: the schemas of all values become one.

A keyword without a rule is kept where both sides agree on it. Going into a property, an item or a
value goes down one level, so the depth of the schemas bounds the recursion.
-/

namespace ResourceCatalog.Schema

/-- Why two schemas do not unify. -/
inductive UnifyError where
  | kindMismatch (left right : Kind)
  | referenceMismatch (left : String) (right : Kind)
  | objectShapeMismatch
  | unsupported (reason : String)
  | property (name : String) (cause : UnifyError)
  | items (cause : UnifyError)
  | empty
  deriving DecidableEq, Repr

def UnifyError.message : UnifyError → String
  | .kindMismatch left right => s!"Cannot unify {left.text} with {right.text}"
  | .referenceMismatch left right => s!"Cannot unify reference {left} with {right.text}"
  | .objectShapeMismatch => "Cannot unify record-like object with map-like object"
  | .unsupported reason => s!"Unsupported schema shape: {reason}"
  | .property name cause => s!"Property '{name}': {cause.message}"
  | .items cause => s!"Array items: {cause.message}"
  | .empty => "Nothing to unify"

/-! ### Keywords -/

/-- The keywords on which both schemas agree, apart from those that a rule handles. -/
def agreed (a b : Json) (handled : List String) : Members :=
  match a, b with
  | .obj left, .obj right =>
    left.filter fun (key, value) =>
      !handled.contains key &&
        match Keyed.get? key right with
        | some other => other.same value
        | none => false
  | _, _ => []

/-- The values of a list with those of another that are not among them behind. -/
def joinValues (values new : List Json) : List Json :=
  new.foldl (fun values value => if value.memberOf values then values else values ++ [value]) values

/-- Joins the enumerations, if both schemas have one. -/
def joinEnums (a b : Json) (out : Members) : Members :=
  match a.member? "enum", b.member? "enum" with
  | some (.arr left), some (.arr right) => out.insert "enum" (.arr (joinValues left right))
  | _, _ => out

/-- Which of two bounds is the wider one. -/
inductive Bound where
  | lower
  | upper
  deriving DecidableEq, Repr

/-- The wider of two bounds. Of two equal lower bounds it is the first, of two equal upper bounds
the second. -/
def Bound.wider (bound : Bound) (x y : Number) : Number :=
  match bound, x.toDouble.le y.toDouble with
  | .lower, true => x
  | .lower, false => y
  | .upper, true => y
  | .upper, false => x

/-- Widens the bound under a keyword, if both schemas have it. -/
def widen (a b : Json) (key : String) (bound : Bound) (out : Members) : Members :=
  match a.member? key, b.member? key with
  | some (.num x), some (.num y) => out.insert key (.num (bound.wider x y))
  | _, _ => out

/-- A pattern for the texts that match either of two patterns. -/
def alternatives (x y : String) : String :=
  if x = y then x else s!"({x})|({y})"

def joinPatterns (a b : Json) (out : Members) : Members :=
  match a.member? "pattern", b.member? "pattern" with
  | some (.str x), some (.str y) => out.insert "pattern" (.str (alternatives x y))
  | _, _ => out

/-- The names that a record requires. -/
def requiredNames (schema : Json) : List String :=
  (((schema.member? "required").bind Json.asArray?).getD []).filterMap Json.asString?

/-- The properties that a record declares. -/
def properties (schema : Json) : Members :=
  ((schema.member? "properties").bind Json.asObject?).getD []

/-! ### Rules -/

def unifyStrings (a b : Json) : Json :=
  .obj (joinPatterns a b (widen a b "maxLength" .upper (widen a b "minLength" .lower
    (joinEnums a b (agreed a b ["enum", "minLength", "maxLength", "pattern"])))))

def isInteger (schema : Json) : Bool :=
  match schema.member? "type" with
  | some (.str "integer") => true
  | _ => false

def unifyNumbers (a b : Json) : Json :=
  let type := if isInteger a && isInteger b then "integer" else "number"
  .obj (widen a b "maximum" .upper (widen a b "minimum" .lower
    (joinEnums a b
      (Keyed.insert "type" (.str type) (agreed a b ["type", "enum", "minimum", "maximum"])))))

/-- What two objects have in common that say nothing about the same keys. -/
def unifyOpenObjects (a b : Json) : Json :=
  .obj (Keyed.insert "type" (.str "object")
    (agreed a b ["properties", "additionalProperties", "patternProperties", "required"]))

section Nested

variable (inner : Json → Json → Except UnifyError Json)

/-- Unifies any number of schemas from the left. -/
def unifyAllWith : List Json → Except UnifyError Json
  | [] => .error .empty
  | first :: rest => rest.foldlM inner first

def unifyArrays (a b : Json) : Except UnifyError Json :=
  let out := widen a b "maxItems" .upper (widen a b "minItems" .lower
    (agreed a b ["items", "minItems", "maxItems"]))
  match a.member? "items", b.member? "items" with
  | some x, some y =>
    match inner x y with
    | .ok items => .ok (.obj (out.insert "items" items))
    | .error e => .error (.items e)
  | _, _ => .ok (.obj out)

/-- Unifies each property of one record with the property of the same name of the other, if it has
one. -/
def unifyShared (right : Members) : Members → Except UnifyError Members
  | [] => .ok []
  | (name, schema) :: rest => do
    let merged ←
      match Keyed.get? name right with
      | some other => (inner schema other).mapError (UnifyError.property name)
      | none => .ok schema
    return (name, merged) :: (← unifyShared right rest)

/-- Adds the properties that are not there yet. -/
def addMissing (properties : Members) (new : Members) : Members :=
  new.foldl
    (fun properties entry =>
      if properties.contains entry.1 then properties else properties.insert entry.1 entry.2)
    properties

def unifyRecords (a b : Json) : Except UnifyError Json := do
  let shared ← unifyShared inner (properties b) (properties a)
  let required := (requiredNames a).filter (requiredNames b).contains
  let out := Keyed.insert "properties" (.obj (addMissing shared (properties b)))
    (agreed a b ["properties", "required"])
  return .obj (if required.isEmpty then out else out.insert "required" (Json.strings required))

def unifyMaps (a b : Json) : Except UnifyError Json := do
  let values ← unifyAllWith inner (mapValues a ++ mapValues b)
  return .obj (Keyed.insert "additionalProperties" values
    (agreed a b ["additionalProperties", "patternProperties"]))

/-- Unifies two different schemas by the rule for their kinds. -/
def unifyKinds (a b : Json) : Except UnifyError Json :=
  match kind a, kind b with
  | .unsupported reason, _ => .error (.unsupported reason)
  | _, .unsupported reason => .error (.unsupported reason)
  | .reference left, .reference right =>
    if left = right then .ok (.obj (agreed a b []))
    else .error (.referenceMismatch left (.reference right))
  | .reference left, right => .error (.referenceMismatch left right)
  | left, .reference right => .error (.referenceMismatch right left)
  | .any, _ => .ok (.obj [])
  | _, .any => .ok (.obj [])
  | .string, .string => .ok (unifyStrings a b)
  | .number, .number => .ok (unifyNumbers a b)
  | .boolean, .boolean => .ok (.obj (agreed a b []))
  | .null, .null => .ok (.obj (agreed a b []))
  | .array, .array => unifyArrays inner a b
  | .record, .record => unifyRecords inner a b
  | .map, .map => unifyMaps inner a b
  | .record, .map => .error .objectShapeMismatch
  | .map, .record => .error .objectShapeMismatch
  | .openObject, .openObject => .ok (unifyOpenObjects a b)
  | .openObject, .record => .ok (unifyOpenObjects a b)
  | .openObject, .map => .ok (unifyOpenObjects a b)
  | .record, .openObject => .ok (unifyOpenObjects a b)
  | .map, .openObject => .ok (unifyOpenObjects a b)
  | left, right => .error (.kindMismatch left right)

/-- Unifies two schemas. Equal ones unify to the first. -/
def unifyWith (a b : Json) : Except UnifyError Json :=
  if a.same b then .ok a else unifyKinds inner a b

end Nested

/-- Unifies two schemas that are nested no deeper than a bound. Schemas of depth zero have nothing
nested in them. -/
def unifyAt : Nat → Json → Json → Except UnifyError Json
  | 0 => unifyWith fun a _ => .ok a
  | bound + 1 => unifyWith (unifyAt bound)

/-- The schema that accepts what either of two schemas accepts. -/
def unify (a b : Json) : Except UnifyError Json := unifyAt (max a.depth b.depth) a b

/-- The schema that accepts what any of some schemas accepts. -/
def unifyAll (schemas : List Json) : Except UnifyError Json := unifyAllWith unify schemas

end ResourceCatalog.Schema
