import ResourceCatalog.Catalog.Database
import ResourceCatalog.Schema.Fingerprint
import ResourceCatalog.Schema.Resolution
import ResourceCatalog.Schema.Unification

/-!
# The types of schemas

The type of a schema is found from the schema with its references followed. Scalars have types of
their own; the branches of `anyOf` and `oneOf` make a union, those of `allOf` are unified; arrays
and maps have the type of their elements. A record becomes a type definition, one for all records
of a resource that differ in their documentation only. A definition is taken in before its
properties are typed, so records that contain themselves come to an end.

A property without a type is recorded as a failure and left out, and typing goes on with the others.
Only an error of the graph ends it.
-/

namespace ResourceCatalog

/-- Why a schema has no type. -/
inductive TypingError where
  | reference (error : Schema.ReferenceError)
  | unsupported (path reason : String)
  | missingAttribute (name : String)
  | unification (error : Schema.UnifyError)
  | graph (error : GraphError)
  /-- Maps that contain each other without a record in between. -/
  | endless (path : String)
  deriving Repr

namespace TypingError

def message : TypingError → String
  | .reference error => error.message
  | .unsupported path reason => s!"Unsupported schema at {path}: {reason}"
  | .missingAttribute name => s!"Attribute {name} not found in schema"
  | .unification error => s!"Unification failed: {error.message}"
  | .graph error => error.message
  | .endless path => s!"Unsupported schema at {path}: maps without end"

/-- Whether typing ends with the error. It lies in the graph, not in a document. -/
def isFatal : TypingError → Bool
  | .graph _ => true
  | _ => false

end TypingError

/-- A property that has no type. -/
structure TypingFailure where
  /-- The names on the way to the property, with dots in between. -/
  path : String
  error : TypingError
  deriving Repr

/-- What is known while a resource is typed. -/
structure TypingState where
  database : Database
  supply : Supply
  /-- The definitions of the resource by the fingerprints of their schemas. -/
  seen : List (String × Identity)
  /-- The names of these definitions. -/
  names : List String
  /-- The failures so far, the last one first. -/
  failures : List TypingFailure

/-- A computation that types; what it has changed stays when it fails. -/
abbrev Typing := ExceptT TypingError (StateM TypingState)

/-- The resource that is typed and the document that describes it. -/
structure Subject where
  resource : Identity
  document : Json

namespace Typing

/-! ### Steps -/

/-- The path of a name below a path. -/
def joinPath (base name : String) : String :=
  if base = "" then name else s!"{base}.{name}"

/-- What a schema says about itself. -/
def documentation? (schema : Json) : Option String :=
  ((schema.member? "description").or (schema.member? "markdownDescription")).bind Json.asString?

def ofReference {α : Type} (result : Except Schema.ReferenceError α) : Typing α :=
  liftM (result.mapError TypingError.reference)

def ofGraph {α : Type} (result : Except GraphError α) : Typing α :=
  liftM (result.mapError TypingError.graph)

def ofUnification {α : Type} (result : Except Schema.UnifyError α) : Typing α :=
  liftM (result.mapError TypingError.unification)

def resolve (subject : Subject) (schema : Json) : Typing Schema.Resolved :=
  ofReference (Schema.resolve subject.document schema)

/-- Records a failure. A fatal one is passed on. -/
def recordFailure (path : String) (error : TypingError) : Typing Unit :=
  if error.isFatal then throw error
  else modify fun state => { state with failures := ⟨path, error⟩ :: state.failures }

def render (type : PropertyType) : Typing String := do
  ofGraph ((← get).database.render type)

/-- Notes that the resource uses a definition. -/
def addUse (subject : Subject) (definition : Identity) (path : String) : Typing Unit :=
  modify fun state => { state with
    database := { state.database with
      usesType := state.database.usesType.add subject.resource definition ⟨path⟩ } }

/-- The names that are tried for a definition: a name, and then the name with the numbers from two
on. -/
def candidateName (base : String) (i : Nat) : String := if i = 0 then base else s!"{base}{i + 1}"

/-- The first candidate that is not among some names. -/
def freeName (names : List String) (base : String) : String :=
  let base := if base = "" then "Type" else base
  let candidates := (List.range (names.length + 1)).map (candidateName base)
  (candidates.find? fun name => !names.contains name).getD base

/-- Takes in a definition without properties under a name that is not in use yet. -/
def startDefinition (fingerprint name : String) : Typing Identity := do
  let state ← get
  let name := freeName state.names name
  let (id, typeDefinitions, supply) :=
    state.database.typeDefinitions.allocate state.supply (TypeDefinition.ofName name)
  set { state with
    database := { state.database with typeDefinitions }
    supply := supply
    seen := (fingerprint, id) :: state.seen
    names := name :: state.names }
  return id

/-- Gives a definition its documentation and properties. -/
def finishDefinition (id : Identity) (documentation : Option String) (properties : PropertyMap) :
    Typing Unit := do
  let state ← get
  let typeDefinitions ← ofGraph (state.database.typeDefinitions.update id fun definition =>
    { definition with documentation, properties })
  set { state with database := { state.database with typeDefinitions } }

/-! ### Types by way of the types one level further in -/

section Level

variable (inner : String → String → Schema.Resolved → Typing PropertyType) (subject : Subject)

/-- The type of a schema one level further in. -/
def typeInner (path hint : String) (schema : Json) : Typing PropertyType := do
  inner path hint (← resolve subject schema)

/-- A property of a schema. What the schema does not say itself, its target may say. -/
def propertyOf (path name : String) (schema : Json) : Typing Property := do
  let resolved ← resolve subject schema
  let type ← inner path name resolved
  return { Property.ofType type with
    documentation := (documentation? schema).or (documentation? resolved.schema)
    default := (schema.member? "default").or (resolved.schema.member? "default")
    deprecated := ((schema.member? "deprecated").bind Json.asBool?).getD false }

/-- The properties of a record that have a type, by name. -/
def propertiesOf (base : String) (required : List String) : Members → Typing PropertyMap
  | [] => return []
  | (name, schema) :: rest => do
    let path := joinPath base name
    let found ← tryCatch (some <$> propertyOf inner subject path name schema) fun error => do
      recordFailure path error
      return none
    let others ← propertiesOf base required rest
    match found with
    | some property =>
      return Keyed.insert name { property with required := required.contains name } others
    | none => return others

/-- The properties that a schema declares, apart from some names. -/
def declaredProperties (base : String) (schema : Json) (excluded : List String) :
    Typing PropertyMap :=
  propertiesOf inner subject base (Schema.requiredNames schema)
    ((Schema.properties schema).filter fun entry => !excluded.contains entry.1)

/-- The definition of a record: the one there is, or a new one. -/
def definitionOf (path name : String) (schema : Json) : Typing Identity := do
  let fingerprint := Schema.fingerprint schema
  match (← get).seen.lookup fingerprint with
  | some id =>
    addUse subject id path
    return id
  | none =>
    let id ← startDefinition fingerprint name
    addUse subject id path
    let properties ← declaredProperties inner subject path schema []
    finishDefinition id (documentation? schema) properties
    return id

/-- The type of the values of a map. Several schemas are resolved and unified first. -/
def typeOfValues (path name : String) (values : List Json) : Typing PropertyType := do
  match values with
  | [single] => typeInner inner subject path name single
  | several =>
    let resolved ← several.mapM (resolve subject)
    let unified ← ofUnification (Schema.unifyAll (resolved.map Schema.Resolved.schema))
    let name := (resolved.findSome? Schema.Resolved.name?).getD name
    typeInner inner subject path name unified

/-- The type of a schema for objects. -/
def typeOfObject (path name : String) (schema : Json) : Typing PropertyType := do
  if Schema.isRecord schema then
    return .ref (← definitionOf inner subject path name schema)
  else if Schema.isMap schema then
    return .map (← typeOfValues inner subject path name (Schema.mapValues schema))
  else return .json

/-- Whether a schema lists texts as its only values. -/
def enumeratesTexts (schema : Json) : Bool :=
  match schema.member? "enum" with
  | some (.arr values) => values.all Json.isString
  | _ => false

/-- The type of a schema that is neither a combinator nor for arrays. -/
def typeOfConcrete (path name : String) (schema : Json) : Typing PropertyType :=
  let unsupported (reason : String) : Typing PropertyType := throw (.unsupported path reason)
  match schema.member? "type" with
  | some (.str type) =>
    match type with
    | "string" =>
      match schema.member? "format" with
      | some (.str "date-time") => return .dateTime
      | _ => return .string
    | "number" => return .number
    | "integer" => return .number
    | "boolean" => return .boolean
    | "null" => return .null
    | "object" => typeOfObject inner subject path name schema
    | other => unsupported s!"type '{other}'"
  | some other => unsupported s!"type {other.compact}"
  | none =>
    if Schema.isRecord schema || Schema.isMap schema then
      typeOfObject inner subject path name schema
    else if enumeratesTexts schema then return .string
    else if Schema.isUnconstrained schema then return .json
    else unsupported "schema without a type"

/-- Whether a branch says anything about the values. -/
def isConstrained (branch : Schema.Resolved) : Bool := !Schema.isUnconstrained branch.schema

/-- The type of what several branches describe together. -/
def typeOfAll (path hint : String) (branches : List Schema.Resolved) : Typing PropertyType := do
  let unified ← ofUnification (Schema.unifyAll (branches.map Schema.Resolved.schema))
  let name := (branches.findSome? Schema.Resolved.name?).getD hint
  typeInner inner subject path name unified

mutual

/-- The type of a resolved schema. The hint is the name for a record that was not reached through a
reference. -/
def typeOf (path hint : String) : Schema.Resolved → Typing PropertyType
  | .concrete schema name => typeOfConcrete inner subject path (name.getD hint) schema
  | .array _ _ none => return .array .json
  | .array _ _ (some items) => return .array (← typeOf path hint items)
  | .combined _ _ .allOf branches => do
    match branches.filter isConstrained with
    | [] => return .json
    | [_] => typeOfConstrained path hint branches
    | several => typeOfAll inner subject path hint several
  | .combined _ _ .anyOf branches => do unionOf (← typesOf path hint [] branches)
  | .combined _ _ .oneOf branches => do unionOf (← typesOf path hint [] branches)
where
  /-- The union of some types. -/
  unionOf : List PropertyType → Typing PropertyType
    | [] => throw (.unsupported path "combinator without branches")
    | [single] => return single
    | types => return .union types

/-- The type of the first branch that says anything. -/
def typeOfConstrained (path hint : String) : List Schema.Resolved → Typing PropertyType
  | [] => return .json
  | branch :: rest =>
    if isConstrained branch then typeOf path hint branch else typeOfConstrained path hint rest

/-- The types of some branches, without those whose text has been seen. -/
def typesOf (path hint : String) (seen : List String) :
    List Schema.Resolved → Typing (List PropertyType)
  | [] => return []
  | branch :: rest => do
    let type ← typeOf path hint branch
    let text ← render type
    if seen.contains text then typesOf path hint seen rest
    else return type :: (← typesOf path hint (text :: seen) rest)

end

end Level

/-! ### Types -/

/-- The type of a resolved schema, going in at most so many levels. A level ends where a record, the
values of a map or a unified schema begins. -/
def typeWithin (subject : Subject) : Nat → String → String → Schema.Resolved → Typing PropertyType
  | 0 => fun path _ _ => throw (.endless path)
  | levels + 1 => typeOf (typeWithin subject levels) subject

/-- More levels than there can be in schemas of some size: a record is entered once, and between two
records lie no more maps and unified schemas than can be made of the parts of the schemas. -/
def levelsFor (document schema : Json) : Nat := Nat.pow (document.size + schema.size + 2) 8

/-- The property that a schema describes. -/
def property (subject : Subject) (path name : String) (schema : Json) : Typing Property :=
  propertyOf (typeWithin subject (levelsFor subject.document schema)) subject path name schema

/-- The properties that a schema declares, apart from some names. -/
def properties (subject : Subject) (base : String) (schema : Json) (excluded : List String) :
    Typing PropertyMap :=
  declaredProperties (typeWithin subject (levelsFor subject.document schema)) subject base schema
    excluded

end Typing

end ResourceCatalog
