import ResourceCatalog.Import.LegacySpec
import ResourceCatalog.Import.Pruning
import ResourceCatalog.Import.Typing
import ResourceCatalog.Patch.RuleBook
import ResourceCatalog.Patch.Settle
import ResourceCatalog.Report.Basic

/-!
# Building the catalog

A document that describes a resource is corrected until it is settled, then its properties and
attributes are typed, and the resource, its service and the definitions it uses are put into the
database. What was put right, and what had no type, goes into the report. A resource that is
imported again keeps the types that its properties had before.

An error of the graph, or a document that does not settle, ends the import; what has been changed
until then stays.
-/

namespace ResourceCatalog

/-- Why an import ends. -/
inductive BuildError where
  | graph (error : GraphError)
  | unsettled (state : Unsettled)
  | typing (error : TypingError)

def BuildError.message : BuildError → String
  | .graph error => s!"Store error: {error.message}"
  | .unsettled state => s!"Patch error: {state.message}"
  | .typing error => s!"Interpretation error: {error.message}"

/-- A build: the catalog as far as it is made, and the report. -/
structure Builder where
  database : Database
  supply : Supply
  rules : RuleBook
  /-- Where a document lists the pointers of its attributes. -/
  attributePointer : String
  report : BuildReport
  /-- The number of documents imported. -/
  imported : Nat

/-- Where documents list the pointers of their attributes, unless a setting says otherwise. -/
def defaultAttributePointer : String := "/readOnlyProperties"

/-- A step of a build; what it has changed stays when it fails. -/
abbrev Building := ExceptT BuildError (StateM Builder)

/-! ### What a document lists -/

/-- The path of a pointer to a property: `/properties/Endpoint/Address` is `Endpoint.Address`. -/
def propertyPath? (pointer : String) : Option String :=
  if pointer.startsWith "/properties/" then
    let rest := pointer.toList.drop "/properties/".length
    some (Text.join "." ((Text.splitOn '/' rest).map fun token =>
      String.ofList (Pointer.unescapeChars token)))
  else none

/-- The paths of the properties whose pointers a document lists at some place. -/
def listedPaths (document : Json) (place : String) : List String :=
  ((((document.find? place).bind Json.asArray?).getD []).filterMap Json.asString?).filterMap
    propertyPath?

/-- The texts of a list without repetitions, each where it comes first. -/
def distinct (texts : List String) : List String :=
  texts.foldl (fun found text => if found.contains text then found else found ++ [text]) []

/-- The names of the attributes: those that the document lists, then those that only the legacy
specification knows. -/
def attributeNames (document : Json) (place : String) (legacy : List String) : List String :=
  distinct (listedPaths document place ++ legacy)

/-- The schema of an attribute from the segments of its name. References are followed on the way. -/
def attributeSchema (subject : Subject) (name : String) (schema : Json) :
    List String → Typing Json
  | [] => throw (.missingAttribute name)
  | segment :: rest => do
    match (schema.member? "properties").bind fun properties => properties.member? segment with
    | none => throw (.missingAttribute name)
    | some found =>
      if rest.isEmpty then return found
      else
        let resolved ← Typing.resolve subject found
        attributeSchema subject name resolved.schema rest

/-- The attributes that have a type, by name. -/
def attributesOf (subject : Subject) : List String → Typing PropertyMap
  | [] => return []
  | name :: rest => do
    let typed : Typing Property := do
      let schema ← attributeSchema subject name subject.document (Text.split '.' name)
      Typing.property subject name (String.ofList (Text.afterLast '.' name.toList)) schema
    let found ← tryCatch (some <$> typed) fun error => do
      Typing.recordFailure name error
      return none
    let others ← attributesOf subject rest
    match found with
    | some property => return Keyed.insert name property others
    | none => return others

/-! ### Steps -/

namespace Building

def ofGraph {α : Type} (result : Except GraphError α) : Building α :=
  liftM (result.mapError BuildError.graph)

/-- Finds or makes the resource of a name, and links it to its service. -/
def startResource (typeName : String) : Building Identity := do
  let state ← get
  let (resource, database, supply) ← ofGraph (state.database.upsertResource state.supply typeName)
  set { state with database, supply }
  match Service.ofTypeName? typeName with
  | none => return resource
  | some service =>
    let (service, database, supply) ← ofGraph (database.upsertService supply service)
    set { state with
      database := { database with
        hasResource := database.hasResource.add service resource () }
      supply }
    return resource

/-- Types the properties of a document, apart from some names, and some attributes. -/
def typeDocument (subject : Subject) (names : List String) :
    Building (PropertyMap × PropertyMap × List TypingFailure) := do
  let state ← get
  let typed : Typing (PropertyMap × PropertyMap) := do
    let excluded := names.filter fun name => !name.toList.contains '.'
    let properties ← Typing.properties subject "" subject.document excluded
    return (properties, ← attributesOf subject names)
  let (result, typing) := typed.run.run ⟨state.database, state.supply, [], [], []⟩
  set { state with database := typing.database, supply := typing.supply }
  match result with
  | .ok (properties, attributes) => return (properties, attributes, typing.failures.reverse)
  | .error error => throw (.typing error)

/-- Gives new properties the types that the old ones of the same name had before. -/
def keepHistory (db : Database) (old : PropertyMap) : PropertyMap → Building PropertyMap
  | [] => return []
  | (name, property) :: rest => do
    let kept ←
      match Keyed.get? name old with
      | some before => do
        let (_, merged) ← ofGraph (before.updateType db property.type)
        pure { property with previousTypes := merged.previousTypes }
      | none => pure property
    return (name, kept) :: (← keepHistory db old rest)

/-- Changes the properties of some names. -/
def mark (change : Property → Property) (names : List String) (properties : PropertyMap) :
    PropertyMap :=
  properties.map fun (name, property) =>
    (name, if names.contains name then change property else property)

/-- The property that holds the tags: the one that the document names, or `Tags`. -/
def tagProperty? (document : Json) (properties : PropertyMap) : Option String :=
  (((document.find? "/tagging/tagProperty").bind Json.asString?).bind propertyPath?).or
    (if properties.contains "Tags" then some "Tags" else none)

/-- The documentation of a resource, from its document or else from the legacy specification. -/
def documentation? (document : Json) (typeName : String) (legacy : Option LegacySpec) :
    Option String :=
  ((document.member? "description").bind Json.asString?).or
    (legacy.bind fun spec => spec.documentation? typeName)

/-- Puts what a settled document says into the database. -/
def interpret (typeName : String) (legacy : Option LegacySpec) (document : Json) :
    Building Identity := do
  let resource ← startResource typeName
  let names := attributeNames document (← get).attributePointer
    ((legacy.map fun spec => spec.attributeNames typeName).getD [])
  let (replaced, usesType) := (← get).database.usesType.removeOutgoing resource
  modify fun state => { state with database := { state.database with usesType } }
  let (properties, attributes, failures) ← typeDocument ⟨resource, document⟩ names
  let db := (← get).database
  let existing ← ofGraph (db.resources.get resource)
  let properties ← keepHistory db existing.entity.properties properties
  let attributes ← keepHistory db existing.entity.attributes attributes
  let properties := mark (fun p => { p with causesReplacement := true })
    (listedPaths document "/createOnlyProperties") properties
  let properties := mark (fun p => { p with deprecated := true })
    (listedPaths document "/deprecatedProperties") properties
  let resources ← ofGraph (db.resources.update resource fun r => { r with
    documentation := documentation? document typeName legacy
    properties, attributes
    primaryIdentifier := listedPaths document "/primaryIdentifier"
    tagProperty := tagProperty? document properties })
  let db := { db with resources }
  let (pruned, db) :=
    if replaced.isEmpty then (.ok (), db)
    else (prune resource (replaced.map Edge.id)).run.run db
  modify fun state => { state with database := db }
  ofGraph pruned
  modify fun state => { state with
    report := failures.foldl
      (fun report failure =>
        report.addFailure .interpreting typeName (some failure.path) failure.error.message)
      state.report
    imported := state.imported + 1 }
  return resource

/-- Corrects a document and puts what it says into the database. Returns the resource, or nothing
for a document that is not an object. -/
def importResource (typeName : String) (document : Json) (legacy : Option LegacySpec) :
    Building (Option Identity) := do
  if !document.isObject then
    modify fun state => { state with
      report := state.report.addFailure .loading typeName none "document is not a JSON object" }
    return none
  else
    match settle ((← get).rules.ruleFor typeName) typeName document with
    | .error unsettled => throw (.unsettled unsettled)
    | .ok settled =>
      modify fun state => { state with
        report := settled.mistakes.foldl BuildReport.addPatch state.report }
      return some (← interpret typeName legacy settled.document)

end Building

end ResourceCatalog
