import ResourceCatalog.Catalog.Decoding
import ResourceCatalog.Import.Builder

/-!
# Settings

The settings of a build say where the documents are, what to do with them and where the results go.
Every setting has a default, so a document of settings need name only what differs.
-/

namespace ResourceCatalog

/-- Where the documents are. -/
structure SourceSettings where
  registryDirectory : String := "schemas"
  legacySpec : Option String := none
  deriving DecidableEq, Repr

/-- What the build does. -/
structure BuildSettings where
  attributePointer : String := defaultAttributePointer
  standardRules : Bool := true
  /-- The names of the resource types to mark as stateful. -/
  statefulResources : List String := []
  /-- The names of the resource types in each region. -/
  regions : Keyed (List String) := []
  deriving DecidableEq, Repr

/-- Where the results go. -/
structure OutputSettings where
  snapshot : String := "model.json"
  reportDirectory : String := "reports"
  pretty : Bool := false
  deriving DecidableEq, Repr

structure Settings where
  sources : SourceSettings := {}
  build : BuildSettings := {}
  output : OutputSettings := {}
  deriving DecidableEq, Repr

/-! ### As a document -/

def SourceSettings.toJson (s : SourceSettings) : Json :=
  .obj (Keyed.ofList [
    ("registry_dir", .str s.registryDirectory),
    ("legacy_spec", (s.legacySpec.map Json.str).getD .null)])

def BuildSettings.toJson (s : BuildSettings) : Json :=
  .obj (Keyed.ofList [
    ("attribute_pointer", .str s.attributePointer),
    ("standard_rules", .bool s.standardRules),
    ("stateful_resources", .strings s.statefulResources),
    ("regions", .obj (s.regions.mapValues Json.strings))])

def OutputSettings.toJson (s : OutputSettings) : Json :=
  .obj (Keyed.ofList [
    ("snapshot", .str s.snapshot),
    ("report_dir", .str s.reportDirectory),
    ("pretty", .bool s.pretty)])

def Settings.toJson (s : Settings) : Json :=
  .obj (Keyed.ofList [
    ("sources", s.sources.toJson), ("build", s.build.toJson), ("output", s.output.toJson)])

def SourceSettings.ofJson? (value : Json) : Option SourceSettings := do
  let members ← value.structure? ["registry_dir", "legacy_spec"]
  let default : SourceSettings := {}
  return {
    registryDirectory :=
      ← Keyed.fieldOr? members "registry_dir" default.registryDirectory Json.asString?
    legacySpec := ← Keyed.optional? members "legacy_spec" Json.asString? }

def BuildSettings.ofJson? (value : Json) : Option BuildSettings := do
  let members ← value.structure?
    ["attribute_pointer", "standard_rules", "stateful_resources", "regions"]
  let default : BuildSettings := {}
  let regions? (value : Json) : Option (Keyed (List String)) := do
    (← value.asObject?).mapM fun entry => entry.2.asStrings?.map fun names => (entry.1, names)
  return {
    attributePointer :=
      ← Keyed.fieldOr? members "attribute_pointer" default.attributePointer Json.asString?
    standardRules :=
      ← Keyed.fieldOr? members "standard_rules" default.standardRules Json.asBool?
    statefulResources :=
      ← Keyed.fieldOr? members "stateful_resources" default.statefulResources Json.asStrings?
    regions := ← Keyed.fieldOr? members "regions" default.regions regions? }

def OutputSettings.ofJson? (value : Json) : Option OutputSettings := do
  let members ← value.structure? ["snapshot", "report_dir", "pretty"]
  let default : OutputSettings := {}
  return {
    snapshot := ← Keyed.fieldOr? members "snapshot" default.snapshot Json.asString?
    reportDirectory :=
      ← Keyed.fieldOr? members "report_dir" default.reportDirectory Json.asString?
    pretty := ← Keyed.fieldOr? members "pretty" default.pretty Json.asBool? }

/-- Reads settings from a document. No kind of value stands for another one here. -/
def Settings.ofJson? (value : Json) : Option Settings := do
  let members ← value.structure? ["sources", "build", "output"]
  return {
    sources := ← Keyed.fieldOr? members "sources" {} SourceSettings.ofJson?
    build := ← Keyed.fieldOr? members "build" {} BuildSettings.ofJson?
    output := ← Keyed.fieldOr? members "output" {} OutputSettings.ofJson? }

end ResourceCatalog
