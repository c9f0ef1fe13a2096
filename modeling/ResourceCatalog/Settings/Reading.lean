import ResourceCatalog.Settings.Basic
import ResourceCatalog.Settings.Layers

/-!
# Reading settings

What is left of the layers at the end is read into settings. A value may stand for one of another
kind, such as the text `yes` for true, because an environment has only texts. A structure is a table
of its fields or a list of the first ones.
-/

namespace ResourceCatalog

namespace Setting

/-- Reads a setting, or says what it should have been. -/
abbrev Reader (α : Type) := Setting → Except SettingsError α

variable {α : Type}

/-! ### Values -/

/-- The error of a value of the wrong kind. -/
def wrongKind (expected : String) (found : Setting) : Except SettingsError α :=
  .error (.wrongKind found.kind expected "" found.place?)

/-- The error of a setting of the wrong shape. -/
def wrongShape (expected : String) (found : Setting) : Except SettingsError α :=
  .error (.wrongShape found.kind expected)

/-- The words for true and for false. -/
def flagOfWord? (word : String) : Option Bool :=
  if ["1", "true", "on", "yes"].contains word then some true
  else if ["0", "false", "off", "no"].contains word then some false
  else none

/-- A number is true unless it is zero. Words count in any case. -/
def flag : Reader Bool
  | .scalar _ (.flag b) => .ok b
  | .scalar _ (.integer i) => .ok (i != 0)
  | .scalar _ (.decimals d) => .ok !d.isZero
  | .scalar place (.text s) =>
    let word := Text.lowercase s
    match flagOfWord? word with
    | some b => .ok b
    | none => wrongKind "a boolean" (.scalar place (.text word))
  | other => wrongKind "a boolean" other

/-- Flags and numbers are texts as well. -/
def text : Reader String
  | .scalar _ (.flag b) => .ok (if b then "true" else "false")
  | .scalar _ (.integer i) => .ok (toString i)
  | .scalar _ (.decimals d) => .ok d.text
  | .scalar _ (.text s) => .ok s
  | other => wrongKind "a string" other

/-- A setting that need not be there. -/
def optional (read : Reader α) : Reader (Option α)
  | .missing => .ok none
  | setting => some <$> read setting

/-! ### Settings made of others -/

/-- Reads a setting below a segment of a key. -/
def readBelow (segment : String) (read : Reader α) (setting : Setting) : Except SettingsError α :=
  (read setting).mapError (SettingsError.below segment)

/-- The segment of a key that an item of a list stands for. -/
def itemSegment (i : Nat) : String := s!"[{i}]"

/-- The items of a list. -/
def listOf (read : Reader α) : Reader (List α)
  | .list _ items => items.zipIdx.mapM fun (item, i) => readBelow (itemSegment i) read item
  | other => wrongShape "a sequence" other

/-- Values by key. -/
def keyed (read : Reader α) : Reader (Keyed α)
  | .table _ entries => entries.mapM fun (key, value) => do
    return (key, ← readBelow key read value)
  | other => wrongShape "a map" other

/-- A field of a structure as it is given: its segment of a key, and what it holds. -/
abbrev Field := String × Setting

/-- The fields of a structure by name. -/
def fields (structureName : String) (names : List String) : Reader (List (String × Field))
  | .table _ entries => .ok (entries.map fun (key, value) => (key, key, value))
  | .list _ items =>
    .ok (names.zip (items.zipIdx.map fun (item, i) => (itemSegment i, item)))
  | other => wrongShape s!"struct {structureName}" other

/-- A field of a structure, or its default. -/
def field (given : List (String × Field)) (name : String) (default : α) (read : Reader α) :
    Except SettingsError α :=
  match given.lookup name with
  | none => .ok default
  | some (segment, setting) => readBelow segment read setting

end Setting

open Setting

def SourceSettings.ofSetting : Setting.Reader SourceSettings := fun setting => do
  let given ← fields "SourcesConfig" ["registry_dir", "legacy_spec"] setting
  let default : SourceSettings := {}
  return {
    registryDirectory := ← field given "registry_dir" default.registryDirectory text
    legacySpec := ← field given "legacy_spec" default.legacySpec (optional text) }

def BuildSettings.ofSetting : Setting.Reader BuildSettings := fun setting => do
  let given ← fields "BuildConfig"
    ["attribute_pointer", "standard_rules", "stateful_resources", "regions"] setting
  let default : BuildSettings := {}
  return {
    attributePointer := ← field given "attribute_pointer" default.attributePointer text
    standardRules := ← field given "standard_rules" default.standardRules flag
    statefulResources := ← field given "stateful_resources" default.statefulResources (listOf text)
    regions := ← field given "regions" default.regions (keyed (listOf text)) }

def OutputSettings.ofSetting : Setting.Reader OutputSettings := fun setting => do
  let given ← fields "OutputConfig" ["snapshot", "report_dir", "pretty"] setting
  let default : OutputSettings := {}
  return {
    snapshot := ← field given "snapshot" default.snapshot text
    reportDirectory := ← field given "report_dir" default.reportDirectory text
    pretty := ← field given "pretty" default.pretty flag }

/-- Reads settings. What no key stands for is ignored. -/
def Settings.ofSetting : Setting.Reader Settings := fun setting => do
  let given ← fields "ModelConfig" ["sources", "build", "output"] setting
  return {
    sources := ← field given "sources" {} SourceSettings.ofSetting
    build := ← field given "build" {} BuildSettings.ofSetting
    output := ← field given "output" {} OutputSettings.ofSetting }

/-- Reads settings from layers, the first one lowest. -/
def Settings.ofLayers (layers : List SettingsLayer) : Except SettingsError Settings :=
  Settings.ofSetting (Setting.ofLayers layers)

end ResourceCatalog
