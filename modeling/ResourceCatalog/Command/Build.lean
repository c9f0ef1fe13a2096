import ResourceCatalog.Command.Snapshots
import ResourceCatalog.Import.LateBinding
import ResourceCatalog.Import.Registry
import ResourceCatalog.Settings.Basic
import ResourceCatalog.Text.Quoted

/-!
# Building a catalog from files

The files of the registry are imported, late facts are bound, the snapshot is written and then the
reports, one for each audience. Files that cannot be read do not stop the build; the reports name
them.
-/

namespace ResourceCatalog

def BuildError.failure : BuildError → Failure
  | .graph error => Failure.ofKind "Store" error.message
  | .unsettled state => Failure.ofKind "Patch" state.message
  | .typing error => Failure.ofKind "Interpretation" error.message

/-- What the settings name of the resources in a finished catalog: which are stateful, and which are
in which region. -/
def Binding.settings (settings : BuildSettings) : Binding Unit := do
  let _ ← Binding.markStateful settings.statefulResources
  for (region, names) in settings.regions do
    let _ ← Binding.linkRegion region names

/-- A builder with nothing in it yet. -/
def Builder.start (settings : BuildSettings) : Builder where
  database := Database.empty
  supply := Supply.full
  rules :=
    if settings.standardRules then RuleBook.empty.install Standard.provider else RuleBook.empty
  attributePointer := settings.attributePointer
  report := BuildReport.empty
  imported := 0

/-- The catalog of a registry and the report of its build. -/
def buildCatalog (settings : BuildSettings) (legacy : Option LegacySpec)
    (files : List RegistryFile) : Except Failure (Database × BuildReport) := do
  let (result, builder) := (Building.importFiles legacy files).run.run (Builder.start settings)
  result.mapError BuildError.failure
  let (result, db, _) := (Binding.settings settings).run.run (builder.database, builder.supply)
  result.mapError Failure.ofGraph
  return (db, builder.report)

/-- The legacy specification that a text describes. -/
def LegacySpec.ofText (text : String) : Except Failure LegacySpec := do
  let document ← (Json.read text).mapError fun error => Failure.ofKind "JSON" error.message
  match LegacySpec.ofJson? document with
  | none => throw ⟨["Invalid document for legacy specification"]⟩
  | some spec => return spec

namespace Session

variable {m : Type → Type} [Monad m] [Host m]

/-- Reads the legacy specification. -/
def loadLegacySpec (path : String) : Session m LegacySpec := do
  let during := Failure.during s!"Failed to load legacy specification {path}"
  let text ← ofExcept (fun error => during (Failure.ofFile error)) (← ask (Host.readText path))
  let spec ← ofExcept during (LegacySpec.ofText text)
  let count := spec.size
  printLine s!"   Legacy specification lists {count} resource types"
  return spec

/-- Reads a file of the registry. -/
def registryFile (path : String) : m RegistryFile := do
  match ← Host.readText path with
  | .error error =>
    let reason := error.message
    return ⟨path, .error s!"Failed to read {path}: {reason}"⟩
  | .ok text =>
    match Json.read text with
    | .error error =>
      let reason := error.message
      return ⟨path, .error s!"Failed to parse JSON in {path}: {reason}"⟩
    | .ok document => return ⟨path, .ok document⟩

/-- Writes the reports into a directory that is made if it is missing. -/
def saveReports (directory : String) (report : BuildReport) : Session m Unit := do
  ofExcept Failure.ofFile (← ask (Host.makeDirectories directory))
  for audience in report.audiences do
    let path := Path.join directory (audience ++ ".txt")
    ofExcept Failure.ofFile (← ask (Host.writeText path (report.textFor audience)))

/-- Says how much there is in the reports, if there is anything. -/
def printSummary (directory : String) (report : BuildReport) : Session m Unit := do
  let failures := report.failures.length
  let patches := report.patches.length
  let directory := Text.quoted directory
  if failures ≠ 0 then
    printLine s!"\n⚠️  {failures} failures and {patches} corrections, see {directory}"
  else if patches ≠ 0 then
    printLine s!"\n✅ {patches} corrections applied, see {directory}"

/-- Builds a catalog and writes it with its reports. -/
def build (settings : Settings) : Session m Unit := do
  let current ← ask (Host.currentDirectory)
  let registry := Path.join current settings.sources.registryDirectory
  printLine ("📂 Loading registry schemas from: " ++ Text.quoted registry)
  let legacy ← settings.sources.legacySpec.mapM loadLegacySpec
  let paths := RegistryFile.select (← ask (Host.filesBelow registry))
  let files ← paths.mapM fun path => ask (registryFile path)
  let (db, report) ← ofExcept id (buildCatalog settings.build legacy files)
  let snapshot := Path.join current settings.output.snapshot
  saveDatabase snapshot settings.output.pretty db
  printLine ("✅ Wrote snapshot to: " ++ Text.quoted snapshot)
  let reports := Path.join current settings.output.reportDirectory
  saveReports reports report
  printLine ""
  printStats db
  printSummary reports report

end Session

end ResourceCatalog
