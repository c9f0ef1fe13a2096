import ResourceCatalog.Command.Arguments
import ResourceCatalog.Command.Build
import ResourceCatalog.Comparison.Rendering
import ResourceCatalog.Settings.Files

/-!
# Running a command

A command line is read, the settings are loaded, and the command that it names is run. The settings
are loaded for every command, so wrong settings stop them all.
-/

namespace ResourceCatalog

/-- The settings with those that the command line names in their place. -/
def Settings.override (settings : Settings) (registry legacy output : Option String) : Settings :=
  { settings with
    sources := {
      registryDirectory := registry.getD settings.sources.registryDirectory
      legacySpec := legacy.or settings.sources.legacySpec }
    output := { settings.output with snapshot := output.getD settings.output.snapshot } }

namespace Session

variable {m : Type → Type} [Monad m] [Host m]

/-- Prints what changed between two snapshots. -/
def compare (old new : String) (asJson : Bool) : Session m Unit := do
  let (before, supply) ← loadDatabase old Supply.full
  let (after, _) ← loadDatabase new supply
  let change ← ofExcept Failure.ofGraph (Comparison.databases before after)
  if asJson then printLine change.toJson.pretty else print change.text

/-- Prints the counts of a snapshot. -/
def stats (path : String) : Session m Unit := do
  let (db, _) ← loadDatabase path Supply.full
  printLine s!"📊 {path}"
  printStats db

/-- Runs a command under settings. -/
def execute (settings : Settings) : Command → Session m Unit
  | .build registry legacy output => build (settings.override registry legacy output)
  | .compare old new asJson => compare old new asJson
  | .stats snapshot => stats snapshot

def invoke (invocation : Invocation) : Session m Unit := do
  let failure (error : SettingsError) : Failure :=
    ⟨["Failed to load configuration", error.message]⟩
  let settings ← ofExcept failure (← ask (Settings.load invocation.settingsFile))
  execute settings invocation.command

end Session

/-- How the program is called. -/
def usage : String :=
  "Usage: schema-model [OPTIONS] <COMMAND>\n\n" ++
  "Commands:\n" ++
  "  build  Build the model and write the snapshot and reports\n" ++
  "  diff   Show what changed between two snapshots\n" ++
  "  stats  Print entity and relationship counts of a snapshot\n\n" ++
  "Options:\n" ++
  "  -c, --config <CONFIG>  Configuration file\n" ++
  "  -h, --help             Print help\n"

/-- Runs a command line. -/
def run {m : Type → Type} [Monad m] [Host m] (arguments : List String) : m Outcome :=
  match CommandLine.ofArguments arguments with
  | .invoke invocation => (Session.invoke invocation).outcome
  | .help => return ⟨0, usage, ""⟩
  | .malformed => return ⟨2, "", usage⟩

end ResourceCatalog
