import ResourceCatalog.Patch.Basic
import ResourceCatalog.Report.Unified
import ResourceCatalog.Text.Split

/-!
# Build reports

A report collects what a build has corrected and what it has given up on. The entries are read by
those who look after a service, so a report is a text for each audience: the entries on the
resources of one service, or on everything that has no service.
-/

namespace ResourceCatalog

/-- The phases of a build, in order. -/
inductive Phase where
  | loading
  | patching
  | interpreting
  deriving DecidableEq, Repr

def Phase.title : Phase → String
  | .loading => "Loading"
  | .patching => "Patching"
  | .interpreting => "Interpreting"

def Phase.name : Phase → String
  | .loading => "loading"
  | .patching => "patching"
  | .interpreting => "interpreting"

/-- What an entry tells. -/
inductive Finding where
  | failure (path : Option String) (message : String)
  | patch (correction : Correction)

structure ReportEntry where
  phase : Phase
  subject : String
  finding : Finding

/-- The entries of a report, in the order in which they were made. -/
structure BuildReport where
  entries : List ReportEntry

/-- The audience of subjects without a service. -/
def everyone : String := "ALL"

/-- The audience of a subject: its service, for a name of at least three segments of which the first
two are not empty. -/
def audienceOf (subject : String) : String :=
  match Text.segments subject with
  | organisation :: service :: _ :: _ =>
    if organisation = "" ∨ service = "" then everyone else s!"{organisation}_{service}"
  | _ => everyone

namespace BuildReport

def empty : BuildReport := ⟨[]⟩

def size (report : BuildReport) : Nat := report.entries.length

def isEmpty (report : BuildReport) : Bool := report.entries.isEmpty

def add (report : BuildReport) (entry : ReportEntry) : BuildReport := ⟨report.entries ++ [entry]⟩

def addFailure (report : BuildReport) (phase : Phase) (subject : String) (path : Option String)
    (message : String) : BuildReport :=
  report.add ⟨phase, subject, .failure path message⟩

def addPatch (report : BuildReport) (correction : Correction) : BuildReport :=
  report.add ⟨.patching, correction.subject, .patch correction⟩

def failures (report : BuildReport) : List ReportEntry :=
  report.entries.filter fun entry =>
    match entry.finding with
    | .failure _ _ => true
    | .patch _ => false

def patches (report : BuildReport) : List Correction :=
  report.entries.filterMap fun entry =>
    match entry.finding with
    | .failure _ _ => none
    | .patch correction => some correction

/-- The entries for an audience. -/
def entriesFor (report : BuildReport) (audience : String) : List ReportEntry :=
  report.entries.filter fun entry => audienceOf entry.subject == audience

/-- The audiences that have entries, in ascending order. -/
def audiences (report : BuildReport) : List String :=
  Keyed.keys (Keyed.ofList (report.entries.map fun entry => (audienceOf entry.subject, ())))

/-! ### Text -/

/-- The text of a value in a diff. -/
def valueText (value : Json) : String := value.pretty ++ "\n"

/-- What a correction changed, as a diff. A removed value has no text. -/
def changeText (correction : Correction) : String :=
  Report.unifiedDiff (valueText correction.before)
    (match correction.after? with
      | some after => valueText after
      | none => "")

def entryText (entry : ReportEntry) : String :=
  match entry.finding with
  | .failure (some path) message => s!"- {entry.subject} {path}: {message}\n"
  | .failure none message => s!"- {entry.subject}: {message}\n"
  | .patch correction =>
    let place := if correction.place = "" then "/" else correction.place
    s!"- {entry.subject} {place}: {correction.reason}\n" ++ changeText correction

/-- The entries of one phase under their title, nothing without any. -/
def phaseText (entries : List ReportEntry) (phase : Phase) : String :=
  let found := entries.filter fun entry => entry.phase == phase
  if found.isEmpty then ""
  else s!"\n== {phase.title} ({found.length}) ==\n" ++ String.join (found.map entryText)

/-- The report for an audience. -/
def textFor (report : BuildReport) (audience : String) : String :=
  let entries := report.entriesFor audience
  s!"Build report for {audience}\n" ++
    String.join ([.loading, .patching, .interpreting].map (phaseText entries))

end BuildReport

/-! ### As documents -/

def Finding.toJson : Finding → Json
  | .failure path message => .obj [
      ("kind", .str "failure"), ("message", .str message),
      ("path", (path.map Json.str).getD .null)]
  | .patch correction => .obj (Keyed.insert "kind" (.str "patch") correction.toMembers)

def ReportEntry.toJson (entry : ReportEntry) : Json :=
  .obj [("kind", entry.finding.toJson), ("phase", .str entry.phase.name),
    ("subject", .str entry.subject)]

end ResourceCatalog
