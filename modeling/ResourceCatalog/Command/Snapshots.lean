import ResourceCatalog.Catalog.Snapshot
import ResourceCatalog.Command.Outcome
import ResourceCatalog.Files.Directories
import ResourceCatalog.Files.Path
import ResourceCatalog.Json.Printer
import ResourceCatalog.Json.Reader

/-!
# Snapshots in files

A snapshot is read from a file and written to one. What goes wrong on the way is told together with
the name of the file.
-/

namespace ResourceCatalog

def SnapshotError.failure (error : SnapshotError) : Failure := Failure.ofKind "Store" error.message

/-- The text of a snapshot, on one line or indented. -/
def Snapshot.text (pretty : Bool) (snapshot : Snapshot) : String :=
  if pretty then snapshot.toJson.pretty else snapshot.toJson.compact

/-- The database that the text of a snapshot describes, and the supply that is left. -/
def Database.ofText (text : String) (supply : Supply) : Except Failure (Database × Supply) := do
  let document ← (Json.readOutline Snapshot.fields text).mapError fun error =>
    Failure.ofKind "JSON" error.message
  match Snapshot.ofJson? document with
  | none => throw (Failure.ofKind "JSON" "not a snapshot")
  | some snapshot =>
    let (result, supply) := Database.load snapshot supply
    let db ← result.mapError SnapshotError.failure
    return (db, supply)

namespace Session

variable {m : Type → Type} [Monad m] [Host m]

/-- Reads the database of a snapshot file. -/
def loadDatabase (path : String) (supply : Supply) : Session m (Database × Supply) := do
  let during := Failure.during s!"Failed to load snapshot {path}"
  let text ← ofExcept (fun error => during (Failure.ofFile error)) (← ask (Host.readText path))
  ofExcept during (Database.ofText text supply)

/-- Writes a snapshot file, in a directory that is made if it is missing. -/
def saveDatabase (path : String) (pretty : Bool) (db : Database) : Session m Unit := do
  let failure (error : FileError) : Failure :=
    Failure.during s!"Failed to write snapshot {path}" (Failure.ofFile error)
  match Path.parent? path with
  | none => pure ()
  | some directory => ofExcept failure (← ask (Host.makeDirectories directory))
  let snapshot := db.save (← ask Host.now)
  ofExcept failure (← ask (Host.writeText path (snapshot.text pretty)))

/-- Prints the counts of a database. -/
def printStats (db : Database) : Session m Unit :=
  for (name, count) in db.stats do
    let margin := String.ofList (List.replicate (22 - name.length) ' ')
    printLine s!"   {name}{margin} {count}"

end Session

end ResourceCatalog
