import ResourceCatalog.Command.Run
import ResourceCatalog.Text.Timestamp

/-!
# The program

The command line on a real system. All that happens here is that the questions of a command are
answered by the system.
-/

namespace ResourceCatalog.LiveHost

/-- The error of a file as the system tells it. Some of its functions give the number of an error
as a negative one. -/
def fileError (error : IO.Error) : FileError :=
  let numbered (code : UInt32) (details : String) : FileError :=
    match (if code.toNat < 0x80000000 then code.toNat else UInt32.size - code.toNat) with
    | 2 => .missing
    | 17 => .exists
    | 20 => .notADirectory
    | 21 => .isADirectory
    | 36 => .nameTooLong
    | code =>
      let details := details.capitalize
      .other s!"{details} (os error {code})"
  match error with
  | .otherError code details | .resourceBusy code details | .resourceVanished code details
  | .unsupportedOperation code details | .hardwareFault code details
  | .unsatisfiedConstraints code details | .illegalOperation code details
  | .protocolError code details | .timeExpired code details => numbered code details
  | .alreadyExists _ code details | .invalidArgument _ code details
  | .permissionDenied _ code details | .resourceExhausted _ code details
  | .inappropriateType _ code details | .noSuchThing _ code details => numbered code details
  | .interrupted _ code details | .noFileOrDirectory _ code details => numbered code details
  | .unexpectedEof => .other "unexpected end of file"
  | .userError message => .other message

/-- Does something to the file at a path and tells the error if it fails. -/
def attempt {α : Type} (path : String) (act : IO α) : IO (Except FileError α) := do
  match FileError.ofPath? path with
  | some error => return .error error
  | none =>
    match ← act.toBaseIO with
    | .ok a => return .ok a
    | .error error => return .error (fileError error)

/-- The text of a file. -/
def readText (path : String) : IO (Except FileError String) := do
  match ← attempt path (IO.FS.readBinFile path) with
  | .error error => return .error error
  | .ok bytes =>
    match String.fromUTF8? bytes with
    | some text => return .ok text
    | none => return .error .notText

/-- The variables of the environment, as the system keeps them in a file of the process. -/
def environment : IO (List (String × String)) := do
  match ← readText "/proc/self/environ" with
  | .error _ => return []
  | .ok text =>
    return (Text.split (Char.ofNat 0) text).filterMap fun entry =>
      let (name, rest) := (entry.toList.takeWhile (· != '='), entry.toList.dropWhile (· != '='))
      match rest with
      | [] => none
      | _ :: value => some (String.ofList name, String.ofList value)

/-- The time at which the system made the file of the process, which it does when it is asked. -/
def now : IO String := do
  let file := (← IO.currentDir) / "/proc/self/environ"
  let time := (← file.metadata).modified
  return Timestamp.ofSeconds time.sec time.nsec.toNat

/-- The kind of what is at a path. -/
def kind? (path : String) : IO (Option IO.FS.FileType) := do
  let file := (← IO.currentDir) / path
  match ← attempt path file.metadata with
  | .ok found => return some found.type
  | .error _ => return none

/-- The files below a directory. Links are not followed. -/
partial def filesBelow (path : String) : IO (List String) := do
  let directory := (← IO.currentDir) / path
  match ← attempt path directory.readDir with
  | .error _ => return []
  | .ok entries =>
    let found ← entries.toList.mapM fun entry => do
      let path := Path.join path entry.fileName
      match ← entry.path.symlinkMetadata.toBaseIO with
      | .error _ => return []
      | .ok found =>
        match found.type with
        | .file => return [path]
        | .dir => filesBelow path
        | _ => return []
    return found.flatten

instance : Host IO where
  currentDirectory := return (← IO.currentDir).toString
  environment := environment
  now := now
  isFile path := return (← kind? path) == some .file
  isDirectory path := return (← kind? path) == some .dir
  readText := readText
  filesBelow path := do if (← kind? path) == some .file then return [path] else filesBelow path
  makeDirectory path := attempt path (IO.FS.createDir path)
  writeText path text := attempt path (IO.FS.writeFile path text)

end ResourceCatalog.LiveHost

def main (arguments : List String) : IO UInt32 := do
  let outcome ← (ResourceCatalog.run arguments : IO ResourceCatalog.Outcome)
  IO.print outcome.printed
  IO.eprint outcome.complaint
  return outcome.exitCode.toUInt32
