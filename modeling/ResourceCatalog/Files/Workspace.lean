import ResourceCatalog.Files.Host
import ResourceCatalog.Files.Path

/-!
# Files in memory

A workspace is a tree of files, a directory in it where commands run, the variables of an
environment and a clock that stands still. Commands run on it as they do on a real system.
-/

namespace ResourceCatalog

/-- What a path leads to. -/
inductive FileNode where
  | file (text : String)
  | directory
  deriving DecidableEq, Repr

structure Workspace where
  /-- The parts of the absolute path of the directory where commands run. It is there, as are those
  above it. -/
  top : List String
  /-- What there is besides, by the parts of its absolute path. -/
  nodes : List (List String × FileNode)
  environment : List (String × String)
  time : String

namespace Workspace

/-! ### Places -/

/-- What is at a place. -/
def node? (workspace : Workspace) (place : List String) : Option FileNode :=
  if place.isPrefixOf workspace.top then some .directory
  else (workspace.nodes.find? fun node => node.1 == place).map Prod.snd

/-- Puts something at a place. -/
def put (workspace : Workspace) (place : List String) (node : FileNode) : Workspace :=
  { workspace with nodes := workspace.nodes.filter (fun old => old.1 != place) ++ [(place, node)] }

/-- The longest name that a file can have, in bytes. -/
def longestName : Nat := 255

/-- The place of a name in a directory. -/
def child (place : List String) (name : String) : Except FileError (List String) :=
  if name.utf8ByteSize ≤ longestName then .ok (place ++ [name]) else .error .nameTooLong

/-- Follows the parts of a path. All but the last one have to lead to directories. -/
def walk (workspace : Workspace) (place : List String) :
    List String → Except FileError (List String)
  | [] => .ok place
  | part :: rest =>
    match workspace.node? place with
    | none => .error .missing
    | some (.file _) => .error .notADirectory
    | some .directory =>
      if Path.isIdle part then walk workspace place rest
      else if part = ".." then walk workspace place.dropLast rest
      else
        match child place part with
        | .ok place => walk workspace place rest
        | .error error => .error error

/-- Follows a path from the root or from the directory where commands run. -/
def follow (workspace : Workspace) (path : String) (parts : List String) :
    Except FileError (List String) :=
  match FileError.ofPath? path with
  | some error => .error error
  | none =>
    if path = "" then .error .missing
    else workspace.walk (if Path.isAbsolute path then [] else workspace.top) parts

/-- The place that a path leads to. -/
def locate (workspace : Workspace) (path : String) : Except FileError (List String) :=
  workspace.follow path (Text.split '/' path)

/-- The directory in which a path names something, and the name. -/
def holder (workspace : Workspace) (path : String) : Except FileError (List String × String) := do
  let parts := (Text.split '/' path).filter (· ≠ "")
  return (← workspace.follow path (parts.dropLast ++ ["."]), parts.getLast?.getD ".")

/-- Whether a name stands for a directory that is there anyway. -/
def isStanding (name : String) : Bool := name == "." || name == ".."

/-! ### Files and directories -/

def readText (workspace : Workspace) (path : String) : Except FileError String := do
  match workspace.node? (← workspace.locate path) with
  | none => .error .missing
  | some .directory => .error .isADirectory
  | some (.file text) => .ok text

def isDirectory (workspace : Workspace) (path : String) : Bool :=
  match workspace.locate path with
  | .ok place => workspace.node? place == some .directory
  | .error _ => false

/-- Writes a file. A path that ends in a slash names a directory. -/
def writeText (workspace : Workspace) (path text : String) : Except FileError Workspace := do
  let (place, name) ← workspace.holder path
  if isStanding name ∨ path.toList.getLast? = some '/' then .error .isADirectory
  else
    let place ← child place name
    match workspace.node? place with
    | some .directory => .error .isADirectory
    | _ => .ok (workspace.put place (.file text))

def makeDirectory (workspace : Workspace) (path : String) : Except FileError Workspace := do
  let (place, name) ← workspace.holder path
  if isStanding name then .error .exists
  else
    let place ← child place name
    match workspace.node? place with
    | some _ => .error .exists
    | none => .ok (workspace.put place .directory)

/-- The paths of the files at or below a path. -/
def filesBelow (workspace : Workspace) (path : String) : List String :=
  match workspace.locate path with
  | .error _ => []
  | .ok place =>
    workspace.nodes.filterMap fun (found, node) =>
      match node with
      | .directory => none
      | .file _ =>
        if found = place then some path
        else if place.isPrefixOf found then
          some (Path.join path (Text.join "/" (found.drop place.length)))
        else none

/-! ### What is in the directory where commands run -/

/-- Puts directories along some parts into the workspace, each one in the one before. -/
def addDirectories (workspace : Workspace) (place : List String) : List String → Workspace
  | [] => workspace
  | part :: rest =>
    let place := place ++ [part]
    addDirectories (workspace.put place .directory) place rest

/-- Puts a file below the directory where commands run, with the directories above it. -/
def addFile (workspace : Workspace) (path text : String) : Workspace :=
  let parts := (Text.split '/' path).filter fun part => !Path.isIdle part
  let above := workspace.addDirectories workspace.top parts.dropLast
  above.put (workspace.top ++ parts) (.file text)

/-- The files below the directory where commands run, by their paths as seen from there. -/
def files (workspace : Workspace) : List (String × String) :=
  workspace.nodes.filterMap fun (place, node) =>
    match node with
    | .file text =>
      if workspace.top.isPrefixOf place then
        some (Text.join "/" (place.drop workspace.top.length), text)
      else none
    | .directory => none

/-! ### As a system -/

/-- Does something that can fail and then leaves the workspace as it was. -/
def change (act : Workspace → Except FileError Workspace) :
    StateM Workspace (Except FileError Unit) := do
  match act (← get) with
  | .ok workspace => do
    set workspace
    return .ok ()
  | .error error => return .error error

instance : Host (StateM Workspace) where
  currentDirectory := return "/" ++ Text.join "/" (← get).top
  environment := return (← get).environment
  now := return (← get).time
  isFile path := return ((← get).readText path).toBool
  isDirectory path := return (← get).isDirectory path
  readText path := return (← get).readText path
  filesBelow path := return (← get).filesBelow path
  makeDirectory path := change fun workspace => workspace.makeDirectory path
  writeText path text := change fun workspace => workspace.writeText path text

end Workspace

end ResourceCatalog
