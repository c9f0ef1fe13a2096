import ResourceCatalog.Files.Host
import ResourceCatalog.Files.Path

/-!
# Making directories

A system makes a directory only in one that is there. Where a whole path is wanted, the missing
directories are made from above.
-/

namespace ResourceCatalog.Host

variable {m : Type → Type} [Monad m] [Host m]

/-- Makes a directory unless there is one already. -/
def makeDirectoryOnce (path : String) : m (Except FileError Unit) := do
  match ← makeDirectory path with
  | .ok () => return .ok ()
  | .error error => if ← isDirectory path then return .ok () else return .error error

/-- Makes the first of some directories, each of which lies in the next one. The others are made as
far as they are missing. -/
def makeDirectoriesFrom : List String → m (Except FileError Unit)
  | [] => return .error .missing
  | path :: above => do
    match ← makeDirectoryOnce path with
    | .error .missing =>
      match ← makeDirectoriesFrom above with
      | .ok () => makeDirectoryOnce path
      | .error error => return .error error
    | result => return result

/-- Makes a directory and those above it, as far as they are missing. -/
def makeDirectories (path : String) : m (Except FileError Unit) :=
  if path = "" then return .ok () else makeDirectoriesFrom (Path.ancestors path)

end ResourceCatalog.Host
