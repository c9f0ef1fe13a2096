/-!
# What a command asks of the system

A command reads and writes files and looks at variables and the time. It does so through these
questions only, so it runs on a real system as well as on files in memory.
-/

namespace ResourceCatalog

/-- Why a file cannot be read or written. -/
inductive FileError where
  | missing
  | exists
  | notADirectory
  | isADirectory
  | nameTooLong
  /-- A path has a null character in it, which no system takes. -/
  | nullInPath
  /-- The bytes of a file are not UTF-8. -/
  | notText
  | other (message : String)
  deriving DecidableEq, Repr

def FileError.message : FileError → String
  | .missing => "No such file or directory (os error 2)"
  | .exists => "File exists (os error 17)"
  | .notADirectory => "Not a directory (os error 20)"
  | .isADirectory => "Is a directory (os error 21)"
  | .nameTooLong => "File name too long (os error 36)"
  | .nullInPath => "file name contained an unexpected NUL byte"
  | .notText => "stream did not contain valid UTF-8"
  | .other message => message

/-- What is wrong with a path on every system. -/
def FileError.ofPath? (path : String) : Option FileError :=
  if path.toList.contains (Char.ofNat 0) then some .nullInPath else none

/-- A system that a command runs on. -/
class Host (m : Type → Type) where
  currentDirectory : m String
  /-- The variables of the environment. -/
  environment : m (List (String × String))
  /-- The point in time. -/
  now : m String
  isFile : String → m Bool
  isDirectory : String → m Bool
  readText : String → m (Except FileError String)
  /-- The files at or below a path, in any order. Where there is nothing, there are none. -/
  filesBelow : String → m (List String)
  /-- Makes a directory in one that is there. -/
  makeDirectory : String → m (Except FileError Unit)
  /-- Writes a file whose directory is there. -/
  writeText : String → String → m (Except FileError Unit)

end ResourceCatalog
