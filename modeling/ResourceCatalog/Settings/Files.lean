import ResourceCatalog.Files.Host
import ResourceCatalog.Files.Path
import ResourceCatalog.Settings.Environment
import ResourceCatalog.Settings.Reading
import ResourceCatalog.Settings.Toml

/-!
# Where settings are found

Settings are looked for in the current directory, then in the directory for settings of the user,
then in the file that the user names, and last in the environment. What is found later lies over
what is found before. Only the file that the user names has to be there.
-/

namespace ResourceCatalog.Settings

/-- The files in the current directory that may hold settings, the first one lowest. -/
def standardFiles : List String :=
  ["schema-model.toml", ".schema-model.toml", "config/schema-model.toml"]

/-- The file of settings of the user: below the directory that the environment names for settings,
or else below the home directory. -/
def userFile? (environment : List (String × String)) : Option String :=
  match environment.lookup "HOME" with
  | none | some "" => none
  | some home =>
    let directory :=
      match environment.lookup "XDG_CONFIG_HOME" with
      | some directory => if Path.isAbsolute directory then directory else Path.join home ".config"
      | none => Path.join home ".config"
    some (Path.join directory "schema-model/schema-model.toml")

/-- The file that a name without the ending of settings may mean as well. -/
def withEnding? (path : String) : Option String :=
  if ["", ".."].contains (Path.fileName path) then none
  else some (Path.withoutIdleEnd path ++ ".toml")

variable {m : Type → Type} [Monad m] [Host m]

/-- The file that a name leads to: the file itself, or the one with the ending of settings. -/
def findFile (directory name : String) : m (Except SettingsError String) := do
  let path := Path.join directory name
  if ← Host.isFile path then
    if Path.extension? path = some "toml" then return .ok path
    else return .error (.unknownFormat path)
  else
    match withEnding? path with
    | none => return .error (.fileNotFound name)
    | some path =>
      if ← Host.isFile path then return .ok path else return .error (.fileNotFound name)

/-- The settings of a file. -/
def readFile (directory name : String) : m (Except SettingsError SettingsLayer) := do
  match ← findFile directory name with
  | .error error => return .error error
  | .ok path =>
    let place := Path.relativeTo directory path
    match ← Host.readText path with
    | .error error => return .error (.unreadable error)
    | .ok text =>
      match Toml.read? place text with
      | some layer => return .ok layer
      | none => return .error (.malformed place)

/-- The settings of a file that need not be there. -/
def readOptionalFile (directory name : String) : m (Except SettingsError SettingsLayer) := do
  match ← readFile directory name with
  | .error (.malformed place) => return .error (.malformed place)
  | .error _ => return .ok []
  | found => return found

/-- The settings of the file of the user. Where nothing has its name, no other file is tried. -/
def readUserFile (directory name : String) : m (Except SettingsError SettingsLayer) := do
  let path := Path.join directory name
  let isThere := (← Host.isFile path) || (← Host.isDirectory path)
  if isThere then readOptionalFile directory name else return .ok []

/-- The settings for a command that is run in the current directory. -/
def load (named : Option String) : m (Except SettingsError Settings) := do
  let directory ← Host.currentDirectory
  let environment ← Host.environment
  let standard ← standardFiles.mapM (readOptionalFile directory)
  let user ← (userFile? environment).toList.mapM (readUserFile directory)
  let named ← named.toList.mapM (readFile directory)
  return do
    let layers ← (standard ++ user ++ named).mapM id
    Settings.ofLayers (layers ++ [Environment.layer environment])

end ResourceCatalog.Settings
