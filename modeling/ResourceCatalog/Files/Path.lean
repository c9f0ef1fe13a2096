import ResourceCatalog.Text.Split

/-!
# Names of files

The name of a file is a path: parts with slashes between them. A path that begins with a slash is
absolute; any other one is meant below some directory. Parts that are empty or a single point say
nothing.
-/

namespace ResourceCatalog.Path

def isAbsolute (path : String) : Bool := path.toList.head? == some '/'

/-- A path as seen from a directory. -/
def join (directory path : String) : String :=
  if isAbsolute path ∨ directory = "" then path
  else if directory.toList.getLast? = some '/' then directory ++ path
  else directory ++ "/" ++ path

theorem join_absolute {path : String} (directory : String) (h : isAbsolute path = true) :
    join directory path = path := by
  simp [join, h]

/-- Whether a part of a path says nothing. -/
def isIdle (part : String) : Bool := part == "" || part == "."

/-- The parts of a path. The first one stays whatever it is. -/
def parts (path : String) : List String :=
  match Text.split '/' path with
  | [] => []
  | first :: rest => first :: rest.filter fun part => !isIdle part

/-- Whether a path comes before another one. Paths are compared part by part. -/
def before (a b : String) : Bool := (parts a).lex (parts b)

/-- The order of paths, for sorting. -/
def le (a b : String) : Bool := !before b a

/-- The directory that holds what a path names, if the path says it. -/
def parent? (path : String) : Option String :=
  match parts path with
  | [] | [_] => none
  | ["", _] => some "/"
  | all => some (Text.join "/" all.dropLast)

/-- A path and the directories above it that it says, from below. -/
def ancestors (path : String) : List String :=
  let rec above : List String → List String
    | [] | [_] => []
    | _ :: rest => Text.join "/" rest.reverse :: above rest
  path :: (above (parts path).reverse).map fun path => if path = "" then "/" else path

/-- The last part of a path. -/
def fileName (path : String) : String := ((parts path).getLast?).getD ""

/-- A file name cut at its last point: the stem and the extension. A point at the front belongs to
the stem. -/
def stemAndExtension (path : String) : String × Option String :=
  let name := fileName path
  match Text.cutLast '.' name.toList with
  | none | some ([], _) | some (['.'], []) => (name, none)
  | some (stem, extension) => (String.ofList stem, some (String.ofList extension))

def stem (path : String) : String := (stemAndExtension path).1

def extension? (path : String) : Option String := (stemAndExtension path).2

/-- A path without the slashes and single points that follow its last part. -/
def withoutIdleEnd (path : String) : String :=
  let rec trim : List Char → List Char
    | '/' :: rest | '.' :: '/' :: rest => trim rest
    | rest => rest
  String.ofList (trim path.toList.reverse).reverse

/-- The parts of a path as seen from a directory: up to where they meet, then down. -/
def relativeParts : List String → List String → List String
  | above :: directory, part :: path =>
    if above = part then relativeParts directory path
    else List.replicate (directory.length + 1) ".." ++ part :: path
  | directory, path => List.replicate directory.length ".." ++ path

/-- A path as seen from a directory. Both are absolute. -/
def relativeTo (directory path : String) : String :=
  Text.join "/" (relativeParts (parts directory) (parts path))

end ResourceCatalog.Path
