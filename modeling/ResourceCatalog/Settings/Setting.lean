import ResourceCatalog.Files.Host
import ResourceCatalog.Number.Literal
import ResourceCatalog.Text.Quoted

/-!
# Settings as they are given

A setting is a value on its own, a list of settings or a table of settings by key. What comes from a
file or from the environment knows where it was given. A table that came about when layers were laid
over one another was given nowhere.
-/

namespace ResourceCatalog

/-- A value on its own. -/
inductive Scalar where
  | flag (b : Bool)
  | integer (i : Int)
  | decimals (d : Decimals)
  | text (s : String)
  deriving DecidableEq, Repr

/-- A setting, with the place that it was given at. -/
inductive Setting where
  | scalar (place : String) (value : Scalar)
  | list (place : Option String) (items : List Setting)
  | table (place : Option String) (entries : List (String × Setting))
  /-- An item of a list that nothing was said about, only about a later one. -/
  | missing
  deriving Repr

/-- Why there are no settings. -/
inductive SettingsError where
  | fileNotFound (name : String)
  | unreadable (error : FileError)
  /-- The name of a file does not say what is in it. -/
  | unknownFormat (path : String)
  | malformed (path : String)
  /-- A setting does not stand for a value of the kind that is needed. -/
  | wrongKind (found expected key : String) (place : Option String)
  /-- A setting is not made of the parts that are needed. -/
  | wrongShape (found expected : String)
  deriving DecidableEq, Repr

namespace SettingsError

def message : SettingsError → String
  | .fileNotFound name => s!"configuration file \"{name}\" not found"
  | .unreadable error => error.message
  | .unknownFormat path =>
    s!"configuration file \"{path}\" is not of a registered file format"
  | .malformed path => s!"malformed document in {path}"
  | .wrongKind found expected key place =>
    let key := if key.isEmpty then "" else " for key `" ++ key ++ "`"
    let place := match place with
      | some place => s!" in {place}"
      | none => ""
    s!"invalid type: {found}, expected {expected}" ++ key ++ place
  | .wrongShape found expected => s!"invalid type: {found}, expected {expected}"

/-- An error below a segment of a key. There is a point between two segments unless the second one
begins with a bracket. -/
def below (segment : String) : SettingsError → SettingsError
  | .wrongKind found expected key place =>
    let point := match key.toList with
      | [] | '[' :: _ => ""
      | _ => "."
    .wrongKind found expected (segment ++ point ++ key) place
  | error => error

end SettingsError

namespace Setting

/-- What a setting is, for a message. -/
def kind : Setting → String
  | .scalar _ (.flag b) => "boolean `" ++ (if b then "true" else "false") ++ "`"
  | .scalar _ (.integer i) => s!"integer `{i}`"
  | .scalar _ (.decimals d) => "floating point `" ++ d.render true ++ "`"
  | .scalar _ (.text s) => "string " ++ Text.quoted s
  | .list _ _ => "sequence"
  | .table _ _ => "map"
  | .missing => "unit value"

def place? : Setting → Option String
  | .scalar place _ => some place
  | .list place _ => place
  | .table place _ => place
  | .missing => none

end Setting

end ResourceCatalog
