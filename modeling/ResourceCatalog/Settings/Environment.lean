import ResourceCatalog.Settings.Layers
import ResourceCatalog.Text.Split

/-!
# Settings from the environment

A variable that begins with `SCHEMA_MODEL__`, in any mixture of cases, holds a setting. The rest of
its name is the address of the setting, in which pairs of underscores stand for points.
-/

namespace ResourceCatalog.Environment

/-- The variables that hold settings begin like this in lower case. -/
def start : List Char := "schema_model__".toList

/-- A text with a point for each pair of underscores. Pairs are taken from the left. -/
def pointed : List Char → List Char
  | '_' :: '_' :: rest => '.' :: pointed rest
  | c :: rest => c :: pointed rest
  | [] => []

/-- The text of the address that a variable stands for. -/
def address? (name : String) : Option String :=
  let name := (Text.lowercase name).toList
  if Text.startsWith start name then some (String.ofList (pointed (name.drop start.length)))
  else none

/-- What a text stands for: a flag, a number or itself. -/
def value (text : String) : Scalar :=
  let word := Text.lowercase text
  if word = "true" then .flag true
  else if word = "false" then .flag false
  else
    match Literal.int? text, Literal.decimals? text with
    | some i, _ => .integer i
    | none, some d => .decimals d
    | none, none => .text text

/-- The settings that variables hold. -/
def layer (environment : List (String × String)) : SettingsLayer :=
  environment.filterMap fun (name, text) =>
    (address? name).map fun address => (address, .scalar "the environment" (value text))

end ResourceCatalog.Environment
