/-!
# The command line

A command line names one of three commands. Options stand before or after what they belong to, take
their value from the same argument or from the next one, and are given at most once. The file of
settings may be named before the command as well as after it; the name after it counts.
-/

namespace ResourceCatalog

/-- What is to be done. -/
inductive Command where
  | build (registry legacy output : Option String)
  | compare (old new : String) (asJson : Bool)
  | stats (snapshot : String)
  deriving DecidableEq, Repr

/-- A command and the file of settings that the command line names. -/
structure Invocation where
  settingsFile : Option String
  command : Command
  deriving DecidableEq, Repr

/-- What a command line asks for. -/
inductive CommandLine where
  | invoke (invocation : Invocation)
  | help
  | malformed
  deriving DecidableEq, Repr

namespace Arguments

/-- The commands. -/
inductive Verb where
  | build
  | diff
  | stats
  deriving DecidableEq, Repr

def Verb.ofWord? (word : String) : Option Verb :=
  match word with
  | "build" => some .build
  | "diff" => some .diff
  | "stats" => some .stats
  | _ => none

/-- The number of names that a command takes. -/
def Verb.arity : Verb → Nat
  | .build => 0
  | .diff => 2
  | .stats => 1

/-- The options. -/
inductive OptionName where
  | config
  | registry
  | legacy
  | output
  | json
  deriving DecidableEq, Repr

namespace OptionName

def ofLetter? (letter : Char) : Option OptionName :=
  match letter with
  | 'c' => some .config
  | 'r' => some .registry
  | 'l' => some .legacy
  | 'o' => some .output
  | _ => none

def ofWord? (word : String) : Option OptionName :=
  match word with
  | "config" => some .config
  | "registry" => some .registry
  | "legacy" => some .legacy
  | "output" => some .output
  | "json" => some .json
  | _ => none

/-- Whether an option may stand before or after a command. -/
def allowed (verb : Option Verb) : OptionName → Bool
  | .config => true
  | .registry | .legacy | .output => verb == some .build
  | .json => verb == some .diff

end OptionName

/-- The arguments taken in so far. -/
structure Taken where
  verb : Option Verb := none
  /-- The file of settings named before the command. -/
  outerSettings : Option String := none
  values : List (OptionName × String) := []
  names : List String := []
  /-- Whether only names may follow. -/
  onlyNames : Bool := false

namespace Taken

def value? (taken : Taken) (option : OptionName) : Option String := taken.values.lookup option

/-- Takes an option with its value, which may not be empty. -/
def addValue? (taken : Taken) (option : OptionName) (value : String) : Option Taken :=
  if value = "" ∨ (taken.value? option).isSome then none
  else some { taken with values := (option, value) :: taken.values }

/-- Takes a command or a name for it. With the command begin new options. -/
def addName? (taken : Taken) (name : String) : Option Taken :=
  match taken.verb with
  | none =>
    (Verb.ofWord? name).map fun verb =>
      { verb, outerSettings := taken.value? .config }
  | some verb =>
    if name = "" ∨ verb.arity ≤ taken.names.length then none
    else some { taken with names := taken.names ++ [name] }

/-- The command, once all arguments are taken. -/
def invocation? (taken : Taken) : Option Invocation := do
  let command ←
    match ← taken.verb, taken.names with
    | .build, [] =>
      some (.build (taken.value? .registry) (taken.value? .legacy) (taken.value? .output))
    | .diff, [old, new] => some (.compare old new (taken.value? .json).isSome)
    | .stats, [snapshot] => some (.stats snapshot)
    | _, _ => none
  return ⟨(taken.value? .config).or taken.outerSettings, command⟩

end Taken

/-- An argument by its form. -/
inductive Form where
  | name
  | onlyNames
  | help
  /-- An option with what stands behind it in the same argument. -/
  | option (name : OptionName) (value : Option String)
  | unknown
  deriving DecidableEq, Repr

/-- An option in words: its word, and a value after an equals sign. -/
def longForm (text : List Char) : Form :=
  let word := text.takeWhile (· != '=')
  let value :=
    match text.dropWhile (· != '=') with
    | [] => none
    | _ :: value => some (String.ofList value)
  match OptionName.ofWord? (String.ofList word) with
  | some .json => if value.isSome then .unknown else .option .json (some "true")
  | some option => .option option value
  | none => if word = "help".toList ∧ value.isNone then .help else .unknown

/-- An option of one letter, and its value with or without an equals sign. -/
def shortForm (letter : Char) (rest : List Char) : Form :=
  match OptionName.ofLetter? letter, rest with
  | some option, [] => .option option none
  | some option, '=' :: value => .option option (some (String.ofList value))
  | some option, value => .option option (some (String.ofList value))
  | none, _ => if letter = 'h' then .help else .unknown

def Form.of (argument : String) : Form :=
  match argument.toList with
  | ['-', '-'] => .onlyNames
  | '-' :: '-' :: text => longForm text
  | '-' :: letter :: rest => shortForm letter rest
  | _ => .name

/-- Takes arguments from the left. -/
def take (taken : Taken) : List String → CommandLine
  | [] =>
    match taken.invocation? with
    | some invocation => .invoke invocation
    | none => .malformed
  | argument :: rest =>
    let go (next : Option Taken) : CommandLine :=
      match next with
      | some next => take next rest
      | none => .malformed
    match if taken.onlyNames then .name else Form.of argument with
    | .name => if taken.verb.isNone ∧ argument = "help" then .help else go (taken.addName? argument)
    | .onlyNames =>
      if taken.verb.isNone then .malformed else take { taken with onlyNames := true } rest
    | .help => .help
    | .unknown => .malformed
    | .option option (some value) =>
      if option.allowed taken.verb then go (taken.addValue? option value) else .malformed
    | .option option none =>
      match rest with
      | [] => .malformed
      | value :: rest =>
        if option.allowed taken.verb ∧ Form.of value = .name then
          match taken.addValue? option value with
          | some next => take next rest
          | none => .malformed
        else .malformed

end Arguments

/-- Reads a command line. -/
def CommandLine.ofArguments (arguments : List String) : CommandLine := Arguments.take {} arguments

end ResourceCatalog
