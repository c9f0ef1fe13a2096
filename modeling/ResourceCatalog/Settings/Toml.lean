import ResourceCatalog.Json.Reader
import ResourceCatalog.Settings.Layers
import ResourceCatalog.Text.Split

/-!
# Settings as TOML

A file of settings has lines of keys and values, below headers that name tables. Values are texts,
flags, numbers, lists of values, and tables in braces. Dates and headers for items of a list are not
read. What a file holds keeps the cases of its keys; they only matter when it is laid over other
settings.
-/

namespace ResourceCatalog.Toml

/-- What has been read at the front of a text, and what follows it. -/
abbrev Front (α : Type) := α × List Char

/-! ### Between the parts -/

/-- A text in which a single line feed ends a line. -/
def lineFeeds : List Char → List Char
  | '\r' :: '\n' :: rest => '\n' :: lineFeeds rest
  | c :: rest => c :: lineFeeds rest
  | [] => []

def skipBlanks (text : List Char) : List Char := text.dropWhile Text.isLineBlank

/-- What follows a comment: the end of its line. -/
def skipComment : List Char → List Char
  | '#' :: rest => rest.dropWhile (· != '\n')
  | text => text

/-- What follows the end of a line. Only blanks and a comment may stand before it. -/
def endLine? (text : List Char) : Option (List Char) :=
  match skipComment (skipBlanks text) with
  | [] => some []
  | '\n' :: rest => some rest
  | _ => none

/-- Skips blanks, comments and ends of lines, in at most `fuel` steps. -/
def skipLines (fuel : Nat) (text : List Char) : List Char :=
  match fuel with
  | 0 => text
  | fuel + 1 =>
    match endLine? text with
    | none => skipBlanks text
    | some [] => []
    | some rest => skipLines fuel rest

/-! ### Texts -/

/-- The character with a number given in hexadecimal digits. -/
def numbered? (digits : List Char) : Option Char := do
  let n ← digits.foldl
    (fun n c => do return (← n) * 16 + (← Json.Machine.hexValue? c)) (some 0)
  if n.isValidChar then some (Char.ofNat n) else none

/-- The character after a backslash, and what follows it. -/
def escape? : List Char → Option (Front Char)
  | 'b' :: rest => some (Char.ofNat 8, rest)
  | 't' :: rest => some ('\t', rest)
  | 'n' :: rest => some ('\n', rest)
  | 'f' :: rest => some (Char.ofNat 12, rest)
  | 'r' :: rest => some ('\r', rest)
  | '"' :: rest => some ('"', rest)
  | '\\' :: rest => some ('\\', rest)
  | 'u' :: rest => if rest.length < 4 then none else
    (numbered? (rest.take 4)).map fun c => (c, rest.drop 4)
  | 'U' :: rest => if rest.length < 8 then none else
    (numbered? (rest.take 8)).map fun c => (c, rest.drop 8)
  | _ => none

/-- The rest of a text of one line between quotation marks. -/
def quotedText? (fuel : Nat) (text : List Char) : Option (Front (List Char)) :=
  match fuel, text with
  | 0, _ | _, [] => none
  | fuel + 1, c :: rest =>
    if c = '"' then some ([], rest)
    else if c = '\n' then none
    else do
      let (c, rest) ← if c = '\\' then escape? rest else some (c, rest)
      let (read, rest) ← quotedText? fuel rest
      return (c :: read, rest)

/-- The rest of a text of one line between apostrophes, where nothing stands for something else. -/
def literalText? (text : List Char) : Option (Front (List Char)) :=
  match text.dropWhile fun c => c != '\'' && c != '\n' with
  | '\'' :: rest => some (text.takeWhile (· != '\''), rest)
  | _ => none

/-- A text of one line. -/
def shortText? : List Char → Option (Front String)
  | '"' :: rest => (quotedText? rest.length rest).map fun (read, rest) => (String.ofList read, rest)
  | '\'' :: rest => (literalText? rest).map fun (read, rest) => (String.ofList read, rest)
  | _ => none

/-- A backslash at the end of a line takes the blanks and ends of lines away that follow it. -/
def continuation? (text : List Char) : Option (List Char) :=
  match skipBlanks text with
  | '\n' :: rest => some (rest.dropWhile fun c => Text.isLineBlank c || c == '\n')
  | _ => none

/-- The rest of a text between three marks, which may hold one or two of the marks together. A
backslash stands for something only between quotation marks. -/
def longText? (mark : Char) (fuel : Nat) (text : List Char) : Option (Front (List Char)) :=
  match fuel, text with
  | 0, _ | _, [] => none
  | fuel + 1, c :: rest =>
    let marks := text.takeWhile (· == mark)
    if marks.length = 3 then some ([], text.drop 3)
    else if c = '\\' ∧ mark = '"' then
      match continuation? rest with
      | some rest => longText? mark fuel rest
      | none => do
        let (c, rest) ← escape? rest
        let (read, rest) ← longText? mark fuel rest
        return (c :: read, rest)
    else do
      let (read, rest) ← longText? mark fuel rest
      return (c :: read, rest)

/-- The end of a line right after the opening marks does not count. -/
def afterOpening : List Char → List Char
  | '\n' :: rest => rest
  | text => text

/-- A text of one line or of several ones. -/
def text? (text : List Char) : Option (Front String) :=
  let long (mark : Char) : Option (Front String) :=
    (longText? mark text.length (afterOpening (text.drop 3))).map fun (read, rest) =>
      (String.ofList read, rest)
  if ['"', '"', '"'].isPrefixOf text then long '"'
  else if ['\'', '\'', '\''].isPrefixOf text then long '\''
  else shortText? text

/-! ### Keys -/

def isBareKeyChar (c : Char) : Bool := c.isAlphanum || c == '_' || c == '-'

/-- One key, bare or as a text. -/
def key? (text : List Char) : Option (Front String) :=
  match shortText? text with
  | some found => some found
  | none =>
    let key := text.takeWhile isBareKeyChar
    if key.isEmpty then none else some (String.ofList key, text.dropWhile isBareKeyChar)

/-- Keys with points between them. -/
def path? (fuel : Nat) (text : List Char) : Option (Front (List String)) :=
  match fuel with
  | 0 => none
  | fuel + 1 => do
    let (key, rest) ← key? (skipBlanks text)
    match skipBlanks rest with
    | '.' :: rest => do
      let (keys, rest) ← path? fuel rest
      return (key :: keys, rest)
    | rest => return ([key], rest)

/-! ### Tables -/

/-- The entries of a table in a file. -/
abbrev Entries := Keyed Setting

/-- The entries below a key, if there is no other value. -/
def below? (entries : Entries) (key : String) : Option Entries :=
  match Keyed.get? key entries with
  | none => some []
  | some (.table _ entries) => some entries
  | some _ => none

/-- Changes the entries at the end of a path of keys. The tables on the way are there or come about.
They know the file they come from. -/
def modify? (place : String) (change : Entries → Option Entries) :
    List String → Entries → Option Entries
  | [], entries => change entries
  | key :: keys, entries => do
    let changed ← modify? place change keys (← below? entries key)
    return entries.insert key (.table place changed)

/-- Adds a value at the end of a path of keys. Nothing may be there. -/
def add? (place : String) (value : Setting) (path : List String) (entries : Entries) :
    Option Entries :=
  match path.getLast? with
  | none => none
  | some key =>
    modify? place
      (fun entries => if entries.contains key then none else some (entries.insert key value))
      path.dropLast entries

/-! ### Values -/

/-- A word that is a flag or a number. -/
def word? (word : String) : Option Scalar :=
  if word = "true" then some (.flag true)
  else if word = "false" then some (.flag false)
  else
    match Literal.int? word, Literal.decimals? word with
    | some i, _ => some (.integer i)
    | none, some d => some (.decimals d)
    | none, none => none

/-- Where a word ends. -/
def endsWord (c : Char) : Bool := [' ', '\t', '\n', ',', ']', '\x7d', '#'].contains c

mutual

/-- A value at the front of a text. It knows the file it comes from. -/
def value? (place : String) (fuel : Nat) (text : List Char) : Option (Front Setting) :=
  match fuel, text with
  | 0, _ => none
  | fuel + 1, '[' :: rest => do
    let (items, rest) ← items? place fuel rest
    return (.list place items, rest)
  | fuel + 1, '\x7b' :: rest => do
    let (entries, rest) ← members? place fuel [] rest
    return (.table place entries, rest)
  | _, text =>
    match text? text with
    | some (read, rest) => some (.scalar place (.text read), rest)
    | none =>
      let word := String.ofList (text.takeWhile fun c => !endsWord c)
      (word? word).map fun scalar =>
        (.scalar place scalar, text.dropWhile fun c => !endsWord c)

/-- The items of a list up to its end. -/
def items? (place : String) (fuel : Nat) (text : List Char) : Option (Front (List Setting)) :=
  match fuel with
  | 0 => none
  | fuel + 1 =>
    match skipLines text.length text with
    | ']' :: rest => some ([], rest)
    | text => do
      let (item, rest) ← value? place fuel text
      match skipLines rest.length rest with
      | ',' :: rest => do
        let (items, rest) ← items? place fuel rest
        return (item :: items, rest)
      | ']' :: rest => return ([item], rest)
      | _ => none

/-- The members of a table in braces up to its end, added to those before. -/
def members? (place : String) (fuel : Nat) (entries : Entries) (text : List Char) :
    Option (Front Entries) :=
  match fuel with
  | 0 => none
  | fuel + 1 =>
    match skipBlanks text with
    | '\x7d' :: rest => some (entries, rest)
    | text => do
      let (path, value, rest) ← assignment? place fuel text
      let entries ← add? place value path entries
      match skipBlanks rest with
      | ',' :: rest => members? place fuel entries rest
      | '\x7d' :: rest => return (entries, rest)
      | _ => none

/-- A path of keys, an equals sign and a value. -/
def assignment? (place : String) (fuel : Nat) (text : List Char) :
    Option (List String × Front Setting) :=
  match fuel with
  | 0 => none
  | fuel + 1 => do
    let (path, rest) ← path? text.length text
    match rest with
    | '=' :: rest => return (path, ← value? place fuel (skipBlanks rest))
    | _ => none

end

/-! ### Files -/

/-- The path of keys in a header, and what follows it. -/
def header? (text : List Char) : Option (Front (List String)) := do
  let (path, rest) ← path? text.length text
  match rest with
  | ']' :: rest => return (path, rest)
  | _ => none

/-- Adds lines below a header to the entries before, at most `fuel` lines. -/
def lines? (place : String) (fuel : Nat) (header : List String) (entries : Entries)
    (text : List Char) : Option Entries :=
  match fuel, skipLines text.length text with
  | _, [] => some entries
  | 0, _ => none
  | fuel + 1, '[' :: rest => do
    let (path, rest) ← header? rest
    lines? place fuel path (← modify? place some path entries) (← endLine? rest)
  | fuel + 1, text => do
    let (path, value, rest) ← assignment? place text.length text
    lines? place fuel header (← modify? place (add? place value path) header entries)
      (← endLine? rest)

/-- Reads a file of settings. A mark for the order of bytes may stand at its front. -/
def read? (place text : String) : Option SettingsLayer :=
  let text := match text.toList with
    | '\uFEFF' :: rest => rest
    | text => text
  lines? place text.length [] [] (lineFeeds text)

end ResourceCatalog.Toml
