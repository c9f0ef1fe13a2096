import ResourceCatalog.Keyed
import ResourceCatalog.Settings.Setting
import ResourceCatalog.Text.Lowercase
import ResourceCatalog.Text.Split

/-!
# Layers of settings

Settings come from several places, one laid over the other. A layer gives settings at addresses,
such as `build.regions.eu[1]`. Tables are merged key by key, and any other setting takes the place
of what was there (`overlay`). The case of a key does not matter: keys are kept in lower case.
-/

namespace ResourceCatalog

/-- A step from a setting to one inside of it. -/
inductive SettingStep where
  | key (name : String)
  /-- A negative number counts from the end of a list. -/
  | index (i : Int)
  deriving DecidableEq, Repr

/-- The way to a setting, from the table of all settings. -/
abbrev SettingAddress := List SettingStep

/-- Settings by the texts of their addresses. -/
abbrev SettingsLayer := List (String × Setting)

namespace SettingAddress

/-! ### Addresses as texts -/

/-- The characters of a name in an address. -/
def isNameChar (c : Char) : Bool := c.isAlphanum || c == '_' || c == '-' || c == ' '

/-- A name at the front of a text, and what follows it. -/
def name? (text : List Char) : Option (String × List Char) :=
  let name := text.takeWhile isNameChar
  if name.isEmpty then none else some (String.ofList name, text.dropWhile isNameChar)

/-- A number before a closing bracket, and what follows the bracket. -/
def index? (text : List Char) : Option (Int × List Char) :=
  let text := text.dropWhile Text.isLineBlank
  let (negative, text) := match text with
    | '-' :: rest => (true, rest)
    | _ => (false, text)
  let (digits, rest) := Literal.digits text
  let sign := if negative then "-" else ""
  match Literal.int? (sign ++ String.ofList digits), rest.dropWhile Text.isLineBlank with
  | some i, ']' :: rest => some (i, rest)
  | _, _ => none

/-- The steps after the first name of an address, of which there are at most `fuel`. -/
def steps? (fuel : Nat) (text : List Char) : Option SettingAddress :=
  match fuel, text with
  | _, [] => some []
  | fuel + 1, '.' :: rest => do
    let (name, rest) ← name? rest
    return .key name :: (← steps? fuel rest)
  | fuel + 1, '[' :: rest => do
    let (i, rest) ← index? rest
    return .index i :: (← steps? fuel rest)
  | _, _ => none

/-- The address that a text spells out. -/
def parse? (text : List Char) : Option SettingAddress := do
  let (name, rest) ← name? text
  return .key name :: (← steps? rest.length rest)

/-- The address that a text stands for. A text that does not spell out an address is a key. -/
def ofText (text : String) : SettingAddress := (parse? text.toList).getD [.key text]

end SettingAddress

namespace Setting

/-! ### Laying settings over others -/

/-- The place and the entries of a table. Anything else gives way to a new table. -/
def asTable : Option Setting → Option String × Keyed Setting
  | some (.table place entries) => (place, entries)
  | _ => (none, [])

/-- The place and the items of a list. Anything else gives way to a new list. -/
def asList : Option Setting → Option String × List Setting
  | some (.list place items) => (place, items)
  | _ => (none, [])

mutual

/-- Lays a setting over the one that is there. A table without entries changes nothing. -/
def overlay (present : Option Setting) : Setting → Setting
  | .table _ [] => present.getD (.table none [])
  | .table _ (entry :: rest) =>
    let (place, entries) := asTable present
    .table place (overlayAll entries (entry :: rest))
  | value => value

/-- Lays settings over those that are there under the same keys. -/
def overlayAll (present : Keyed Setting) : List (String × Setting) → Keyed Setting
  | [] => present
  | (key, value) :: rest =>
    let key := Text.lowercase key
    overlayAll (present.insert key (overlay (Keyed.get? key present) value)) rest

end

/-- The position of an item in a list of some length. -/
def position (i : Int) (length : Nat) : Nat := (if i < 0 then length + i else i).toNat

/-- Puts an item into a list, which grows as far as the item needs it. -/
def setItem (items : List Setting) (i : Nat) (item : Setting) : List Setting :=
  (items ++ List.replicate (i + 1 - items.length) Setting.missing).set i item

/-- Lays a setting over what is at the end of an address. An item of a list is replaced as a
whole. -/
def put (value : Setting) : SettingAddress → Option Setting → Setting
  | [], present => overlay present value
  | .key name :: rest, present =>
    let (place, entries) := asTable present
    let name := Text.lowercase name
    .table place (entries.insert name (put value rest (Keyed.get? name entries)))
  | [.index i], present =>
    let (place, items) := asList present
    .list place (setItem items (position i items.length) value)
  | .index i :: step :: rest, present =>
    let (place, items) := asList present
    let i := position i items.length
    .list place (setItem items i (put value (step :: rest) items[i]?))

/-- Lays layers over one another, the first one lowest. -/
def ofLayers (layers : List SettingsLayer) : Setting :=
  layers.flatten.foldl
    (fun present (address, value) => put value (.ofText address) (some present)) (.table none [])

end Setting

end ResourceCatalog
