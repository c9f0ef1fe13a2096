import ResourceCatalog.Json.Basic
import ResourceCatalog.Text.Split

/-!
# Pointers

A pointer names a place of a document by the tokens on the way to it: keys of objects and indices of
arrays. In its text every token follows a slash, a tilde is written `~0` and a slash `~1`. The empty
text names the whole document.
-/

namespace ResourceCatalog.Pointer

/-! ### Tokens as text -/

def escapeChars : List Char → List Char
  | [] => []
  | c :: rest =>
    if c = '~' then '~' :: '0' :: escapeChars rest
    else if c = '/' then '~' :: '1' :: escapeChars rest
    else c :: escapeChars rest

/-- Reads `~1` as a slash and `~0` as a tilde; any other tilde stands for itself. -/
def unescapeChars : List Char → List Char
  | '~' :: '0' :: rest => '~' :: unescapeChars rest
  | '~' :: '1' :: rest => '/' :: unescapeChars rest
  | c :: rest => c :: unescapeChars rest
  | [] => []

/-- The written form of a token. -/
def escape (token : String) : String := String.ofList (escapeChars token.toList)

/-- The token of a written form. -/
def unescape (text : String) : String := String.ofList (unescapeChars text.toList)

/-- The pointer one token further down. -/
def join (base : String) (token : String) : String := base ++ "/" ++ escape token

/-- The pointer of a list of tokens. -/
def ofTokens (tokens : List String) : String := tokens.foldl join ""

/-- The tokens of a pointer. Only the empty text and texts that begin with a slash are pointers. -/
def tokens? (pointer : String) : Option (List String) :=
  match pointer.toList with
  | [] => some []
  | '/' :: rest =>
    some ((Text.splitOn '/' rest).map fun piece => String.ofList (unescapeChars piece))
  | _ => none

/-- The pointer of the container and the last token, for a pointer that has tokens. -/
def splitLast? (pointer : String) : Option (String × String) :=
  match tokens? pointer with
  | none => none
  | some _ =>
    (Text.cutLast '/' pointer.toList).map fun (container, last) =>
      (String.ofList container, String.ofList (unescapeChars last))

/-! ### Tokens as indices -/

/-- The number written by decimal digits, if it fits into 64 bits. -/
def digitsValue? (digits : List Char) : Option Nat :=
  if digits ≠ [] ∧ digits.all (fun c => '0' ≤ c && c ≤ '9') then
    let n := digits.foldl (fun n c => n * 10 + (c.toNat - 48)) 0
    if n < UInt64.size then some n else none
  else none

/-- The index that a token denotes: decimal digits without a needless zero in front. -/
def index? (token : String) : Option Nat :=
  match token.toList with
  | '0' :: _ :: _ => none
  | digits => digitsValue? digits

/-- The number that a token spells, with zeros or a plus sign in front allowed. -/
def spelledNumber? (token : String) : Option Nat :=
  match token.toList with
  | '+' :: digits => digitsValue? digits
  | digits => digitsValue? digits

end Pointer

/-! ### Places of documents -/

namespace Json

/-- The value one token further down. -/
def child? (value : Json) (token : String) : Option Json :=
  match value with
  | .obj members => Keyed.get? token members
  | .arr items => (Pointer.index? token).bind fun i => items[i]?
  | _ => none

/-- The value at the end of a list of tokens. -/
def at? (value : Json) : List String → Option Json
  | [] => some value
  | token :: rest => (value.child? token).bind fun child => child.at? rest

/-- The value that a pointer names. -/
def find? (value : Json) (pointer : String) : Option Json :=
  (Pointer.tokens? pointer).bind value.at?

theorem sizeOf_lt_of_child? {value child : Json} {token : String}
    (h : value.child? token = some child) : sizeOf child < sizeOf value := by
  cases value with
  | obj members =>
    have := sizeOf_lt_of_get? h
    simp
    omega
  | arr items =>
    obtain ⟨i, -, hi⟩ := Option.bind_eq_some_iff.1 h
    have := List.sizeOf_lt_of_mem (List.mem_of_getElem? hi)
    simp
    omega
  | _ => cases h

/-- What goes on to every child holds at the end of the tokens if it holds where they start. -/
theorem holds_at? (holds : Json → Prop)
    (hchild : ∀ {value child token}, holds value → value.child? token = some child → holds child)
    {value found : Json} {tokens : List String} (hvalue : holds value)
    (h : value.at? tokens = some found) : holds found := by
  induction tokens generalizing value with
  | nil => exact Option.some.inj h ▸ hvalue
  | cons token rest ih =>
    obtain ⟨child, hnext, hrest⟩ := Option.bind_eq_some_iff.1 h
    exact ih (hchild hvalue hnext) hrest

theorem sizeOf_le_of_at? {value found : Json} {tokens : List String}
    (h : value.at? tokens = some found) : sizeOf found ≤ sizeOf value :=
  holds_at? (fun part => sizeOf part ≤ sizeOf value)
    (fun hpart hchild => Nat.le_of_lt (Nat.lt_of_lt_of_le (sizeOf_lt_of_child? hchild) hpart))
    (Nat.le_refl _) h

theorem sizeOf_le_of_find? {value found : Json} {pointer : String}
    (h : value.find? pointer = some found) : sizeOf found ≤ sizeOf value := by
  obtain ⟨tokens, -, hfound⟩ := Option.bind_eq_some_iff.1 h
  exact sizeOf_le_of_at? hfound

/-- Puts another value one token further down, where there is one. -/
def setChild (value : Json) (token : String) (child : Json) : Json :=
  match value with
  | .obj members => .obj (Keyed.insert token child members)
  | .arr items =>
    match Pointer.index? token with
    | some i => .arr (items.set i child)
    | none => value
  | _ => value

/-- Changes the value at the end of a list of tokens. Nothing if there is no such value. -/
def modifyAt? {ε : Type} (change : Json → Except ε Json) (value : Json) :
    List String → Option (Except ε Json)
  | [] => some (change value)
  | token :: rest =>
    (value.child? token).bind fun child =>
      (modifyAt? change child rest).map fun changed => changed.map (value.setChild token)

end Json

end ResourceCatalog
