import ResourceCatalog.Json.Basic

/-!
# Reading documents

A text is read one character at a time by a machine that keeps the containers still open and what it
is in the middle of. It refuses at the first character that rules a value out and says where that
character stands; a text that ends too early is refused at its end.

Where only some members of the outermost object matter, the values of the others are passed over.
They still have to be well formed, but numbers may be of any size, surrogates may stand alone, and
containers may be nested to any depth.
-/

namespace ResourceCatalog.Json

/-! ### Refusals -/

/-- Why a text is not a value. -/
inductive Fault where
  | endInList
  | endInObject
  | endInString
  | endInValue
  | colonExpected
  | listEndExpected
  | objectEndExpected
  | wordExpected
  | valueExpected
  | badEscape
  | badNumber
  | numberTooLarge
  | controlCharacter
  | keyExpected
  | loneSurrogate
  | unfinishedSurrogate
  | trailingComma
  | trailingCharacters
  | tooDeep
  deriving DecidableEq, Repr

def Fault.message : Fault → String
  | .endInList => "EOF while parsing a list"
  | .endInObject => "EOF while parsing an object"
  | .endInString => "EOF while parsing a string"
  | .endInValue => "EOF while parsing a value"
  | .colonExpected => "expected `:`"
  | .listEndExpected => "expected `,` or `]`"
  | .objectEndExpected => "expected `,` or `\x7d`"
  | .wordExpected => "expected ident"
  | .valueExpected => "expected value"
  | .badEscape => "invalid escape"
  | .badNumber => "invalid number"
  | .numberTooLarge => "number out of range"
  | .controlCharacter => "control character (\\u0000-\\u001F) found while parsing a string"
  | .keyExpected => "key must be a string"
  | .loneSurrogate => "lone leading surrogate in hex escape"
  | .unfinishedSurrogate => "unexpected end of hex escape"
  | .trailingComma => "trailing comma"
  | .trailingCharacters => "trailing characters"
  | .tooDeep => "recursion limit exceeded"

/-- A place in a text: the line, from one, and the bytes of the line up to and with the place. -/
structure Place where
  line : Nat
  column : Nat
  deriving DecidableEq, Repr

/-- A fault and where it was found. -/
structure ReadError where
  fault : Fault
  place : Place
  deriving DecidableEq, Repr

def ReadError.message (e : ReadError) : String :=
  s!"{e.fault.message} at line {e.place.line} column {e.place.column}"

/-- The place after a character. -/
def Place.next (place : Place) (c : Char) : Place :=
  if c = '\n' then ⟨place.line + 1, 0⟩ else ⟨place.line, place.column + c.utf8Size⟩

/-- The place after the first few bytes of a character. -/
def Place.within (place : Place) (c : Char) (bytes : Nat) : Place :=
  if c = '\n' then ⟨place.line + 1, 0⟩ else ⟨place.line, place.column + bytes⟩

/-! ### Numbers -/

/-- The largest unsigned integer of 64 bits. -/
def maxUnsigned : Nat := UInt64.size - 1

/-- The part of a number that is being read. -/
inductive Digits where
  | sign
  | zero
  | whole
  | point
  | fraction
  | exponentMark
  | exponentSign
  | exponent
  deriving DecidableEq, Repr

/-- A number as far as it is read. The significand takes digits while it fits into 64 bits; what
does not fit is dropped, and whole digits dropped count into the scale. -/
structure Numeral where
  stage : Digits
  negative : Bool
  significand : Nat
  scale : Int
  full : Bool
  exponentNegative : Bool
  exponent : Nat
  deriving Repr

namespace Numeral

def start (negative : Bool) : Numeral := ⟨.sign, negative, 0, 0, false, false, 0⟩

def digit? (c : Char) : Option Nat :=
  if '0' ≤ c ∧ c ≤ '9' then some (c.toNat - 48) else none

/-- Takes a digit into the whole part. -/
def addWhole (n : Numeral) (d : Nat) : Numeral :=
  if n.full then { n with scale := n.scale + 1 }
  else if maxUnsigned < n.significand * 10 + d then { n with full := true, scale := n.scale + 1 }
  else { n with significand := n.significand * 10 + d }

/-- Takes a digit into the fraction. -/
def addFraction (n : Numeral) (d : Nat) : Numeral :=
  if n.full then n
  else if maxUnsigned < n.significand * 10 + d then { n with full := true }
  else { n with significand := n.significand * 10 + d, scale := n.scale - 1 }

/-- The value of a complete number: an integer if it has neither fraction nor exponent, fits and is
not a negative zero. -/
def value (n : Numeral) : Except Fault Number :=
  let asDouble (exponent : Int) : Except Fault Number :=
    match Double.ofDecimal? n.negative n.significand exponent with
    | some d => .ok (.double d)
    | none => .error .numberTooLarge
  match n.stage with
  | .zero | .whole =>
    if n.full then asDouble n.scale
    else if n.negative then
      if n.significand = 0 ∨ 0x8000000000000000 < n.significand then asDouble 0
      else .ok (.integer (-(n.significand : Int)))
    else .ok (.integer n.significand)
  | .fraction => asDouble n.scale
  | .exponent =>
    asDouble (if n.exponentNegative then n.scale - n.exponent else n.scale + n.exponent)
  | .sign | .point | .exponentMark | .exponentSign => .error .badNumber

/-- The largest exponent that is read on its own. -/
def maxExponent : Nat := 0x7FFFFFFF

/-- Whether a number is too large whatever follows. -/
def isTooLarge (n : Numeral) : Bool :=
  n.stage == .exponent && !n.exponentNegative && n.significand != 0 &&
    decide (maxExponent < n.exponent)

/-- What a character does to a number: it is taken in, or it ends the number, or it is refused. -/
inductive Step where
  | more (n : Numeral)
  | complete
  | refused

/-- A number that has its whole part may go on with a point or an exponent. -/
def afterWhole (n : Numeral) (c : Char) : Step :=
  if c = '.' then .more { n with stage := .point, full := false }
  else if c = 'e' ∨ c = 'E' then .more { n with stage := .exponentMark }
  else .complete

def step (n : Numeral) (c : Char) : Step :=
  match n.stage, digit? c with
  | .sign, some 0 => .more { n with stage := .zero }
  | .sign, some d => .more { n with stage := .whole, significand := d }
  | .sign, none => .refused
  | .zero, some _ => .refused
  | .zero, none => n.afterWhole c
  | .whole, some d => .more (n.addWhole d)
  | .whole, none => n.afterWhole c
  | .point, some d => .more { n.addFraction d with stage := .fraction }
  | .point, none => .refused
  | .fraction, some d => .more (n.addFraction d)
  | .fraction, none =>
    if c = 'e' ∨ c = 'E' then .more { n with stage := .exponentMark } else .complete
  | .exponentMark, some d => .more { n with stage := .exponent, exponent := d }
  | .exponentMark, none =>
    if c = '+' then .more { n with stage := .exponentSign }
    else if c = '-' then .more { n with stage := .exponentSign, exponentNegative := true }
    else .refused
  | .exponentSign, some d => .more { n with stage := .exponent, exponent := d }
  | .exponentSign, none => .refused
  | .exponent, some d => .more { n with exponent := n.exponent * 10 + d }
  | .exponent, none => .complete

end Numeral

/-! ### The machine -/

/-- A container that waits for the value being read, with what it holds so far. -/
inductive Frame where
  /-- An array, its items in reverse. -/
  | item (before : List Json)
  /-- An object and the key whose value is being read. -/
  | member (before : Members) (key : String)
  /-- An object and a value that is passed over. -/
  | passedOver (before : Members)

/-- What a string will be once it is read. -/
inductive Purpose where
  | value
  | key (before : Members)

/-- Where the machine stands inside a string. -/
inductive Inside where
  | text
  | escape
  /-- The four bytes of a numbered escape, with those read so far and the leading surrogate before
  them, if there was one. -/
  | number (leading : Option Nat) (read : List Char) (bytes : Nat)
  /-- After a leading surrogate: a backslash is due. -/
  | surrogateBackslash (leading : Nat)
  /-- After a leading surrogate and a backslash: a `u` is due. -/
  | surrogateMark (leading : Nat)

/-- What the machine is in the middle of. -/
inductive Mode where
  /-- A value is due. -/
  | value
  /-- Just inside an array. -/
  | arrayStart
  /-- After an item of an array. -/
  | afterItem (items : List Json)
  /-- After a comma in an array. -/
  | nextItem (items : List Json)
  /-- Just inside an object. -/
  | objectStart
  /-- After a member of an object. -/
  | afterMember (members : Members)
  /-- After a comma in an object. -/
  | nextKey (members : Members)
  /-- After a key. -/
  | colon (members : Members) (key : String)
  /-- Inside one of the words `null`, `true`, `false`. -/
  | word (rest : List Char) (value : Json)
  /-- Inside a number. -/
  | number (n : Numeral)
  /-- Inside a string, its characters in reverse. -/
  | string (purpose : Purpose) (read : List Char) (inside : Inside)
  /-- After the comma behind the last item that an array may have. -/
  | excess
  /-- After the whole value. -/
  | done (value : Json)

/-- The machine: the open containers, innermost first, and the mode. -/
structure Machine where
  stack : List Frame
  mode : Mode

namespace Machine

def start : Machine := ⟨[], .value⟩

/-- A refusal at a character, after `bytes` of its bytes. -/
structure Refusal where
  fault : Fault
  bytes : Nat

def refuse {α : Type} (fault : Fault) : Except Refusal α := .error ⟨fault, 1⟩

/-- A value is complete: it goes to the innermost open container. -/
def complete (stack : List Frame) (value : Json) : Machine :=
  match stack with
  | [] => ⟨[], .done value⟩
  | .item before :: rest => ⟨rest, .afterItem (value :: before)⟩
  | .member before key :: rest => ⟨rest, .afterMember (before.insert key value)⟩
  | .passedOver before :: rest => ⟨rest, .afterMember before⟩

/-- Whether what is being read is passed over. -/
def isPassingOver (stack : List Frame) : Bool :=
  match stack.getLast? with
  | some (.passedOver _) => true
  | _ => false

/-- The member whose value comes next. Of the outermost object only the members of an outline are
kept. -/
def beginMember (outline : Option (List String)) (stack : List Frame) (members : Members)
    (key : String) : Frame :=
  match outline, stack with
  | some keys, [] => if keys.contains key then .member members key else .passedOver members
  | _, _ => .member members key

/-- Whether an outermost array has an item for every member of an outline. -/
def isFull (outline : Option (List String)) (stack : List Frame) (items : List Json) : Bool :=
  match outline, stack with
  | some keys, [] => keys.length ≤ items.length
  | _, _ => false

/-- The containers that may be open at once. -/
def depthLimit : Nat := 128

/-- The first character of a value. -/
def beginValue (stack : List Frame) (c : Char) : Except Refusal Machine :=
  if c = '[' ∨ c = '\x7b' then
    if depthLimit ≤ stack.length + 1 && !isPassingOver stack then refuse .tooDeep
    else .ok ⟨stack, if c = '[' then .arrayStart else .objectStart⟩
  else if c = '"' then .ok ⟨stack, .string .value [] .text⟩
  else if c = 'n' then .ok ⟨stack, .word ['u', 'l', 'l'] .null⟩
  else if c = 't' then .ok ⟨stack, .word ['r', 'u', 'e'] (.bool true)⟩
  else if c = 'f' then .ok ⟨stack, .word ['a', 'l', 's', 'e'] (.bool false)⟩
  else if c = '-' then .ok ⟨stack, .number (Numeral.start true)⟩
  else
    match (Numeral.start false).step c with
    | .more n => .ok ⟨stack, .number n⟩
    | _ => refuse .valueExpected

def isBlank (c : Char) : Bool := c = ' ' || c = '\n' || c = '\t' || c = '\r'

/-- A character between the parts of a document, where blanks are skipped. -/
def between (outline : Option (List String)) (m : Machine) (c : Char) : Except Refusal Machine :=
  if isBlank c then .ok m
  else
    match m.mode with
    | .value => beginValue m.stack c
    | .arrayStart =>
      if c = ']' then .ok (complete m.stack (.arr []))
      else beginValue (.item [] :: m.stack) c
    | .afterItem items =>
      if c = ',' then
        .ok ⟨m.stack, if isFull outline m.stack items then .excess else .nextItem items⟩
      else if c = ']' then .ok (complete m.stack (.arr items.reverse))
      else refuse (if isFull outline m.stack items then .trailingCharacters else .listEndExpected)
    | .nextItem items =>
      if c = ']' ∧ ¬ isPassingOver m.stack then refuse .trailingComma
      else beginValue (.item items :: m.stack) c
    | .excess => refuse (if c = ']' then .trailingComma else .trailingCharacters)
    | .objectStart =>
      if c = '\x7d' then .ok (complete m.stack (.obj []))
      else if c = '"' then .ok ⟨m.stack, .string (.key []) [] .text⟩
      else refuse .keyExpected
    | .afterMember members =>
      if c = ',' then .ok ⟨m.stack, .nextKey members⟩
      else if c = '\x7d' then .ok (complete m.stack (.obj members))
      else refuse .objectEndExpected
    | .nextKey members =>
      if c = '"' then .ok ⟨m.stack, .string (.key members) [] .text⟩
      else if c = '\x7d' ∧ ¬ isPassingOver m.stack then refuse .trailingComma
      else refuse .keyExpected
    | .colon members key =>
      if c = ':' then .ok ⟨beginMember outline m.stack members key :: m.stack, .value⟩
      else refuse .colonExpected
    | _ => refuse .trailingCharacters

/-- A string is complete: it is a value or the key of the next member. -/
def endString (stack : List Frame) (purpose : Purpose) (read : List Char) : Machine :=
  let text := String.ofList read.reverse
  match purpose with
  | .value => complete stack (.str text)
  | .key members => ⟨stack, .colon members text⟩

/-- The character that a short escape stands for. -/
def shortEscape? (c : Char) : Option Char :=
  if c = '"' then some '"'
  else if c = '\\' then some '\\'
  else if c = '/' then some '/'
  else if c = 'b' then some (Char.ofNat 8)
  else if c = 'f' then some (Char.ofNat 12)
  else if c = 'n' then some '\n'
  else if c = 'r' then some '\r'
  else if c = 't' then some '\t'
  else none

def hexValue? (c : Char) : Option Nat :=
  if '0' ≤ c ∧ c ≤ '9' then some (c.toNat - 48)
  else if 'a' ≤ c ∧ c ≤ 'f' then some (c.toNat - 87)
  else if 'A' ≤ c ∧ c ≤ 'F' then some (c.toNat - 55)
  else none

/-- The number of four hexadecimal digits given in reverse. -/
def hexNumber? (digits : List Char) : Option Nat :=
  if digits.length = 4 then
    digits.reverse.foldl (fun acc c => do return (← acc) * 16 + (← hexValue? c)) (some 0)
  else none

/-- Half a pair of surrogates. -/
def isLeading (n : Nat) : Bool := 0xD800 ≤ n && n ≤ 0xDBFF

def isTrailing (n : Nat) : Bool := 0xDC00 ≤ n && n ≤ 0xDFFF

/-- A character inside a string. -/
def inString (stack : List Frame) (purpose : Purpose) (read : List Char) (inside : Inside)
    (c : Char) : Except Refusal Machine :=
  let go (read : List Char) (inside : Inside) : Except Refusal Machine :=
    .ok ⟨stack, .string purpose read inside⟩
  match inside with
  | .text =>
    if c = '"' then .ok (endString stack purpose read)
    else if c = '\\' then go read .escape
    else if c.toNat < 32 then .error ⟨.controlCharacter, if isPassingOver stack then 0 else 1⟩
    else go (c :: read) .text
  | .escape =>
    if c = 'u' then go read (.number none [] 0)
    else
      match shortEscape? c with
      | some e => go (e :: read) .text
      | none => refuse .badEscape
  | .surrogateBackslash leading =>
    if c = '\\' then go read (.surrogateMark leading) else refuse .unfinishedSurrogate
  | .surrogateMark leading =>
    if c = 'u' then go read (.number (some leading) [] 0) else refuse .unfinishedSurrogate
  | .number leading digits bytes =>
    let digits := c :: digits
    let total := bytes + c.utf8Size
    if total < 4 then go read (.number leading digits total)
    else
      match hexNumber? digits, leading with
      | none, _ => .error ⟨.badEscape, 4 - bytes⟩
      | some n, none =>
        if isPassingOver stack then go read .text
        else if isTrailing n then refuse .loneSurrogate
        else if isLeading n then go read (.surrogateBackslash n)
        else go (Char.ofNat n :: read) .text
      | some n, some lead =>
        if isTrailing n then
          go (Char.ofNat (0x10000 + (lead - 0xD800) * 0x400 + (n - 0xDC00)) :: read) .text
        else refuse .loneSurrogate

/-- Takes one character. A number ends at the first character that cannot belong to it, and that
character is then read as what follows the number. -/
def step (outline : Option (List String)) (m : Machine) (c : Char) : Except Refusal Machine :=
  match m.mode with
  | .word [] value => .ok (complete m.stack value)
  | .word [w] value =>
    if c = w then .ok (complete m.stack value) else refuse .wordExpected
  | .word (w :: rest) value =>
    if c = w then .ok ⟨m.stack, .word rest value⟩ else refuse .wordExpected
  | .number n =>
    match n.step c with
    | .more n =>
      if n.isTooLarge && !isPassingOver m.stack then refuse .numberTooLarge
      else .ok ⟨m.stack, .number n⟩
    | .refused => refuse .badNumber
    | .complete =>
      if isPassingOver m.stack then between outline (complete m.stack .null) c
      else
        match n.value with
        | .ok number => between outline (complete m.stack (.num number)) c
        | .error fault => .error ⟨fault, 0⟩
  | .string purpose read inside => inString m.stack purpose read inside c
  | _ => between outline m c

/-- The fault of a text that ends inside a container. -/
def endInContainer : Frame → Fault
  | .item _ => .endInList
  | .member _ _ | .passedOver _ => .endInObject

/-- A number at the end of the text. -/
def finishNumber (stack : List Frame) (n : Numeral) : Except Fault Json :=
  match n.stage, isPassingOver stack, stack with
  | .sign, true, _ | .point, true, _ | .exponentMark, true, _ | .exponentSign, true, _ =>
    .error .badNumber
  | .sign, false, _ | .point, false, _ | .exponentMark, false, _ | .exponentSign, false, _ =>
    .error .endInValue
  | _, true, _ => .error (endInContainer (stack.headD (.item [])))
  | _, false, stack =>
    match n.value, stack with
    | .error fault, _ => .error fault
    | .ok _, frame :: _ => .error (endInContainer frame)
    | .ok number, [] => .ok (.num number)

/-- The text is over. -/
def finish (m : Machine) : Except Fault Json :=
  match m.mode with
  | .done value => .ok value
  | .number n => finishNumber m.stack n
  | .value | .nextItem _ | .word _ _ => .error .endInValue
  | .nextKey _ => .error (if isPassingOver m.stack then .endInObject else .endInValue)
  | .arrayStart | .afterItem _ => .error .endInList
  | .objectStart | .afterMember _ | .colon _ _ => .error .endInObject
  | .string _ _ _ => .error .endInString
  | .excess => .error .trailingCharacters

/-- Runs the machine over a text from some place on. -/
def run (outline : Option (List String)) (m : Machine) (place : Place) :
    List Char → Except ReadError Json
  | [] =>
    match m.finish with
    | .ok value => .ok value
    | .error fault => .error ⟨fault, place⟩
  | c :: rest =>
    match m.step outline c with
    | .ok next => run outline next (place.next c) rest
    | .error refusal => .error ⟨refusal.fault, if refusal.bytes = 0 then place
        else place.within c refusal.bytes⟩

end Machine

/-- Reads a document. -/
def read (text : String) : Except ReadError Json :=
  Machine.start.run none ⟨1, 0⟩ text.toList

/-- Reads a document that is an object with some members, or an array with as many items. Other
members are passed over. -/
def readOutline (keys : List String) (text : String) : Except ReadError Json :=
  Machine.start.run (some keys) ⟨1, 0⟩ text.toList

end ResourceCatalog.Json
