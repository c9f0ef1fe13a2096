import ResourceCatalog.Json.Basic

/-!
# Writing documents

A value has a compact text, without any blank, and a text over several lines with an indentation of
two. In strings only the quotation mark, the backslash and the control characters are escaped.
-/

namespace ResourceCatalog.Json

/-- The lower-case hexadecimal digit of a number below sixteen. -/
def hexDigit (n : Nat) : Char :=
  if n < 10 then Char.ofNat (48 + n) else Char.ofNat (87 + n)

/-- The characters that stand for one character inside a string. -/
def escapeChar (c : Char) : List Char :=
  if c = '"' then ['\\', '"']
  else if c = '\\' then ['\\', '\\']
  else if c.toNat = 8 then ['\\', 'b']
  else if c.toNat = 12 then ['\\', 'f']
  else if c = '\n' then ['\\', 'n']
  else if c = '\r' then ['\\', 'r']
  else if c = '\t' then ['\\', 't']
  else if c.toNat < 32 then
    ['\\', 'u', '0', '0', hexDigit (c.toNat / 16), hexDigit (c.toNat % 16)]
  else [c]

/-- A string with its quotation marks. -/
def quote (s : String) : String :=
  "\"" ++ String.ofList (s.toList.flatMap escapeChar) ++ "\""

mutual

/-- The text of a value without blanks. -/
def compact : Json → String
  | .null => "null"
  | .bool true => "true"
  | .bool false => "false"
  | .num n => n.render
  | .str s => quote s
  | .arr items => "[" ++ compactItems items ++ "]"
  | .obj members => "\x7b" ++ compactMembers members ++ "\x7d"

def compactItems : List Json → String
  | [] => ""
  | [x] => compact x
  | x :: y :: rest => compact x ++ "," ++ compactItems (y :: rest)

def compactMembers : List (String × Json) → String
  | [] => ""
  | [(k, x)] => quote k ++ ":" ++ compact x
  | (k, x) :: y :: rest => quote k ++ ":" ++ compact x ++ "," ++ compactMembers (y :: rest)

end

/-- The blanks in front of a line at some depth. -/
def indentation (depth : Nat) : String := String.ofList (List.replicate (2 * depth) ' ')

mutual

/-- The text of a value over several lines, the first of which continues a line at `depth`. -/
def prettyAt (depth : Nat) : Json → String
  | .arr [] => "[]"
  | .obj [] => "\x7b\x7d"
  | .arr (x :: rest) =>
    "[\n" ++ prettyItems (depth + 1) (x :: rest) ++ "\n" ++ indentation depth ++ "]"
  | .obj (x :: rest) =>
    "\x7b\n" ++ prettyMembers (depth + 1) (x :: rest) ++ "\n" ++ indentation depth ++ "\x7d"
  | .null => "null"
  | .bool true => "true"
  | .bool false => "false"
  | .num n => n.render
  | .str s => quote s

def prettyItems (depth : Nat) : List Json → String
  | [] => ""
  | [x] => indentation depth ++ prettyAt depth x
  | x :: y :: rest =>
    indentation depth ++ prettyAt depth x ++ ",\n" ++ prettyItems depth (y :: rest)

def prettyMembers (depth : Nat) : List (String × Json) → String
  | [] => ""
  | [(k, x)] => indentation depth ++ quote k ++ ": " ++ prettyAt depth x
  | (k, x) :: y :: rest =>
    indentation depth ++ quote k ++ ": " ++ prettyAt depth x ++ ",\n" ++
      prettyMembers depth (y :: rest)

end

/-- The text of a value over several lines. -/
def pretty (value : Json) : String := prettyAt 0 value

end ResourceCatalog.Json
