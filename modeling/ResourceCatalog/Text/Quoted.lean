import ResourceCatalog.Text.Unprintable

/-!
# Quoted texts

A text between quotation marks, on one line and without ambiguity: quotation marks, backslashes,
line feeds, carriage returns, tabs and the null character are written with a backslash, and
characters without a graphic form of their own by their number.
-/

namespace ResourceCatalog.Text

/-- The characters that stand for one character between quotation marks. -/
def quotedChar (c : Char) : List Char :=
  if c = '"' then ['\\', '"']
  else if c = '\\' then ['\\', '\\']
  else if c = '\n' then ['\\', 'n']
  else if c = '\r' then ['\\', 'r']
  else if c = '\t' then ['\\', 't']
  else if c.toNat = 0 then ['\\', '0']
  else if isUnprintable c then ['\\', 'u', '\x7b'] ++ Nat.toDigits 16 c.toNat ++ ['\x7d']
  else [c]

/-- A text between quotation marks. -/
def quoted (text : String) : String :=
  "\"" ++ String.ofList (text.toList.flatMap quotedChar) ++ "\""

end ResourceCatalog.Text
