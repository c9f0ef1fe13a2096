import ResourceCatalog.Text.Split

/-!
# Version numbers

A semantic version: three numbers, then perhaps a hyphen and the identifiers of a pre-release, then
perhaps a plus sign and those of a build. Numbers have no needless zero in front.
-/

namespace ResourceCatalog

/-- A version number, of which only the first number and the text matter here. -/
structure Version where
  major : Nat
  text : String
  deriving DecidableEq, Repr

namespace Version

def isDigit (c : Char) : Bool := '0' ≤ c && c ≤ '9'

/-- A number of 64 bits in decimal digits, without a needless zero in front. -/
def number? (digits : List Char) : Option Nat :=
  if digits.isEmpty || !digits.all isDigit then none
  else if digits.head? = some '0' && decide (1 < digits.length) then none
  else
    let n := digits.foldl (fun n c => n * 10 + (c.toNat - 48)) 0
    if n < UInt64.size then some n else none

/-- Whether a text is an identifier: letters, digits and hyphens, at least one of them. -/
def isIdentifier (chars : List Char) : Bool :=
  !chars.isEmpty && chars.all fun c => isDigit c || c.isAlpha || c == '-'

/-- Whether a text is an identifier of a pre-release, where numbers have no needless zero in
front. -/
def isPreRelease (chars : List Char) : Bool :=
  isIdentifier chars &&
    !(chars.all isDigit && chars.head? == some '0' && decide (1 < chars.length))

/-- Whether a text is empty, or a plus sign and identifiers. -/
def isBuild : List Char → Bool
  | [] => true
  | '+' :: build => (Text.splitOn '.' build).all isIdentifier
  | _ => false

/-- Whether a text is what may follow the three numbers. -/
def isRest : List Char → Bool
  | '-' :: rest =>
    (Text.splitOn '.' (rest.takeWhile (· != '+'))).all isPreRelease &&
      isBuild (rest.dropWhile (· != '+'))
  | rest => isBuild rest

def ofText? (text : String) : Option Version :=
  let inNumbers (c : Char) : Bool := c != '-' && c != '+'
  let numbers := Text.splitOn '.' (text.toList.takeWhile inNumbers)
  match numbers.mapM number?, isRest (text.toList.dropWhile inNumbers) with
  | some [major, _, _], true => some ⟨major, text⟩
  | _, _ => none

end Version

end ResourceCatalog
