import ResourceCatalog.Number.Shortest

/-!
# Numbers given as free text

A text is a whole number if it is a sign and digits, and a decimal number if it is a sign, digits
with a point somewhere, and perhaps an exponent. The words for infinity and for what is not a number
count as decimal numbers too. A decimal number is the double nearest to it.
-/

namespace ResourceCatalog

/-- A double that need not be finite. -/
inductive Decimals where
  | finite (d : Double)
  | infinite (negative : Bool)
  | notANumber
  deriving DecidableEq, Repr

namespace Decimals

/-- All digits are written, without an exponent. -/
def layout (pointZero : Bool) : DecimalLayout := ⟨-400, 400, "", "", pointZero⟩

/-- The text of a number, in which a whole number ends in `.0` or not. -/
def render (pointZero : Bool) : Decimals → String
  | .finite d => (if d.negative then "-" else "") ++ d.shortest.render (layout pointZero)
  | .infinite negative => if negative then "-inf" else "inf"
  | .notANumber => "NaN"

/-- A whole number is written like an integer. -/
def text : Decimals → String := render false

def isZero : Decimals → Bool
  | .finite d => d.isZero
  | _ => false

end Decimals

namespace Literal

def number (digits : List Char) : Nat :=
  digits.foldl (fun n c => n * 10 + (c.toNat - 48)) 0

/-- Whether a text has a minus sign, and what follows the sign. -/
def sign : List Char → Bool × List Char
  | '-' :: rest => (true, rest)
  | '+' :: rest => (false, rest)
  | text => (false, text)

/-- The digits at the front, and what follows them. -/
def digits (text : List Char) : List Char × List Char :=
  (text.takeWhile Char.isDigit, text.dropWhile Char.isDigit)

theorem digits_append (text : List Char) : (digits text).1 ++ (digits text).2 = text := by
  simp [digits]

/-- A whole number of 64 bits with a sign. -/
def int? (text : String) : Option Int :=
  let (negative, rest) := sign text.toList
  if rest.isEmpty ∨ ¬ rest.all Char.isDigit then none
  else
    let value : Int := if negative then -(number rest : Int) else number rest
    if -0x8000000000000000 ≤ value ∧ value < 0x8000000000000000 then some value else none

/-- The exponent after a mantissa: zero, or a mark and a whole number. -/
def exponent? : List Char → Option Int
  | [] => some 0
  | mark :: rest =>
    let (negative, found) := sign rest
    if (mark = 'e' ∨ mark = 'E') ∧ ¬ found.isEmpty ∧ found.all Char.isDigit then
      some (if negative then -(number found : Int) else number found)
    else none

/-- The digits before and after the point of a mantissa, and what follows it. There is a digit at
least on one side of the point. -/
def mantissa? (text : List Char) : Option (List Char × List Char × List Char) :=
  let (whole, rest) := digits text
  let (fraction, rest) :=
    match rest with
    | '.' :: rest => digits rest
    | _ => ([], rest)
  if whole.isEmpty ∧ fraction.isEmpty then none else some (whole, fraction, rest)

/-- The decimal number that a text without a sign writes. -/
def decimal? (text : List Char) : Option Decimal := do
  let (whole, fraction, rest) ← mantissa? text
  let exponent ← exponent? rest
  return ⟨number (whole ++ fraction), exponent - fraction.length⟩

/-- The double nearest to a decimal number. Numbers far beyond the largest double or far below the
smallest one are told by the place of their first digit. -/
def nearest (negative : Bool) (d : Decimal) : Decimals :=
  let first : Int := d.exponent + (toString d.digits).length
  if d.digits = 0 ∨ first < -400 then .finite (Double.zero negative)
  else if 400 < first then .infinite negative
  else
    let scale := Nat.pow 10 d.exponent.natAbs
    let found :=
      if d.exponent < 0 then Double.ofRatio? negative d.digits scale
      else Double.ofRatio? negative (d.digits * scale) 1
    match found with
    | some d => .finite d
    | none => .infinite negative

/-- A decimal number. -/
def decimals? (text : String) : Option Decimals := do
  let (negative, rest) := sign text.toList
  let word := String.ofList (rest.map Char.toLower)
  if word = "inf" ∨ word = "infinity" then return .infinite negative
  if word = "nan" then return .notANumber
  return nearest negative (← decimal? rest)

end Literal

end ResourceCatalog
