/-!
# Doubles, exactly

A finite double is a sign, a significand and a power of two. Arithmetic is done on the exact value
and rounded once, to the nearest double and to the even one on a tie, so every operation is a
function on natural numbers. Order and equality are those of the values; the two zeros are equal.
-/

namespace ResourceCatalog

namespace Double

/-- The exponent of the doubles nearest to zero. -/
def minExponent : Int := -1074

/-- The exponent of the largest doubles. -/
def maxExponent : Int := 971

/-- The least significand of 53 bits. -/
def leastNormal : Nat := 0x10000000000000

/-- A significand and an exponent of a double. The significand of a normal double has 53 bits; only
the smallest exponent allows fewer. -/
def Fits (significand : Nat) (exponent : Int) : Prop :=
  significand < 2 * leastNormal ∧ minExponent ≤ exponent ∧ exponent ≤ maxExponent ∧
    (leastNormal ≤ significand ∨ exponent = minExponent)

instance (significand : Nat) (exponent : Int) : Decidable (Fits significand exponent) :=
  inferInstanceAs (Decidable (_ ∧ _))

end Double

/-- A finite double: `significand * 2 ^ exponent`, negated if `negative`. -/
structure Double where
  negative : Bool
  significand : Nat
  exponent : Int
  fits : Double.Fits significand exponent
  deriving DecidableEq, Repr

namespace Double

/-- Zero with a sign. -/
def zero (negative : Bool) : Double := ⟨negative, 0, minExponent, by decide⟩

instance : Inhabited Double := ⟨zero false⟩

/-- The double of a significand and an exponent, if there is one. -/
def ofParts? (negative : Bool) (significand : Nat) (exponent : Int) : Option Double :=
  if h : Fits significand exponent then some ⟨negative, significand, exponent, h⟩ else none

def isZero (d : Double) : Bool := d.significand == 0

def neg (d : Double) : Double := { d with negative := !d.negative }

/-- The quotient rounded to the nearest natural number, a half to the even one. -/
def divEven (num den : Nat) : Nat :=
  let quotient := num / den
  let twice := 2 * (num % den)
  if twice < den then quotient
  else if den < twice then quotient + 1
  else if quotient % 2 = 0 then quotient else quotient + 1

/-- `num / den` as a multiple of `2 ^ exponent`, written as a ratio of natural numbers. -/
def scaled (num den : Nat) (exponent : Int) : Nat × Nat :=
  if exponent < 0 then (num <<< exponent.natAbs, den) else (num, den <<< exponent.natAbs)

/-- The exponent at which `num / den` has a significand of 53 bits, or the smallest one there is. -/
def exponentOf (num den : Nat) : Int :=
  let guess : Int := (num.log2 : Int) - (den.log2 : Int) - 52
  let ratio := scaled num den guess
  let exponent := if ratio.1 < leastNormal * ratio.2 then guess - 1 else guess
  max minExponent exponent

/-- The double nearest to `num / den`, unless it lies beyond the largest double. -/
def ofRatio? (negative : Bool) (num den : Nat) : Option Double :=
  if num = 0 then some (zero negative)
  else
    let exponent := exponentOf num den
    let ratio := scaled num den exponent
    let rounded := divEven ratio.1 ratio.2
    if rounded = 2 * leastNormal then ofParts? negative leastNormal (exponent + 1)
    else ofParts? negative rounded exponent

/-- The double nearest to an integer. -/
def ofInt (i : Int) : Double :=
  (ofRatio? (i < 0) i.natAbs 1).getD (zero false)

/-- The exact size of a double as a ratio of natural numbers. -/
def ratio (d : Double) : Nat × Nat :=
  if d.exponent < 0 then (d.significand, 1 <<< d.exponent.natAbs)
  else (d.significand <<< d.exponent.natAbs, 1)

/-- The double nearest to the product, unless it lies beyond the largest double. -/
def mul? (a b : Double) : Option Double :=
  let x := a.ratio
  let y := b.ratio
  ofRatio? (a.negative != b.negative) (x.1 * y.1) (x.2 * y.2)

/-- The double nearest to the quotient by a double that is not zero. -/
def div? (a b : Double) : Option Double :=
  let x := a.ratio
  let y := b.ratio
  ofRatio? (a.negative != b.negative) (x.1 * y.2) (x.2 * y.1)

/-- The value as a multiple of a power of two that is at most its own. -/
def toIntAt (d : Double) (exponent : Int) : Int :=
  let size : Nat := d.significand <<< (d.exponent - exponent).natAbs
  if d.negative then -size else size

/-- Whether one value is at most the other. -/
def le (a b : Double) : Bool :=
  let exponent := min a.exponent b.exponent
  a.toIntAt exponent ≤ b.toIntAt exponent

/-- Whether the values are equal; the zeros of both signs are. -/
def same (a b : Double) : Bool :=
  let exponent := min a.exponent b.exponent
  a.toIntAt exponent == b.toIntAt exponent

/-- The double nearest to a power of ten that a double can hold. -/
def tenPow (n : Nat) : Double := (ofRatio? false (Nat.pow 10 n) 1).getD (zero false)

/-- A decimal number of at most 64 bits, `significand * 10 ^ exponent`, as a double. The
significand and the power of ten become doubles first and are then multiplied or divided, so the
result can differ from the nearest double in its last place. Nothing if it is too large. -/
def ofDecimal? (negative : Bool) (significand : Nat) (exponent : Int) : Option Double := do
  let start ← ofRatio? false significand 1
  let signed (d : Double) : Double := { d with negative }
  if start.isZero then return zero negative
  if 308 < exponent then none
  else if 0 ≤ exponent then return signed (← start.mul? (tenPow exponent.natAbs))
  else if -308 ≤ exponent then return signed (← start.div? (tenPow exponent.natAbs))
  else
    let small ← start.div? (tenPow 308)
    if -616 ≤ exponent then return signed (← small.div? (tenPow (exponent + 308).natAbs))
    else return zero negative

end Double

end ResourceCatalog
