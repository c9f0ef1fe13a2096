import ResourceCatalog.Number.Double

/-!
# The shortest decimal of a double

A double is written with the fewest digits that read back as the same double: the coarsest grid of
powers of ten that meets the interval of numbers rounding to it, and on that grid the point nearest
to the double. All comparisons are between natural numbers.
-/

namespace ResourceCatalog

/-- The decimal number `digits * 10 ^ exponent`. -/
structure Decimal where
  digits : Nat
  exponent : Int
  deriving DecidableEq, Repr

namespace Double

/-- A positive double and the two ends of the interval that rounds to it, over one denominator. -/
structure Interval where
  low : Nat
  value : Nat
  high : Nat
  den : Nat
  /-- Whether the ends round to the double too, which they do when its significand is even. -/
  closed : Bool

/-- Below a power of two the doubles are twice as close, so the lower end is nearer there. -/
def interval (d : Double) : Interval :=
  let low := if d.significand = leastNormal ∧ minExponent < d.exponent
    then 4 * d.significand - 1 else 4 * d.significand - 2
  let up := if d.exponent < 0 then 1 else 1 <<< d.exponent.natAbs
  let den := if d.exponent < 0 then 4 <<< d.exponent.natAbs else 4
  { low := low * up, value := 4 * d.significand * up, high := (4 * d.significand + 2) * up,
    den, closed := d.significand % 2 = 0 }

namespace Interval

/-- The interval with `10 ^ unit` as the measure, so that grid points are natural numbers. -/
def inUnits (i : Interval) (unit : Int) : Interval :=
  if unit < 0 then
    let up := Nat.pow 10 unit.natAbs
    { i with low := i.low * up, value := i.value * up, high := i.high * up }
  else { i with den := i.den * Nat.pow 10 unit.natAbs }

def contains (i : Interval) (point : Nat) : Bool :=
  let x := point * i.den
  if i.closed then i.low ≤ x && x ≤ i.high else i.low < x && x < i.high

/-- The grid point of the interval nearest to the double, the even one on a tie. Only the
neighbours of the double need a test: if the interval holds a point, it holds one of them. -/
def nearest? (i : Interval) : Option Nat :=
  let below := i.value / i.den
  let above := below + 1
  match i.contains below && below != 0, i.contains above with
  | true, true =>
    let down := i.value - below * i.den
    let up := above * i.den - i.value
    if down < up then some below
    else if up < down then some above
    else some (if below % 2 = 0 then below else above)
  | true, false => some below
  | false, true => some above
  | false, false => none

/-- The first grid that meets the interval, starting at `unit` and refined at most `steps`
times. -/
def coarsest (i : Interval) : (steps : Nat) → (unit : Int) → Decimal
  | 0, unit => ⟨(i.inUnits unit).value / (i.inUnits unit).den, unit⟩
  | steps + 1, unit =>
    match (i.inUnits unit).nearest? with
    | some digits => ⟨digits, unit⟩
    | none => i.coarsest steps (unit - 1)

end Interval

/-- A power of ten that is not below the double, from the number of its bits: `1233 / 4096` is a
little more than the decimal logarithm of two. -/
def unitAbove (d : Double) : Int :=
  ((d.significand.log2 : Int) + d.exponent + 1) * 1233 / 4096 + 2

/-- The shortest decimal of the size of a double. Seventeen digits always suffice, and the start
is at most a few units too coarse. -/
def shortest (d : Double) : Decimal :=
  if d.isZero then ⟨0, 0⟩ else d.interval.coarsest 24 d.unitAbove

end Double

/-! ### Writing decimals -/

/-- How a decimal number is laid out. -/
structure DecimalLayout where
  /-- The exponents of the first digit for which positional notation is used. -/
  positionalFrom : Int
  positionalTo : Int
  /-- The mark before a decimal exponent of zero or more. -/
  mark : String
  /-- The mark before the minus sign of any other exponent. -/
  negativeMark : String
  /-- Whether a whole number ends in `.0`. -/
  pointZero : Bool

namespace Decimal

def zeros (n : Nat) : String := String.ofList (List.replicate n '0')

/-- The digits without the zeros at the end, and the exponent that makes up for them. -/
def trim (steps : Nat) (d : Decimal) : Decimal :=
  match steps with
  | 0 => d
  | steps + 1 =>
    if d.digits ≠ 0 ∧ d.digits % 10 = 0 then trim steps ⟨d.digits / 10, d.exponent + 1⟩ else d

/-- The text of a decimal number under a layout. -/
def render (layout : DecimalLayout) (decimal : Decimal) : String :=
  let d := decimal.trim 20
  let text := toString d.digits
  let count := text.length
  let whole := if layout.pointZero then ".0" else ""
  if d.digits = 0 then "0" ++ whole
  else
    let first : Int := d.exponent + count - 1
    if layout.positionalFrom ≤ first ∧ first ≤ layout.positionalTo then
      if 0 ≤ d.exponent then text ++ zeros d.exponent.natAbs ++ whole
      else if 0 ≤ first then
        let cut := first.natAbs + 1
        String.ofList (text.toList.take cut) ++ "." ++ String.ofList (text.toList.drop cut)
      else "0." ++ zeros (first.natAbs - 1) ++ text
    else
      let tail := String.ofList (text.toList.drop 1)
      let fraction := if tail = "" then "" else "." ++ tail
      String.ofList (text.toList.take 1) ++ fraction ++
        (if 0 ≤ first then layout.mark else layout.negativeMark) ++ toString first

end Decimal

end ResourceCatalog
