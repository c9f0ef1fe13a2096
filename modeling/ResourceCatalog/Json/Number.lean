import ResourceCatalog.Number.Shortest

/-!
# Numbers of documents

A number is an integer of 64 bits or a double. The two kinds are never equal, whatever their
values; where sizes are compared, both become doubles first.
-/

namespace ResourceCatalog

/-- A number of a document. Integers run from `-2 ^ 63` to `2 ^ 64 - 1`. -/
inductive Number where
  | integer (value : Int)
  | double (value : Double)
  deriving DecidableEq, Repr, Inhabited

namespace Number

/-- The integers that a document can hold. -/
def InRange (i : Int) : Prop := -0x8000000000000000 ≤ i ∧ i < 0x10000000000000000

instance (i : Int) : Decidable (InRange i) := inferInstanceAs (Decidable (_ ∧ _))

/-- Equality of numbers: the same integer, or doubles of the same value. -/
def same : Number → Number → Bool
  | .integer a, .integer b => a == b
  | .double a, .double b => a.same b
  | _, _ => false

/-- The double nearest to the number. -/
def toDouble : Number → Double
  | .integer i => Double.ofInt i
  | .double d => d

/-- The number as an unsigned integer of 64 bits. -/
def toNat? : Number → Option Nat
  | .integer i => if 0 ≤ i then some i.toNat else none
  | .double _ => none

/-- Doubles are written positionally while the first digit stands for `10 ^ -5` to `10 ^ 15`, whole
ones with `.0`, and an exponent follows `e` with its sign. -/
def layout : DecimalLayout := ⟨-5, 15, "e+", "e", true⟩

def render : Number → String
  | .integer i => toString i
  | .double d => (if d.negative then "-" else "") ++ d.shortest.render layout

end Number

end ResourceCatalog
