import Mathlib
import ResourceCatalog.Json.Number

/-!
# The values of numbers

A double stands for a rational number. Doubles are compared at the smaller of their exponents, where
both are integers, and that is the comparison of what they stand for.
-/

namespace ResourceCatalog

namespace Double

/-- The rational number that a double stands for. -/
def value (d : Double) : ℚ :=
  (if d.negative then -(d.significand : ℚ) else d.significand) * 2 ^ d.exponent

theorem toIntAt_eq (d : Double) {exponent : Int} (h : exponent ≤ d.exponent) :
    (d.toIntAt exponent : ℚ) = d.value * 2 ^ (-exponent) := by
  have hshift : ((d.exponent - exponent).natAbs : ℤ) = d.exponent - exponent := by omega
  have hsize : ((d.significand <<< (d.exponent - exponent).natAbs : ℕ) : ℚ) =
      d.significand * 2 ^ d.exponent * 2 ^ (-exponent) := by
    rw [Nat.shiftLeft_eq, Nat.cast_mul, Nat.cast_pow, Nat.cast_ofNat, ← zpow_natCast, hshift,
      sub_eq_add_neg, zpow_add₀ two_ne_zero, mul_assoc]
  rw [toIntAt, value]
  cases d.negative with
  | true =>
    rw [if_pos rfl, if_pos rfl, Int.cast_neg, Int.cast_natCast, hsize]
    ring
  | false =>
    rw [if_neg Bool.false_ne_true, if_neg Bool.false_ne_true, Int.cast_natCast, hsize]

theorem le_iff {a b : Double} : a.le b = true ↔ a.value ≤ b.value := by
  have ha := a.toIntAt_eq (min_le_left a.exponent b.exponent)
  have hb := b.toIntAt_eq (min_le_right a.exponent b.exponent)
  have hpos : (0 : ℚ) < 2 ^ (-min a.exponent b.exponent) := zpow_pos two_pos _
  rw [le, decide_eq_true_eq, ← Int.cast_le (R := ℚ), ha, hb]
  exact mul_le_mul_iff_of_pos_right hpos

theorem same_iff {a b : Double} : a.same b = true ↔ a.value = b.value := by
  have ha := a.toIntAt_eq (min_le_left a.exponent b.exponent)
  have hb := b.toIntAt_eq (min_le_right a.exponent b.exponent)
  have hpos : (0 : ℚ) < 2 ^ (-min a.exponent b.exponent) := zpow_pos two_pos _
  rw [same, beq_iff_eq, ← Int.cast_inj (α := ℚ), ha, hb]
  exact mul_left_inj' (ne_of_gt hpos)

end Double

namespace Number

theorem same_refl (n : Number) : n.same n = true := by
  cases n with
  | integer i => exact beq_self_eq_true i
  | double d => exact Double.same_iff.2 rfl

theorem same_symm {m n : Number} (h : m.same n = true) : n.same m = true := by
  cases m with
  | integer i =>
    cases n with
    | integer j => exact beq_iff_eq.2 (beq_iff_eq.1 h).symm
    | double _ => cases h
  | double d =>
    cases n with
    | integer _ => cases h
    | double e => exact Double.same_iff.2 (Double.same_iff.1 h).symm

theorem same_trans {m n k : Number} (h : m.same n = true) (h' : n.same k = true) :
    m.same k = true := by
  cases m with
  | integer i =>
    cases n with
    | integer j =>
      rw [beq_iff_eq.1 (show (i == j) = true from h)]
      exact h'
    | double _ => cases h
  | double d =>
    cases n with
    | integer _ => cases h
    | double e =>
      cases k with
      | integer _ => cases h'
      | double f => exact Double.same_iff.2 ((Double.same_iff.1 h).trans (Double.same_iff.1 h'))

/-- Equal numbers have the same value as doubles. -/
theorem value_eq_of_same {m n : Number} (h : m.same n = true) :
    m.toDouble.value = n.toDouble.value := by
  cases m with
  | integer i =>
    cases n with
    | integer j => rw [beq_iff_eq.1 (show (i == j) = true from h)]
    | double _ => cases h
  | double d =>
    cases n with
    | integer _ => cases h
    | double e => exact Double.same_iff.1 h

end Number

end ResourceCatalog
