import Mathlib
import ResourceCatalog.Proofs.Number.Reading

/-!
# The shortest decimal tells the double

Around every double lies the interval of the numbers that round to it. The shortest decimal lies in
the interval of its double, as the finest grid that is tried is finer than any interval, and no
number lies in two of them: neighbours touch at most, and then one of the two significands is odd
and leaves its ends out. So no two doubles of one sign have the same shortest decimal.
-/

namespace ResourceCatalog

namespace Double

namespace Interval

/-- A number lies in the interval. -/
def Holds (i : Interval) (x : ℚ) : Prop :=
  if i.closed then i.low ≤ x * i.den ∧ x * i.den ≤ i.high
  else i.low < x * i.den ∧ x * i.den < i.high

theorem contains_eq_true {i : Interval} {point : Nat} : i.contains point = true ↔
    if i.closed then i.low ≤ point * i.den ∧ point * i.den ≤ i.high
    else i.low < point * i.den ∧ point * i.den < i.high := by
  rw [contains]
  cases i.closed with
  | true => exact (Bool.and_eq_true _ _).to_iff.trans (by simp only [decide_eq_true_eq, if_true])
  | false =>
    exact (Bool.and_eq_true _ _).to_iff.trans
      (by simp only [decide_eq_true_eq, Bool.false_eq_true, if_false])

theorem contains_iff {i : Interval} {point : Nat} : i.contains point = true ↔ i.Holds point := by
  rw [contains_eq_true, Holds]
  norm_cast

/-- The double lies between the ends. -/
structure Proper (i : Interval) : Prop where
  den : 0 < i.den
  low : i.low < i.value
  high : i.value < i.high

theorem Proper.inUnits {i : Interval} (h : i.Proper) (unit : Int) : (i.inUnits unit).Proper := by
  have hpow : 0 < Nat.pow 10 unit.natAbs := Nat.pow_pos (by decide)
  rw [Interval.inUnits]
  split
  · exact ⟨h.den, Nat.mul_lt_mul_of_pos_right h.low hpow, Nat.mul_lt_mul_of_pos_right h.high hpow⟩
  · exact ⟨Nat.mul_pos h.den hpow, h.low, h.high⟩

/-- A number measured in powers of ten. -/
theorem holds_inUnits {i : Interval} {unit : Int} {x : ℚ} :
    (i.inUnits unit).Holds x ↔ i.Holds (x * 10 ^ unit) := by
  rw [inUnits]
  split
  · next hneg =>
    have hpow : (0 : ℚ) < 10 ^ unit.natAbs := pow_pos (by norm_num) _
    have hunit : (10 : ℚ) ^ unit = (10 ^ unit.natAbs)⁻¹ := by
      rw [← zpow_natCast, ← zpow_neg, Int.ofNat_natAbs_of_nonpos (le_of_lt hneg), neg_neg]
    have hscale : x * 10 ^ unit * i.den = x * i.den / 10 ^ unit.natAbs := by
      rw [hunit]
      ring
    rw [Holds, Holds, hscale]
    simp only [le_div_iff₀ hpow, div_le_iff₀ hpow, lt_div_iff₀ hpow, div_lt_iff₀ hpow,
      Nat.pow_eq, Nat.cast_mul, Nat.cast_pow, Nat.cast_ofNat]
  · next hpos =>
    have hunit : (10 : ℚ) ^ unit = 10 ^ unit.natAbs := by
      rw [← zpow_natCast, Int.natAbs_of_nonneg (not_lt.1 hpos)]
    have hscale : x * 10 ^ unit * i.den = x * (i.den * 10 ^ unit.natAbs) := by
      rw [hunit]
      ring
    rw [Holds, Holds, hscale]
    simp only [Nat.pow_eq, Nat.cast_mul, Nat.cast_pow, Nat.cast_ofNat]

theorem contains_of_nearest? {i : Interval} {point : Nat} (h : i.nearest? = some point) :
    i.contains point = true := by
  rw [nearest?] at h
  dsimp only at h
  split at h
  · next hbelow habove =>
    have hbelow := (Bool.and_eq_true_iff.1 hbelow).1
    split at h
    · exact Option.some.inj h ▸ hbelow
    · split at h
      · exact Option.some.inj h ▸ habove
      · split at h <;> exact Option.some.inj h ▸ ‹_›
  · next hbelow habove => exact Option.some.inj h ▸ (Bool.and_eq_true_iff.1 hbelow).1
  · next hbelow habove => exact Option.some.inj h ▸ habove
  · cases h

/-- If the interval holds a grid point, it holds a neighbour of the double. -/
theorem Proper.exists_nearest? {i : Interval} (h : i.Proper) {point : Nat} (hpoint : point ≠ 0)
    (hcontains : i.contains point = true) : ∃ p, i.nearest? = some p := by
  have hbelow : i.value / i.den * i.den ≤ i.value := Nat.div_mul_le_self _ _
  have habove : i.value < (i.value / i.den + 1) * i.den := by
    rw [Nat.mul_comm]
    exact Nat.lt_mul_div_succ _ h.den
  have hneighbour : (i.contains (i.value / i.den) && i.value / i.den != 0) = true ∨
      i.contains (i.value / i.den + 1) = true := by
    rcases Nat.lt_or_ge (i.value / i.den) point with hlt | hge
    · refine Or.inr ?_
      have hle : (i.value / i.den + 1) * i.den ≤ point * i.den := Nat.mul_le_mul_right _ hlt
      have hlow := h.low
      rw [contains_eq_true] at hcontains ⊢
      split_ifs at hcontains ⊢ <;> omega
    · refine Or.inl ?_
      have hle : point * i.den ≤ i.value / i.den * i.den := Nat.mul_le_mul_right _ hge
      have hhigh := h.high
      rw [Bool.and_eq_true, bne_iff_ne]
      refine ⟨?_, by omega⟩
      rw [contains_eq_true] at hcontains ⊢
      split_ifs at hcontains ⊢ <;> omega
  rw [nearest?]
  dsimp only
  split
  · split
    · exact ⟨_, rfl⟩
    · split <;> exact ⟨_, rfl⟩
  · exact ⟨_, rfl⟩
  · exact ⟨_, rfl⟩
  · next hnone hnone' =>
    rw [hnone, hnone'] at hneighbour
    exact absurd hneighbour (by decide)

theorem holds_coarsest {i : Interval} {steps : Nat} {unit : Int}
    (h : ∃ k < steps, ∃ p, (i.inUnits (unit - k)).nearest? = some p) :
    ∃ d : Decimal, i.coarsest steps unit = d ∧ i.Holds (d.digits * 10 ^ d.exponent) := by
  induction steps generalizing unit with
  | zero => obtain ⟨k, hk, _⟩ := h; omega
  | succ steps ih =>
    rw [coarsest]
    cases hnearest : (i.inUnits unit).nearest? with
    | some digits =>
      exact ⟨_, rfl, holds_inUnits.1 (contains_iff.1 (contains_of_nearest? hnearest))⟩
    | none =>
      obtain ⟨k, hk, p, hp⟩ := h
      cases k with
      | zero =>
        rw [Nat.cast_zero, sub_zero, hnearest] at hp
        cases hp
      | succ k =>
        refine ih ⟨k, Nat.lt_of_succ_lt_succ hk, p, ?_⟩
        have hunit : unit - 1 - k = unit - (k + 1 : ℕ) := by push_cast; ring
        rw [hunit]
        exact hp

end Interval

/-! ### The numbers that round to a double -/

/-- The lower end of the interval, in quarters of the last place. -/
def lowEnd (d : Double) : Nat :=
  if d.significand = leastNormal ∧ minExponent < d.exponent then 4 * d.significand - 1
  else 4 * d.significand - 2

theorem lowEnd_cases (d : Double) : d.lowEnd = 4 * d.significand - 2 ∨
    d.lowEnd = 4 * d.significand - 1 ∧ d.significand = leastNormal := by
  rw [lowEnd]
  split
  · next h => exact Or.inr ⟨rfl, h.1⟩
  · exact Or.inl rfl

/-- The ends of the interval over its denominator. -/
theorem exists_interval_eq (d : Double) : ∃ up den : Nat, 0 < up ∧ 0 < den ∧
    (up : ℚ) * 4 = 2 ^ d.exponent * den ∧
    d.interval = ⟨d.lowEnd * up, 4 * d.significand * up, (4 * d.significand + 2) * up, den,
      d.significand % 2 = 0⟩ := by
  rcases lt_or_ge d.exponent 0 with hneg | hpos
  · refine ⟨1, 4 <<< d.exponent.natAbs, Nat.one_pos, ?_, ?_, ?_⟩
    · rw [Nat.shiftLeft_eq]
      exact Nat.mul_pos (by decide) (Nat.pow_pos two_pos)
    · have hexponent : (2 : ℚ) ^ d.exponent = (2 ^ d.exponent.natAbs)⁻¹ := by
        rw [← zpow_natCast, ← zpow_neg, Int.ofNat_natAbs_of_nonpos (le_of_lt hneg), neg_neg]
      rw [hexponent, Nat.shiftLeft_eq]
      push_cast
      field_simp
    · simp only [interval, lowEnd, if_pos hneg]
  · refine ⟨1 <<< d.exponent.natAbs, 4, ?_, by decide, ?_, ?_⟩
    · rw [Nat.one_shiftLeft]
      exact Nat.pow_pos two_pos
    · rw [Nat.one_shiftLeft, Nat.cast_pow, ← zpow_natCast, Int.natAbs_of_nonneg hpos]
      norm_num
    · simp only [interval, lowEnd, if_neg (not_lt.2 hpos)]

theorem holds_interval {d : Double} {x : ℚ} : d.interval.Holds x ↔
    if d.significand % 2 = 0 then
      d.lowEnd * 2 ^ d.exponent ≤ 4 * x ∧ 4 * x ≤ (4 * d.significand + 2 : ℕ) * 2 ^ d.exponent
    else
      d.lowEnd * 2 ^ d.exponent < 4 * x ∧
        4 * x < (4 * d.significand + 2 : ℕ) * 2 ^ d.exponent := by
  obtain ⟨up, den, -, hden, hscale, heq⟩ := exists_interval_eq d
  have hden : (0 : ℚ) < den := Nat.cast_pos.2 hden
  have hquarter : ∀ end' : ℕ, ((end' * up : ℕ) : ℚ) = end' * 2 ^ d.exponent * den / 4 := by
    intro end'
    rw [eq_div_iff (by norm_num), Nat.cast_mul, mul_assoc, hscale, mul_assoc]
  have hfour : x * den = 4 * x * den / 4 := by ring
  simp only [heq, Interval.Holds, decide_eq_true_eq, hquarter, hfour]
  simp only [div_le_div_iff_of_pos_right (show (0 : ℚ) < 4 by norm_num),
    div_lt_div_iff_of_pos_right (show (0 : ℚ) < 4 by norm_num), mul_le_mul_iff_left₀ hden,
    mul_lt_mul_iff_left₀ hden]

theorem lowEnd_lt {d : Double} (h : d.significand ≠ 0) :
    0 < d.lowEnd ∧ d.lowEnd < 4 * d.significand := by
  rw [lowEnd]
  split <;> omega

theorem proper_interval {d : Double} (h : d.significand ≠ 0) : d.interval.Proper := by
  obtain ⟨up, den, hup, hden, -, heq⟩ := exists_interval_eq d
  rw [heq]
  exact ⟨hden, Nat.mul_lt_mul_of_pos_right (lowEnd_lt h).2 hup,
    Nat.mul_lt_mul_of_pos_right (by omega) hup⟩

/-! ### No number rounds to two doubles -/

section Separation

variable {a b : Double} {x : ℚ}

/-- Where intervals meet, the one ends behind the start of the other. If they only touch, both
significands are even. -/
theorem lowEnd_le_of_holds (ha : a.interval.Holds x) (hb : b.interval.Holds x)
    (hle : a.exponent ≤ b.exponent) :
    b.lowEnd * 2 ^ (b.exponent - a.exponent).toNat ≤ 4 * a.significand + 2 ∧
      (b.lowEnd * 2 ^ (b.exponent - a.exponent).toNat = 4 * a.significand + 2 →
        a.significand % 2 = 0 ∧ b.significand % 2 = 0) := by
  have hscale : (b.lowEnd : ℚ) * 2 ^ b.exponent =
      (b.lowEnd * 2 ^ (b.exponent - a.exponent).toNat : ℕ) * 2 ^ a.exponent := by
    rw [Nat.cast_mul, Nat.cast_pow, Nat.cast_ofNat, mul_assoc, ← zpow_natCast,
      Int.toNat_of_nonneg (by omega), ← zpow_add₀ two_ne_zero, sub_add_cancel]
  have hpos : (0 : ℚ) < 2 ^ a.exponent := zpow_pos two_pos _
  have hstrict : (b.lowEnd * 2 ^ (b.exponent - a.exponent).toNat : ℕ) * (2 : ℚ) ^ a.exponent <
      (4 * a.significand + 2 : ℕ) * 2 ^ a.exponent →
      b.lowEnd * 2 ^ (b.exponent - a.exponent).toNat ≤ 4 * a.significand + 2 ∧
        (b.lowEnd * 2 ^ (b.exponent - a.exponent).toNat = 4 * a.significand + 2 →
          a.significand % 2 = 0 ∧ b.significand % 2 = 0) := by
    intro hlt
    rw [mul_lt_mul_iff_left₀ hpos, Nat.cast_lt] at hlt
    exact ⟨le_of_lt hlt, fun heq => absurd heq (ne_of_lt hlt)⟩
  rw [holds_interval] at ha hb
  rw [hscale] at hb
  split_ifs at ha hb with heven heven'
  · have hends := hb.1.trans ha.2
    rw [mul_le_mul_iff_left₀ hpos, Nat.cast_le] at hends
    exact ⟨hends, fun _ => ⟨heven, heven'⟩⟩
  · exact hstrict (hb.1.trans_le ha.2)
  · exact hstrict (hb.1.trans_lt ha.2)
  · exact hstrict (hb.1.trans ha.2)

/-- A number lies in the interval of one double at most. -/
theorem parts_eq_of_holds (hsa : a.significand ≠ 0) (hsb : b.significand ≠ 0)
    (ha : a.interval.Holds x) (hb : b.interval.Holds x) :
    a.significand = b.significand ∧ a.exponent = b.exponent := by
  wlog hle : a.exponent ≤ b.exponent generalizing a b with hsymm
  · obtain ⟨hsignificand, hexponent⟩ := hsymm hsb hsa hb ha (by omega)
    exact ⟨hsignificand.symm, hexponent.symm⟩
  obtain ⟨hends, htouch⟩ := lowEnd_le_of_holds ha hb hle
  have hlow := b.lowEnd_cases
  rcases hle.lt_or_eq with hlt | heq
  · -- the larger exponent is not the smallest one, so the significand is of full length
    obtain ⟨hsize, hmin, -, -⟩ := a.fits
    have hfull : leastNormal ≤ b.significand := b.fits.2.2.2.resolve_right (by omega)
    obtain ⟨t, ht⟩ : ∃ t, (b.exponent - a.exponent).toNat = t + 1 :=
      ⟨(b.exponent - a.exponent).toNat - 1, by omega⟩
    have hboundary : b.significand = leastNormal → b.lowEnd = 4 * b.significand - 1 :=
      fun h => if_pos ⟨h, by omega⟩
    have htwice : b.lowEnd * 2 ≤ b.lowEnd * 2 ^ (b.exponent - a.exponent).toNat := by
      rw [ht, pow_succ']
      exact Nat.mul_le_mul_left _ (Nat.le_mul_of_pos_right 2 (Nat.pow_pos two_pos))
    exfalso
    rcases hfull.lt_or_eq with hlarger | hleast
    · omega
    · have hquarter := hboundary hleast.symm
      omega
  · refine ⟨?_, heq⟩
    obtain ⟨hends', htouch'⟩ := lowEnd_le_of_holds hb ha (by omega)
    rw [heq, sub_self, Int.toNat_zero, pow_zero, mul_one] at hends hends' htouch htouch'
    have hlow' := a.lowEnd_cases
    omega

end Separation

/-! ### The shortest decimal is found -/

/-- `1233 / 4096` is the decimal logarithm of two, well enough for the exponents of doubles. -/
theorem ten_zpow_le {x : Int} (hlow : -1074 ≤ x) (hhigh : x ≤ 1024) :
    (10 : ℚ) ^ (x * 1233 / 4096) ≤ 1000 * 2 ^ x := by
  rcases le_or_gt 0 x with hpos | hneg
  · obtain ⟨n, rfl⟩ := Int.eq_ofNat_of_zero_le hpos
    obtain ⟨m, hm⟩ := Int.eq_ofNat_of_zero_le (show 0 ≤ (n : Int) * 1233 / 4096 by omega)
    have hexponent : 10 * m ≤ 3 * (n + 4) := by omega
    have hpow : (10 : ℕ) ^ m ≤ 2 ^ (n + 4) := by
      rw [← Nat.pow_le_pow_iff_left (show 3 ≠ 0 by decide)]
      calc (10 ^ m) ^ 3 = (10 ^ 3) ^ m := pow_right_comm 10 m 3
        _ ≤ (2 ^ 10) ^ m := Nat.pow_le_pow_left (by decide) m
        _ = 2 ^ (10 * m) := (pow_mul 2 10 m).symm
        _ ≤ 2 ^ (3 * (n + 4)) := Nat.pow_le_pow_right (by decide) hexponent
        _ = (2 ^ (n + 4)) ^ 3 := by rw [← pow_mul, Nat.mul_comm]
    rw [hm, zpow_natCast, zpow_natCast]
    calc (10 : ℚ) ^ m ≤ 2 ^ (n + 4) := by exact_mod_cast hpow
      _ = 16 * 2 ^ n := by rw [pow_add]; ring
      _ ≤ 1000 * 2 ^ n := mul_le_mul_of_nonneg_right (by norm_num) (by positivity)
  · obtain ⟨n, hn⟩ := Int.eq_ofNat_of_zero_le (show 0 ≤ -x by omega)
    obtain ⟨k, hk⟩ := Int.eq_ofNat_of_zero_le (show 0 ≤ -(x * 1233 / 4096) by omega)
    have hexponent : 10 * n ≤ 33 * (k + 3) := by omega
    have hpow : (2 : ℕ) ^ n ≤ 10 ^ (k + 3) := by
      rw [← Nat.pow_le_pow_iff_left (show 10 ≠ 0 by decide)]
      calc (2 ^ n) ^ 10 = 2 ^ (10 * n) := by rw [← pow_mul, Nat.mul_comm]
        _ ≤ 2 ^ (33 * (k + 3)) := Nat.pow_le_pow_right (by decide) hexponent
        _ = (2 ^ 33) ^ (k + 3) := pow_mul 2 33 _
        _ ≤ (10 ^ 10) ^ (k + 3) := Nat.pow_le_pow_left (by decide) _
        _ = (10 ^ (k + 3)) ^ 10 := pow_right_comm 10 10 (k + 3)
    have hpow : (2 : ℚ) ^ n ≤ 10 ^ (k + 3) := by exact_mod_cast hpow
    rw [show x = -(n : Int) by omega, show -(n : Int) * 1233 / 4096 = -(k : Int) by omega,
      zpow_neg, zpow_neg, zpow_natCast, zpow_natCast, ← div_eq_mul_inv,
      le_div_iff₀ (by positivity), inv_mul_le_iff₀ (by positivity)]
    calc (2 : ℚ) ^ n ≤ 10 ^ (k + 3) := hpow
      _ = 10 ^ k * 1000 := by rw [pow_add]; norm_num

/-- The finest grid that is tried is finer than the interval. -/
theorem grid_lt {d : Double} (h : d.significand ≠ 0) :
    4 * (10 : ℚ) ^ (d.unitAbove - 23) < 3 * 2 ^ d.exponent := by
  obtain ⟨hsize, hmin, hmax, -⟩ := d.fits
  have hbits : d.significand.log2 ≤ 52 := Nat.lt_succ_iff.1 ((Nat.log2_lt h).2 hsize)
  rw [minExponent] at hmin
  rw [maxExponent] at hmax
  have hunit := ten_zpow_le (x := d.significand.log2 + d.exponent + 1) (by omega) (by omega)
  have hpow : (2 : ℚ) ^ ((d.significand.log2 : Int) + d.exponent + 1) ≤ 2 ^ 53 * 2 ^ d.exponent := by
    rw [← zpow_natCast, ← zpow_add₀ two_ne_zero]
    exact zpow_le_zpow_right₀ one_le_two (by push_cast; omega)
  have hpos : (0 : ℚ) < 2 ^ d.exponent := zpow_pos two_pos _
  rw [unitAbove, add_sub_assoc, zpow_add₀ (by norm_num)]
  calc 4 * (10 ^ (((d.significand.log2 : Int) + d.exponent + 1) * 1233 / 4096) * 10 ^ (2 - 23 : ℤ))
      ≤ 4 * (1000 * (2 ^ 53 * 2 ^ d.exponent) * (10 : ℚ) ^ (2 - 23 : ℤ)) := by
        have hgrid := hunit.trans (mul_le_mul_of_nonneg_left hpow (by norm_num : (0 : ℚ) ≤ 1000))
        gcongr
    _ = 4 * 1000 * 2 ^ 53 * (10 : ℚ) ^ (2 - 23 : ℤ) * 2 ^ d.exponent := by ring
    _ < 3 * 2 ^ d.exponent := mul_lt_mul_of_pos_right (by norm_num) hpos

/-- Between two numbers lies a multiple of any unit that is less than their distance. -/
theorem exists_multiple_between {low high unit : ℚ} (hlow : 0 ≤ low) (hunit : 0 < unit)
    (h : unit < high - low) : ∃ n : ℕ, n ≠ 0 ∧ low < n * unit ∧ n * unit < high := by
  have hfloor := Nat.floor_le (div_nonneg hlow hunit.le)
  have hnext := Nat.lt_floor_add_one (low / unit)
  rw [le_div_iff₀ hunit] at hfloor
  rw [div_lt_iff₀ hunit] at hnext
  refine ⟨⌊low / unit⌋₊ + 1, Nat.succ_ne_zero _, ?_, ?_⟩
  · push_cast
    exact hnext
  · push_cast
    linarith

theorem exists_grid_point {d : Double} (h : d.significand ≠ 0) :
    ∃ k : ℕ, k < 24 ∧ ∃ p, (d.interval.inUnits (d.unitAbove - k)).nearest? = some p := by
  have hgrid := grid_lt h
  obtain ⟨hpositive, hend⟩ := lowEnd_lt h
  have hexp : (0 : ℚ) < 2 ^ d.exponent := zpow_pos two_pos _
  have hwidth : ((d.lowEnd + 3 : ℕ) : ℚ) * 2 ^ d.exponent ≤
      (4 * d.significand + 2 : ℕ) * 2 ^ d.exponent :=
    mul_le_mul_of_nonneg_right (Nat.cast_le.2 (by omega)) hexp.le
  have hfine : 4 * (10 : ℚ) ^ (d.unitAbove - 23) <
      (4 * d.significand + 2 : ℕ) * 2 ^ d.exponent - d.lowEnd * 2 ^ d.exponent := by
    push_cast at hwidth ⊢
    linarith
  have hlow : (0 : ℚ) ≤ d.lowEnd * 2 ^ d.exponent := mul_nonneg (Nat.cast_nonneg _) hexp.le
  obtain ⟨point, hpoint, hbehind, hbefore⟩ := exists_multiple_between hlow
    (mul_pos four_pos (zpow_pos (by norm_num) _)) hfine
  rw [mul_left_comm] at hbehind hbefore
  have hholds : d.interval.Holds (point * 10 ^ (d.unitAbove - 23)) := by
    rw [holds_interval]
    split
    · exact ⟨hbehind.le, hbefore.le⟩
    · exact ⟨hbehind, hbefore⟩
  exact ⟨23, by decide, ((proper_interval h).inUnits _).exists_nearest? hpoint
    (Interval.contains_iff.2 (Interval.holds_inUnits.2 hholds))⟩

/-- The shortest decimal of a double rounds to it. -/
theorem holds_shortest {d : Double} (h : d.significand ≠ 0) :
    d.interval.Holds d.shortest.value := by
  have hzero : d.isZero = false := beq_false_of_ne h
  obtain ⟨decimal, heq, hholds⟩ := Interval.holds_coarsest (exists_grid_point h)
  rw [shortest, hzero]
  rw [← heq] at hholds
  exact hholds

theorem value_shortest_eq_zero_iff {d : Double} : d.shortest.value = 0 ↔ d.significand = 0 := by
  constructor
  · intro hvalue
    by_contra hne
    have hholds := holds_shortest hne
    have hlow : (0 : ℚ) < d.lowEnd * 2 ^ d.exponent :=
      mul_pos (Nat.cast_pos.2 (lowEnd_lt hne).1) (zpow_pos two_pos _)
    rw [hvalue, holds_interval, mul_zero] at hholds
    split at hholds
    · exact absurd hholds.1 (not_le.2 hlow)
    · exact absurd hholds.1 (not_lt.2 hlow.le)
  · intro hzero
    have hzero : d.isZero = true := beq_iff_eq.2 hzero
    rw [shortest, hzero, Decimal.value]
    exact zero_mul _

/-- Doubles of one sign with shortest decimals of one value are the same. -/
theorem eq_of_shortest {a b : Double} (hsign : a.negative = b.negative)
    (hvalue : a.shortest.value = b.shortest.value) : a = b := by
  have hparts : a.significand = b.significand ∧ a.exponent = b.exponent := by
    by_cases hzero : a.significand = 0
    · have hzero' : b.significand = 0 := by
        rw [← value_shortest_eq_zero_iff, ← hvalue, value_shortest_eq_zero_iff]
        exact hzero
      have hleast : ¬ leastNormal ≤ 0 := by decide
      exact ⟨hzero.trans hzero'.symm, (a.fits.2.2.2.resolve_left (hzero ▸ hleast)).trans
        (b.fits.2.2.2.resolve_left (hzero' ▸ hleast)).symm⟩
    · have hzero' : b.significand ≠ 0 := by
        rw [Ne, ← value_shortest_eq_zero_iff, ← hvalue, value_shortest_eq_zero_iff]
        exact hzero
      exact parts_eq_of_holds hzero hzero' (holds_shortest hzero) (hvalue ▸ holds_shortest hzero')
  obtain ⟨negative, significand, exponent, _⟩ := a
  obtain ⟨_, _, _, _⟩ := b
  obtain ⟨rfl, rfl⟩ := hparts
  cases hsign
  rfl

end Double

end ResourceCatalog
