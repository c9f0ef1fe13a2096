import Mathlib
import ResourceCatalog.Proofs.Number.Value

/-!
# Integers as doubles

The double of an integer is the nearest multiple of a power of two, the even one of two that are as
near. That power leaves a significand of 53 bits, so integers of at most 53 bits are doubles
themselves, and of the integers of 64 bits none is moved by more than a thousand or so. A larger
integer never becomes a smaller double, but it may become the same one.
-/

namespace ResourceCatalog.Double

/-! ### Rounded quotients -/

section Quotients

variable {m n den : Nat}

theorem divEven_cases (num den : Nat) :
    (divEven num den = num / den ∧ 2 * (num % den) ≤ den) ∨
      (divEven num den = num / den + 1 ∧ den ≤ 2 * (num % den)) := by
  rw [divEven]
  split
  · exact Or.inl ⟨rfl, by omega⟩
  · split
    · exact Or.inr ⟨rfl, by omega⟩
    · split
      · exact Or.inl ⟨rfl, by omega⟩
      · exact Or.inr ⟨rfl, by omega⟩

theorem divEven_mono (den : Nat) (h : m ≤ n) : divEven m den ≤ divEven n den := by
  have hquotients : m / den ≤ n / den := Nat.div_le_div_right h
  rcases hquotients.lt_or_eq with hlt | heq
  · calc divEven m den ≤ m / den + 1 := by rcases divEven_cases m den with h | h <;> omega
      _ ≤ n / den := hlt
      _ ≤ divEven n den := by rcases divEven_cases n den with h | h <;> omega
  · -- with one quotient the remainders decide, and the rule for a half is the same for both
    have hremainders : m % den ≤ n % den := by
      have hm := Nat.div_add_mod m den
      have hn := Nat.div_add_mod n den
      rw [← heq] at hn
      omega
    rw [divEven, divEven, heq]
    split_ifs <;> omega

theorem divEven_mul (k : Nat) (hden : 0 < den) : divEven (k * den) den = k := by
  rw [divEven, Nat.mul_div_cancel k hden, Nat.mul_mod_left]
  exact if_pos hden

/-- A rounded quotient is off by half a unit at most. -/
theorem divEven_near (num : Nat) (hden : 0 < den) :
    2 * (divEven num den * den) ≤ 2 * num + den ∧ 2 * num ≤ 2 * (divEven num den * den) + den := by
  have hnum := Nat.div_add_mod' num den
  have hrest := Nat.mod_lt num hden
  rcases divEven_cases num den with ⟨heq, h⟩ | ⟨heq, h⟩
  · rw [heq]
    generalize num / den * den = whole at *
    omega
  · rw [heq, Nat.add_mul, Nat.one_mul]
    generalize num / den * den = whole at *
    omega

end Quotients

/-! ### The nearest multiple -/

section Nearest

variable {m n : Nat}

/-- The distance between the doubles around a natural number. -/
def spacing (n : Nat) : Nat := 2 ^ (n.log2 - 52)

/-- The multiple of the spacing that is nearest to a natural number. -/
def nearestNat (n : Nat) : Nat := divEven n (spacing n) * spacing n

theorem spacing_pos (n : Nat) : 0 < spacing n := Nat.two_pow_pos _

theorem nearestNat_of_dvd (h : spacing n ∣ n) : nearestNat n = n := by
  obtain ⟨k, hk⟩ := h
  rw [Nat.mul_comm] at hk
  rw [nearestNat]
  nth_rewrite 1 [hk]
  rw [divEven_mul k (spacing_pos n), ← hk]

theorem spacing_dvd_two_pow {k : Nat} (h : n.log2 - 52 ≤ k) : spacing n ∣ 2 ^ k :=
  Nat.pow_dvd_pow 2 h

/-- What is rounded stays between the powers of two on both sides. -/
theorem nearestNat_bounds (hn : n ≠ 0) :
    2 ^ n.log2 ≤ nearestNat n ∧ nearestNat n ≤ 2 ^ (n.log2 + 1) := by
  have hpos := spacing_pos n
  obtain ⟨low, hlow⟩ := spacing_dvd_two_pow (n := n) (k := n.log2) (by omega)
  obtain ⟨high, hhigh⟩ := spacing_dvd_two_pow (n := n) (k := n.log2 + 1) (by omega)
  rw [Nat.mul_comm] at hlow hhigh
  constructor
  · have h := divEven_mono (spacing n) (Nat.log2_self_le hn)
    rw [hlow] at h
    rw [divEven_mul low hpos] at h
    exact hlow ▸ Nat.mul_le_mul_right _ h
  · have h := divEven_mono (spacing n) (Nat.lt_log2_self (n := n)).le
    rw [hhigh] at h
    rw [divEven_mul high hpos] at h
    exact hhigh ▸ Nat.mul_le_mul_right _ h

theorem nearestNat_mono (h : m ≤ n) : nearestNat m ≤ nearestNat n := by
  rcases Nat.eq_zero_or_pos m with rfl | hm
  · exact Nat.zero_le _
  have hn : n ≠ 0 := by omega
  have hlog : m.log2 ≤ n.log2 :=
    (Nat.le_log2 hn).2 ((Nat.log2_self_le (Nat.ne_of_gt hm)).trans h)
  rcases hlog.lt_or_eq with hlt | heq
  · calc nearestNat m ≤ 2 ^ (m.log2 + 1) := (nearestNat_bounds (Nat.ne_of_gt hm)).2
      _ ≤ 2 ^ n.log2 := Nat.pow_le_pow_right two_pos hlt
      _ ≤ nearestNat n := (nearestNat_bounds hn).1
  · rw [nearestNat, nearestNat, show spacing m = spacing n by rw [spacing, spacing, heq]]
    exact Nat.mul_le_mul_right _ (divEven_mono _ h)

theorem nearestNat_of_le (h : n ≤ 2 ^ 53) : nearestNat n = n := by
  rcases h.lt_or_eq with hlt | rfl
  · refine nearestNat_of_dvd ?_
    rcases Nat.eq_zero_or_pos n with rfl | hn
    · exact Nat.dvd_zero _
    · have hlog : n.log2 < 53 := (Nat.log2_lt (Nat.ne_of_gt hn)).2 hlt
      rw [spacing, show n.log2 - 52 = 0 by omega]
      exact Nat.one_dvd n
  · exact nearestNat_of_dvd (spacing_dvd_two_pow (by rw [Nat.log2_two_pow]; decide))

theorem nearestNat_near (h : n < 2 ^ 64) :
    nearestNat n ≤ n + 2 ^ 10 ∧ n ≤ nearestNat n + 2 ^ 10 := by
  have hspacing : spacing n ≤ 2 ^ 11 := by
    rcases Nat.eq_zero_or_pos n with rfl | hn
    · decide
    · have hlog : n.log2 < 64 := (Nat.log2_lt (Nat.ne_of_gt hn)).2 h
      exact Nat.pow_le_pow_right two_pos (by omega)
  obtain ⟨habove, hbelow⟩ := divEven_near n (spacing_pos n)
  change 2 * nearestNat n ≤ _ at habove
  change _ ≤ 2 * nearestNat n + _ at hbelow
  omega

end Nearest

/-! ### Doubles of natural numbers -/

section Naturals

variable {n : Nat}

theorem scaled_log2 (n : Nat) :
    scaled n 1 ((n.log2 : Int) - 52) = (n * 2 ^ (52 - n.log2), spacing n) := by
  rw [scaled, spacing]
  split
  · next hsmall =>
    rw [show ((n.log2 : Int) - 52).natAbs = 52 - n.log2 by omega,
      show n.log2 - 52 = 0 by omega, Nat.shiftLeft_eq]
    rfl
  · next hlarge =>
    rw [show ((n.log2 : Int) - 52).natAbs = n.log2 - 52 by omega,
      show 52 - n.log2 = 0 by omega, Nat.shiftLeft_eq, Nat.one_mul, Nat.pow_zero, Nat.mul_one]

/-- The power of two below a natural number, on the scale of its significand. -/
theorem two_pow_log2_mul (n k : Nat) :
    2 ^ (n.log2 + k) * 2 ^ (52 - n.log2) = 2 ^ k * leastNormal * spacing n := by
  rw [spacing, show leastNormal = 2 ^ 52 from rfl, ← Nat.pow_add, ← Nat.pow_add, ← Nat.pow_add,
    show n.log2 + k + (52 - n.log2) = k + 52 + (n.log2 - 52) by omega]

theorem two_pow_log2_self_mul (n : Nat) :
    leastNormal * spacing n = 2 ^ n.log2 * 2 ^ (52 - n.log2) := by
  have hpow := two_pow_log2_mul n 0
  rw [Nat.add_zero, Nat.pow_zero, Nat.one_mul] at hpow
  exact hpow.symm

theorem exponentOf_one (hn : n ≠ 0) : exponentOf n 1 = (n.log2 : Int) - 52 := by
  have hleast : ¬ n * 2 ^ (52 - n.log2) < leastNormal * spacing n := by
    rw [two_pow_log2_self_mul, Nat.not_lt]
    exact Nat.mul_le_mul_right _ (Nat.log2_self_le hn)
  rw [exponentOf, show Nat.log2 1 = 0 from rfl, Nat.cast_zero, sub_zero, scaled_log2,
    if_neg hleast, minExponent]
  omega

/-- The significand of the double of a natural number, unless it has one bit too many. -/
def significandOf (n : Nat) : Nat := divEven (n * 2 ^ (52 - n.log2)) (spacing n)

theorem significandOf_mul (n : Nat) :
    significandOf n * spacing n = nearestNat n * 2 ^ (52 - n.log2) := by
  rw [significandOf]
  rcases Nat.lt_or_ge n.log2 52 with hsmall | hlarge
  · have hspacing : spacing n = 1 := by rw [spacing, show n.log2 - 52 = 0 by omega, Nat.pow_zero]
    rw [nearestNat_of_dvd (hspacing ▸ Nat.one_dvd n), hspacing, Nat.mul_one]
    exact (congrArg (divEven · 1) (Nat.mul_one _).symm).trans (divEven_mul _ one_pos)
  · rw [show 52 - n.log2 = 0 by omega, Nat.pow_zero, Nat.mul_one, Nat.mul_one, nearestNat]

theorem significandOf_bounds (hn : n ≠ 0) :
    leastNormal ≤ significandOf n ∧ significandOf n ≤ 2 * leastNormal := by
  obtain ⟨hbelow, habove⟩ := nearestNat_bounds hn
  constructor
  · refine Nat.le_of_mul_le_mul_right ?_ (spacing_pos n)
    calc leastNormal * spacing n = 2 ^ n.log2 * 2 ^ (52 - n.log2) := two_pow_log2_self_mul n
      _ ≤ nearestNat n * 2 ^ (52 - n.log2) := Nat.mul_le_mul_right _ hbelow
      _ = significandOf n * spacing n := (significandOf_mul n).symm
  · refine Nat.le_of_mul_le_mul_right ?_ (spacing_pos n)
    calc significandOf n * spacing n = nearestNat n * 2 ^ (52 - n.log2) := significandOf_mul n
      _ ≤ 2 ^ (n.log2 + 1) * 2 ^ (52 - n.log2) := Nat.mul_le_mul_right _ habove
      _ = 2 * leastNormal * spacing n := by rw [two_pow_log2_mul, Nat.pow_one]

theorem significandOf_scaled (n : Nat) :
    (significandOf n : ℚ) * 2 ^ ((n.log2 : Int) - 52) = nearestNat n := by
  have hmul : (significandOf n : ℚ) * 2 ^ (n.log2 - 52) = nearestNat n * 2 ^ (52 - n.log2) := by
    exact_mod_cast significandOf_mul n
  have hpow : (2 : ℚ) ^ ((n.log2 : Int) - 52) * 2 ^ (52 - n.log2) = 2 ^ (n.log2 - 52) := by
    rw [← zpow_natCast, ← zpow_natCast, ← zpow_add₀ two_ne_zero]
    congr 1
    omega
  have hpos : (0 : ℚ) < 2 ^ (52 - n.log2) := pow_pos two_pos _
  refine mul_right_cancel₀ hpos.ne' ?_
  rw [mul_assoc, hpow, hmul]

theorem value_of_scaled {d : Double} {size : ℚ} (h : d.significand * 2 ^ d.exponent = size) :
    d.value = if d.negative then -size else size := by
  rw [value, ← h]
  cases d.negative with
  | true => exact neg_mul _ _
  | false => rfl

/-- The double of a natural number of 64 bits, with a sign. -/
theorem exists_ofRatio? (negative : Bool) (hlarge : n < 2 ^ 64) :
    ∃ d, ofRatio? negative n 1 = some d ∧
      d.value = if negative then -(nearestNat n : ℚ) else nearestNat n := by
  by_cases hn : n = 0
  · subst hn
    have hzero :
        ((zero negative).significand : ℚ) * 2 ^ (zero negative).exponent = nearestNat 0 := by
      rw [nearestNat_of_le (Nat.zero_le _)]
      exact (congrArg (· * _) Nat.cast_zero).trans ((zero_mul _).trans Nat.cast_zero.symm)
    exact ⟨zero negative, rfl, value_of_scaled hzero⟩
  · obtain ⟨hbelow, habove⟩ := significandOf_bounds hn
    have hlog : n.log2 < 64 := (Nat.log2_lt hn).2 hlarge
    have hscaled := significandOf_scaled n
    rw [ofRatio?, if_neg hn, exponentOf_one hn]
    dsimp only
    rw [scaled_log2]
    change ∃ d, (if significandOf n = 2 * leastNormal then _ else _) = some d ∧ _
    split
    · next hfull =>
      have hfits : Fits leastNormal ((n.log2 : Int) - 52 + 1) := by
        refine ⟨by decide, ?_, ?_, Or.inl le_rfl⟩
        · rw [minExponent]; omega
        · rw [maxExponent]; omega
      refine ⟨⟨negative, _, _, hfits⟩, dif_pos hfits, value_of_scaled ?_⟩
      rw [← hscaled, hfull, zpow_add_one₀ two_ne_zero]
      push_cast
      ring
    · next hfull =>
      have hfits : Fits (significandOf n) ((n.log2 : Int) - 52) := by
        refine ⟨lt_of_le_of_ne habove hfull, ?_, ?_, Or.inl hbelow⟩
        · rw [minExponent]; omega
        · rw [maxExponent]; omega
      exact ⟨⟨negative, _, _, hfits⟩, dif_pos hfits, value_of_scaled hscaled⟩

end Naturals

/-! ### Doubles of integers -/

section Integers

variable {i x y : Int}

/-- The value of the double nearest to an integer. -/
def nearestInt (i : Int) : Int :=
  if i < 0 then -(nearestNat i.natAbs : Int) else nearestNat i.natAbs

theorem value_ofInt (h : Number.InRange i) : (ofInt i).value = nearestInt i := by
  have hsize : i.natAbs < 2 ^ 64 := by
    obtain ⟨hlow, hhigh⟩ := h
    omega
  obtain ⟨d, hd, hvalue⟩ := exists_ofRatio? (decide (i < 0)) hsize
  rw [ofInt, hd, Option.getD_some, hvalue, nearestInt]
  by_cases hneg : i < 0
  · rw [if_pos hneg, if_pos (decide_eq_true hneg)]
    push_cast
    rfl
  · rw [if_neg hneg, if_neg (by rw [decide_eq_false hneg]; exact Bool.false_ne_true)]
    push_cast
    rfl

theorem nearestInt_mono (h : x ≤ y) : nearestInt x ≤ nearestInt y := by
  rw [nearestInt, nearestInt]
  split
  · split
    · exact neg_le_neg (Nat.cast_le.2 (nearestNat_mono (by omega)))
    · omega
  · rw [if_neg (by omega)]
    exact Nat.cast_le.2 (nearestNat_mono (by omega))

theorem nearestInt_of_le (h : i.natAbs ≤ 2 ^ 53) : nearestInt i = i := by
  rw [nearestInt, nearestNat_of_le h]
  split <;> omega

theorem nearestInt_near (h : Number.InRange i) :
    nearestInt i ≤ i + 2 ^ 10 ∧ i ≤ nearestInt i + 2 ^ 10 := by
  have hsize : i.natAbs < 2 ^ 64 := by
    obtain ⟨hlow, hhigh⟩ := h
    omega
  have hnear := nearestNat_near hsize
  rw [nearestInt]
  split <;> omega

theorem le_ofInt_iff (hx : Number.InRange x) (hy : Number.InRange y) :
    (ofInt x).le (ofInt y) = true ↔ nearestInt x ≤ nearestInt y := by
  rw [le_iff, value_ofInt hx, value_ofInt hy, Int.cast_le]

theorem same_ofInt_iff (hx : Number.InRange x) (hy : Number.InRange y) :
    (ofInt x).same (ofInt y) = true ↔ nearestInt x = nearestInt y := by
  rw [same_iff, value_ofInt hx, value_ofInt hy, Int.cast_inj]

end Integers

end ResourceCatalog.Double
