import Mathlib
import ResourceCatalog.Json.Number
import ResourceCatalog.Number.Literal
import ResourceCatalog.Proofs.Pointer.Tokens

/-!
# Reading decimal numbers

The text of a decimal number, in any of its forms, writes a decimal number of the same value when it
is read. So the text tells the value, whichever digits and exponent stand behind it.
-/

namespace ResourceCatalog

/-- The rational number that a decimal number stands for. -/
def Decimal.value (d : Decimal) : ℚ := d.digits * 10 ^ d.exponent

theorem Decimal.value_trim (steps : Nat) (d : Decimal) : (d.trim steps).value = d.value := by
  induction steps generalizing d with
  | zero => rfl
  | succ steps ih =>
    rw [trim]
    split
    · next h =>
      have hdigits : (d.digits : ℚ) = (d.digits / 10 : ℕ) * (10 : ℕ) := by
        rw [← Nat.cast_mul, Nat.div_mul_cancel (Nat.dvd_of_mod_eq_zero h.2)]
      rw [ih, value, value, hdigits, zpow_add₀ (by norm_num), zpow_one]
      push_cast
      ring
    · rfl

namespace Literal

/-! ### Reading digits -/

theorem number_append_singleton (text : List Char) (c : Char) :
    number (text ++ [c]) = number text * 10 + (c.toNat - 48) := by
  rw [number, List.foldl_append]
  rfl

theorem number_append_zeros (text : List Char) (n : Nat) :
    number (text ++ List.replicate n '0') = number text * 10 ^ n := by
  induction n with
  | zero => rw [List.replicate_zero, List.append_nil, pow_zero, mul_one]
  | succ n ih =>
    rw [List.replicate_succ', ← List.append_assoc, number_append_singleton, ih, pow_succ, mul_assoc]
    rfl

theorem number_zeros_append (n : Nat) (text : List Char) :
    number (List.replicate n '0' ++ text) = number text := by
  induction n with
  | zero => rfl
  | succ n ih =>
    rw [List.replicate_succ, List.cons_append]
    exact ih

theorem number_toDigits (n : Nat) : number (Nat.toDigits 10 n) = n := by
  have hread : Nat.ofDigitChars 10 (Nat.toDigits 10 n) 0 = n := Nat.ofDigitChars_ten_toDigits
  rw [Nat.ofDigitChars_eq_foldl] at hread
  simp only [Nat.mul_comm 10] at hread
  exact hread

theorem isDigit_of_mem_toDigits {n : Nat} {c : Char} (h : c ∈ Nat.toDigits 10 n) :
    c.isDigit = true := Nat.isDigit_of_mem_toDigits (by decide) (by decide) h

/-- What does not go on with a digit. -/
def EndsDigits (rest : List Char) : Prop := ∀ c ∈ rest.head?, c.isDigit = false

theorem digits_append_of {text rest : List Char} (htext : ∀ c ∈ text, c.isDigit = true)
    (hrest : EndsDigits rest) : digits (text ++ rest) = (text, rest) := by
  have hnone : rest.takeWhile Char.isDigit = [] ∧ rest.dropWhile Char.isDigit = rest := by
    cases rest with
    | nil => exact ⟨rfl, rfl⟩
    | cons c rest =>
      have hc : c.isDigit = false := hrest c rfl
      rw [List.takeWhile_cons, List.dropWhile_cons, hc]
      exact ⟨rfl, rfl⟩
  rw [digits, List.takeWhile_append_of_pos htext, List.dropWhile_append_of_pos htext, hnone.1,
    hnone.2, List.append_nil]

theorem mantissa?_whole {text rest : List Char} (htext : ∀ c ∈ text, c.isDigit = true)
    (hsome : text ≠ []) (hrest : EndsDigits rest) (hpoint : rest.head? ≠ some '.') :
    mantissa? (text ++ rest) = some (text, [], rest) := by
  rw [mantissa?, digits_append_of htext hrest]
  cases rest with
  | nil => simp [hsome]
  | cons c rest =>
    have hc : c ≠ '.' := fun h => hpoint (congrArg some h)
    simp [hsome, hc]

theorem mantissa?_point {whole fraction rest : List Char}
    (hwhole : ∀ c ∈ whole, c.isDigit = true) (hsome : whole ≠ [])
    (hfraction : ∀ c ∈ fraction, c.isDigit = true) (hrest : EndsDigits rest) :
    mantissa? (whole ++ '.' :: (fraction ++ rest)) = some (whole, fraction, rest) := by
  have hdot : EndsDigits ('.' :: (fraction ++ rest)) := by
    intro c hc
    obtain rfl := Option.some.inj hc
    decide
  have hparts : digits (fraction ++ rest) = (fraction, rest) := digits_append_of hfraction hrest
  rw [mantissa?, digits_append_of hwhole hdot]
  simp [hsome, hparts]

theorem exponent?_nil : exponent? [] = some 0 := rfl

theorem exponent?_plus (n : Nat) : exponent? ('e' :: '+' :: Nat.toDigits 10 n) = some (n : Int) := by
  have hdigits : (Nat.toDigits 10 n).all Char.isDigit = true :=
    List.all_eq_true.2 fun c hc => isDigit_of_mem_toDigits hc
  simp [exponent?, sign, hdigits, number_toDigits, Nat.toDigits_ne_nil]

theorem exponent?_minus (n : Nat) :
    exponent? ('e' :: '-' :: Nat.toDigits 10 n) = some (-(n : Int)) := by
  have hdigits : (Nat.toDigits 10 n).all Char.isDigit = true :=
    List.all_eq_true.2 fun c hc => isDigit_of_mem_toDigits hc
  simp [exponent?, sign, hdigits, number_toDigits, Nat.toDigits_ne_nil]

theorem toList_toString_negSucc (n : Nat) :
    (toString (Int.negSucc n)).toList = '-' :: Nat.toDigits 10 (n + 1) := by
  change ("-" ++ toString (n + 1)).toList = _
  rw [String.toList_append, Pointer.toList_toString]
  rfl

/-- The exponent with its mark, as documents write it. -/
theorem exponent?_toString (exponent : Int) :
    exponent? ((if 0 ≤ exponent then "e+" else "e").toList ++ (toString exponent).toList) =
      some exponent := by
  cases exponent with
  | ofNat n =>
    rw [if_pos (show 0 ≤ Int.ofNat n from Int.natCast_nonneg n)]
    change exponent? ('e' :: '+' :: (toString n).toList) = _
    rw [Pointer.toList_toString]
    exact exponent?_plus n
  | negSucc n =>
    rw [if_neg (by omega), toList_toString_negSucc]
    exact exponent?_minus (n + 1)

end Literal

namespace Decimal

open Literal

theorem endsDigits_of_eq {c : Char} {rest : List Char} (h : c.isDigit = false) :
    EndsDigits (c :: rest) := by
  intro d hd
  obtain rfl := Option.some.inj hd
  exact h

theorem endsDigits_nil : EndsDigits [] := fun _ h => nomatch h

theorem decimal?_eq {text whole fraction rest : List Char} {exponent : Int}
    (hmantissa : mantissa? text = some (whole, fraction, rest))
    (hexponent : exponent? rest = some exponent) :
    decimal? text = some ⟨number (whole ++ fraction), exponent - fraction.length⟩ := by
  rw [Literal.decimal?, hmantissa]
  change (exponent? rest).bind _ = _
  rw [hexponent]
  rfl

section Forms

variable (n : Nat)

theorem forall_isDigit_toDigits : ∀ c ∈ Nat.toDigits 10 n, c.isDigit = true :=
  fun _ hc => isDigit_of_mem_toDigits hc

theorem forall_isDigit_zeros (k : Nat) : ∀ c ∈ List.replicate k '0', c.isDigit = true := by
  intro c hc
  rw [List.eq_of_mem_replicate hc]
  rfl

/-- A whole number, with zeros for its exponent. -/
theorem decimal?_whole (k : Nat) :
    decimal? (Nat.toDigits 10 n ++ List.replicate k '0' ++ ['.', '0']) =
      some ⟨n * 10 ^ (k + 1), -1⟩ := by
  have hwhole : ∀ c ∈ Nat.toDigits 10 n ++ List.replicate k '0', c.isDigit = true :=
    List.forall_mem_append.2 ⟨forall_isDigit_toDigits n, forall_isDigit_zeros k⟩
  have hmantissa := mantissa?_point hwhole (List.append_ne_nil_of_left_ne_nil Nat.toDigits_ne_nil _)
    (forall_isDigit_zeros 1) endsDigits_nil
  have hread := decimal?_eq hmantissa exponent?_nil
  rw [number_append_zeros, number_append_zeros, number_toDigits, mul_assoc, ← pow_add] at hread
  exact hread

/-- A number with a point between its digits. -/
theorem decimal?_cut {cut : Nat} (hcut : cut ≠ 0) :
    decimal? ((Nat.toDigits 10 n).take cut ++ '.' :: (Nat.toDigits 10 n).drop cut) =
      some ⟨n, -((Nat.toDigits 10 n).length - cut : Nat)⟩ := by
  have hsome : (Nat.toDigits 10 n).take cut ≠ [] := by
    rw [Ne, List.take_eq_nil_iff]
    exact not_or_intro hcut Nat.toDigits_ne_nil
  have hmantissa := mantissa?_point
    (fun c hc => forall_isDigit_toDigits n c (List.mem_of_mem_take hc)) hsome
    (fun c (hc : c ∈ (Nat.toDigits 10 n).drop cut) =>
      forall_isDigit_toDigits n c (List.mem_of_mem_drop hc)) endsDigits_nil
  rw [List.append_nil] at hmantissa
  have hread := decimal?_eq hmantissa exponent?_nil
  rw [List.take_append_drop, number_toDigits, List.length_drop, zero_sub] at hread
  exact hread

/-- A number below one. -/
theorem decimal?_fraction (k : Nat) :
    decimal? ('0' :: '.' :: (List.replicate k '0' ++ Nat.toDigits 10 n)) =
      some ⟨n, -(k + (Nat.toDigits 10 n).length : Nat)⟩ := by
  have hfraction : ∀ c ∈ List.replicate k '0' ++ Nat.toDigits 10 n, c.isDigit = true :=
    List.forall_mem_append.2 ⟨forall_isDigit_zeros k, forall_isDigit_toDigits n⟩
  have hmantissa := mantissa?_point (forall_isDigit_zeros 1) (List.cons_ne_nil '0' []) hfraction
    endsDigits_nil
  rw [List.append_nil] at hmantissa
  have hread := decimal?_eq hmantissa exponent?_nil
  have hnumber : number (List.replicate 1 '0' ++ (List.replicate k '0' ++ Nat.toDigits 10 n)) = n := by
    rw [number_zeros_append, number_zeros_append, number_toDigits]
  rw [hnumber, List.length_append, List.length_replicate, zero_sub] at hread
  exact hread

/-- A number with an exponent behind its digits. -/
theorem decimal?_scientific {c : Char} {rest : List Char} (hdigits : Nat.toDigits 10 n = c :: rest)
    (exponent : Int) :
    decimal? (c :: (if rest = [] then [] else '.' :: rest) ++
      ((if 0 ≤ exponent then "e+" else "e").toList ++ (toString exponent).toList)) =
      some ⟨n, exponent - rest.length⟩ := by
  have hall := hdigits ▸ forall_isDigit_toDigits n
  obtain ⟨hc, hrest⟩ := List.forall_mem_cons.1 hall
  have hends : ∃ tail, (if 0 ≤ exponent then "e+" else "e").toList ++ (toString exponent).toList =
      'e' :: tail := by
    split <;> exact ⟨_, rfl⟩
  have hexponent := exponent?_toString exponent
  obtain ⟨tail, htail⟩ := hends
  rw [htail] at hexponent ⊢
  have hmark : EndsDigits ('e' :: tail) := endsDigits_of_eq rfl
  have hone : ∀ d ∈ [c], d.isDigit = true := List.forall_mem_singleton.2 hc
  have hnumber : number ([c] ++ rest) = n := (congrArg number hdigits.symm).trans (number_toDigits n)
  by_cases hnil : rest = []
  · subst hnil
    have hmantissa := mantissa?_whole hone (List.cons_ne_nil c []) hmark (by simp)
    have hread := decimal?_eq hmantissa hexponent
    rw [hnumber] at hread
    exact hread
  · have hmantissa := mantissa?_point hone (List.cons_ne_nil c []) hrest hmark
    have hread := decimal?_eq hmantissa hexponent
    rw [hnumber] at hread
    rw [if_neg hnil]
    exact hread

end Forms

theorem toList_zeros (n : Nat) : (zeros n).toList = List.replicate n '0' := String.toList_ofList

theorem toList_fraction (digits : List Char) :
    (if String.ofList digits = "" then "" else "." ++ String.ofList digits).toList =
      if digits = [] then [] else '.' :: digits := by
  have hempty : String.ofList digits = "" ↔ digits = [] := by
    rw [← String.toList_inj, String.toList_ofList]
    rfl
  rw [apply_ite String.toList, String.toList_append]
  simp only [hempty, String.toList_ofList]
  rfl

/-- A decimal number without zeros at its end has a text of one of five forms. -/
theorem render_cases (decimal : Decimal) {P : List Char → Prop}
    (hzero : (decimal.trim 20).digits = 0 → P ['0', '.', '0'])
    (hwhole : ∀ k : Nat, (decimal.trim 20).exponent = k →
      P (Nat.toDigits 10 (decimal.trim 20).digits ++ List.replicate k '0' ++ ['.', '0']))
    (hcut : ∀ cut : Nat, cut ≠ 0 →
      -((Nat.toDigits 10 (decimal.trim 20).digits).length - cut : Nat) =
        (decimal.trim 20).exponent →
      P ((Nat.toDigits 10 (decimal.trim 20).digits).take cut ++
        '.' :: (Nat.toDigits 10 (decimal.trim 20).digits).drop cut))
    (hfraction : ∀ k : Nat, -(k + (Nat.toDigits 10 (decimal.trim 20).digits).length : Nat) =
        (decimal.trim 20).exponent →
      P ('0' :: '.' :: (List.replicate k '0' ++ Nat.toDigits 10 (decimal.trim 20).digits)))
    (hscientific : ∀ c rest (exponent : Int),
      Nat.toDigits 10 (decimal.trim 20).digits = c :: rest →
      exponent - rest.length = (decimal.trim 20).exponent →
      P (c :: (if rest = [] then [] else '.' :: rest) ++
        ((if 0 ≤ exponent then "e+" else "e").toList ++ (toString exponent).toList))) :
    P (decimal.render Number.layout).toList := by
  rw [render]
  generalize decimal.trim 20 = d at *
  have hlength : (toString d.digits).length = (Nat.toDigits 10 d.digits).length := by
    rw [← String.length_toList, Pointer.toList_toString]
  obtain ⟨c, rest, hdigits⟩ := List.exists_cons_of_ne_nil
    (Nat.toDigits_ne_nil : Nat.toDigits 10 d.digits ≠ [])
  dsimp only
  by_cases hnone : d.digits = 0
  · rw [if_pos hnone]
    exact hzero hnone
  rw [if_neg hnone, hlength]
  simp only [Number.layout, if_true]
  split
  · split
    · next hnonneg =>
      rw [String.toList_append, String.toList_append, toList_zeros, Pointer.toList_toString]
      exact hwhole d.exponent.natAbs (Int.natAbs_of_nonneg hnonneg).symm
    · split
      · simp only [String.toList_append, String.toList_ofList, Pointer.toList_toString,
          List.append_assoc]
        exact hcut _ (Nat.succ_ne_zero _) (by omega)
      · rw [String.toList_append, String.toList_append, toList_zeros, Pointer.toList_toString,
          List.append_assoc]
        exact hfraction _ (by omega)
  · have hexponent : d.exponent + ((Nat.toDigits 10 d.digits).length : ℤ) - 1 - rest.length =
        d.exponent := by
      rw [hdigits, List.length_cons]
      omega
    rw [String.toList_append, String.toList_append, String.toList_append, String.toList_ofList,
      Pointer.toList_toString, List.append_assoc, hdigits, List.drop_one, List.tail_cons,
      toList_fraction, ← hdigits]
    have hform := hscientific c rest _ hdigits hexponent
    rw [hdigits] at hform ⊢
    exact hform

/-- The text of a decimal number writes a decimal number of the same value. -/
theorem decimal?_render (decimal : Decimal) :
    ∃ d, decimal? (decimal.render Number.layout).toList = some d ∧ d.value = decimal.value := by
  rw [← value_trim 20 decimal]
  refine decimal.render_cases
    (P := fun text => ∃ d, decimal? text = some d ∧ d.value = (decimal.trim 20).value) ?_ ?_ ?_ ?_ ?_
  · intro hnone
    exact ⟨⟨0, -1⟩, rfl, by rw [value, value, hnone, Nat.cast_zero, zero_mul, zero_mul]⟩
  · intro k hk
    refine ⟨_, decimal?_whole _ k, ?_⟩
    rw [value, value, hk, zpow_natCast]
    push_cast
    rw [pow_succ, mul_assoc, mul_assoc, zpow_neg_one, mul_inv_cancel₀ (by norm_num), mul_one]
  · intro cut hcut hexponent
    exact ⟨_, decimal?_cut _ hcut, by rw [value, value, hexponent]⟩
  · intro k hexponent
    exact ⟨_, decimal?_fraction _ k, by rw [value, value, hexponent]⟩
  · intro c rest exponent hdigits hexponent
    exact ⟨_, decimal?_scientific _ hdigits exponent, by rw [value, value, hexponent]⟩

theorem value_eq_of_render_eq {a b : Decimal}
    (h : a.render Number.layout = b.render Number.layout) : a.value = b.value := by
  obtain ⟨d, hread, hvalue⟩ := decimal?_render a
  obtain ⟨e, hread', hvalue'⟩ := decimal?_render b
  rw [h, hread'] at hread
  rw [← hvalue, ← hvalue', Option.some.inj hread]

end Decimal
end ResourceCatalog
