import Mathlib
import ResourceCatalog.Proofs.Number.Rounding
import ResourceCatalog.Proofs.Schema.Faults

/-!
# Bounds of unified schemas

Where two different strings, numbers or arrays have a bound in common, what they unify to has the
bound of one of them. Which one is decided by their doubles, and so it is the wider one unless both
integers have the same double: then it is the first of two lower bounds and the second of two upper
ones. Integers of at most 53 bits have doubles of their own.
-/

namespace ResourceCatalog.Schema

/-- A limit allows what another one allows. -/
def Bound.Covers : Bound → Int → Int → Prop
  | .lower, limit, other => limit ≤ other
  | .upper, limit, other => other ≤ limit

variable {a b unified : Json} {k : Kind} {key : String} {bound : Bound} {x y : Int}

/-! ### The bound that is kept -/

/-- The wider of two integers covers both, unless the second one is less and has the same double. -/
theorem Bound.exists_wider (hx : Number.InRange x) (hy : Number.InRange y) (bound : Bound) :
    ∃ z, bound.wider (.integer x) (.integer y) = .integer z ∧ (z = x ∨ z = y) ∧
      (bound.Covers z x ∧ bound.Covers z y ↔
        ¬ (y < x ∧ (Double.ofInt x).same (Double.ofInt y) = true)) := by
  have hle := Double.le_ofInt_iff hx hy
  rw [Double.same_ofInt_iff hx hy]
  cases hcase : (Number.integer x).toDouble.le (Number.integer y).toDouble with
  | true =>
    have hdoubles := hle.1 hcase
    -- a lesser `y` cannot have the greater double, so its double is the same
    have hwide : ¬ (y < x ∧ Double.nearestInt x = Double.nearestInt y) ↔ x ≤ y := by
      refine ⟨fun h => not_lt.1 fun hlt => ?_, fun h hlt => absurd hlt.1 (not_lt.2 h)⟩
      exact h ⟨hlt, le_antisymm hdoubles (Double.nearestInt_mono hlt.le)⟩
    rw [hwide]
    cases bound with
    | lower => exact ⟨x, by rw [wider.eq_def, hcase], Or.inl rfl, and_iff_right le_rfl⟩
    | upper => exact ⟨y, by rw [wider.eq_def, hcase], Or.inr rfl, and_iff_left le_rfl⟩
  | false =>
    have hdoubles : Double.nearestInt y < Double.nearestInt x := by
      rw [← not_le, ← hle]
      exact fun h => absurd (h.symm.trans hcase) (by decide)
    have hlt : y < x := by
      by_contra hnot
      exact absurd (Double.nearestInt_mono (not_lt.1 hnot)) (not_le.2 hdoubles)
    have hwide : ¬ (y < x ∧ Double.nearestInt x = Double.nearestInt y) :=
      fun h => hdoubles.ne' h.2
    cases bound with
    | lower =>
      exact ⟨y, by rw [wider.eq_def, hcase], Or.inr rfl, iff_of_true ⟨hlt.le, le_rfl⟩ hwide⟩
    | upper =>
      exact ⟨x, by rw [wider.eq_def, hcase], Or.inl rfl, iff_of_true ⟨le_rfl, hlt.le⟩ hwide⟩

/-- Integers with one double are close to each other, and one of them has more than 53 bits. -/
theorem close_of_same (hx : Number.InRange x) (hy : Number.InRange y) (hlt : y < x)
    (h : (Double.ofInt x).same (Double.ofInt y) = true) :
    x - y ≤ 2 ^ 11 ∧ (2 ^ 53 < x.natAbs ∨ 2 ^ 53 < y.natAbs) := by
  have hnearest := (Double.same_ofInt_iff hx hy).1 h
  constructor
  · have hnear := Double.nearestInt_near hx
    have hnear' := Double.nearestInt_near hy
    omega
  · by_contra hsmall
    rw [not_or, not_lt, not_lt] at hsmall
    rw [Double.nearestInt_of_le hsmall.1, Double.nearestInt_of_le hsmall.2] at hnearest
    exact hlt.ne' hnearest

/-! ### Unified schemas -/

theorem get?_widen {out : Members} {p q : Number} (ha : a.member? key = some (.num p))
    (hb : b.member? key = some (.num q)) :
    Keyed.get? key (widen a b key bound out) = some (.num (bound.wider p q)) := by
  rw [widen, ha, hb]
  exact Keyed.get?_insert_self _ _ _

/-- A lower and an upper bound, widened one after the other. -/
theorem get?_bounds_widen {out : Members} {lower upper : String} (hne : lower ≠ upper)
    (hbound : (key, bound) ∈ [(lower, Bound.lower), (upper, Bound.upper)]) {p q : Number}
    (ha : a.member? key = some (.num p)) (hb : b.member? key = some (.num q)) :
    Keyed.get? key (widen a b upper .upper (widen a b lower .lower out)) =
      some (.num (bound.wider p q)) := by
  rcases List.mem_cons.1 hbound with heq | hbound
  · obtain ⟨rfl, rfl⟩ := Prod.mk.inj heq
    rw [get?_widen_of_ne _ _ hne]
    exact get?_widen ha hb
  · obtain ⟨rfl, rfl⟩ := Prod.mk.inj (List.mem_singleton.1 hbound)
    exact get?_widen ha hb

theorem member?_unify_bound (hbound : (key, bound) ∈ k.bounds) (hkind : kind a = k)
    (hkind' : kind b = k) (hne : a.same b = false) {p q : Number}
    (ha : a.member? key = some (.num p)) (hb : b.member? key = some (.num q))
    (h : unify a b = .ok unified) : unified.member? key = some (.num (bound.wider p q)) := by
  rw [unify_eq, unifyWith_of_ne hne, unifyKinds.eq_def, hkind, hkind'] at h
  cases k with
  | string =>
    obtain rfl := Except.ok.inj h
    have hpattern : key ≠ "pattern" := by
      rintro rfl
      exact absurd hbound (by simp [Kind.bounds])
    rw [unifyStrings, Json.member?, get?_joinPatterns_of_ne _ _ hpattern]
    exact get?_bounds_widen (by decide) hbound ha hb
  | number =>
    obtain rfl := Except.ok.inj h
    exact get?_bounds_widen (by decide) hbound ha hb
  | array =>
    have hitems : key ≠ "items" := by
      rintro rfl
      exact absurd hbound (by simp [Kind.bounds])
    rcases unifyArrays_eq_ok h with ⟨_, rfl⟩ | ⟨_, _, _, _, _, _, rfl⟩
    · exact get?_bounds_widen (by decide) hbound ha hb
    · rw [Json.member?, Keyed.get?_insert_of_ne hitems]
      exact get?_bounds_widen (by decide) hbound ha hb
  | _ => exact absurd hbound List.not_mem_nil

/-- Two different strings, numbers or arrays that have an integer for the same bound unify to one
that has one of the two integers for it. It covers both unless the second one is less and has the
same double. Then the two are close to each other, and one of them has more than 53 bits. -/
theorem unify_widens (hbound : (key, bound) ∈ k.bounds) (hkind : kind a = k) (hkind' : kind b = k)
    (hne : a.same b = false) (hx : Number.InRange x) (hy : Number.InRange y)
    (ha : a.member? key = some (.num (.integer x))) (hb : b.member? key = some (.num (.integer y)))
    (h : unify a b = .ok unified) :
    ∃ z, unified.member? key = some (.num (.integer z)) ∧ (z = x ∨ z = y) ∧
      (bound.Covers z x ∧ bound.Covers z y ↔
        ¬ (y < x ∧ (Double.ofInt x).same (Double.ofInt y) = true)) ∧
      (¬ (bound.Covers z x ∧ bound.Covers z y) →
        x - y ≤ 2 ^ 11 ∧ (2 ^ 53 < x.natAbs ∨ 2 ^ 53 < y.natAbs)) := by
  obtain ⟨z, hwider, heither, hcovers⟩ := bound.exists_wider hx hy
  have hmember := member?_unify_bound hbound hkind hkind' hne ha hb h
  rw [hwider] at hmember
  refine ⟨z, hmember, heither, hcovers, fun hnarrow => ?_⟩
  obtain ⟨hlt, hsame⟩ := not_not.1 fun hnot => hnarrow (hcovers.2 hnot)
  exact close_of_same hx hy hlt hsame

/-- The first integer of more than 53 bits that is not even has the double of the one before it. -/
theorem unify_widens_minimum :
    let atLeast (limit : Int) :=
      Json.obj [("minimum", .num (.integer limit)), ("type", .str "number")]
    ∃ unified, unify (atLeast (2 ^ 53 + 1)) (atLeast (2 ^ 53)) = .ok unified ∧
      unified.member? "minimum" = some (.num (.integer (2 ^ 53 + 1))) ∧
        ¬ Bound.lower.Covers (2 ^ 53 + 1) (2 ^ 53) := by
  intro atLeast
  have hnarrow : ¬ Bound.lower.Covers (2 ^ 53 + 1) (2 ^ 53) := by
    rw [Bound.Covers]
    decide
  have hunify : unify (atLeast (2 ^ 53 + 1)) (atLeast (2 ^ 53)) =
      .ok (unifyNumbers (atLeast (2 ^ 53 + 1)) (atLeast (2 ^ 53))) := rfl
  have hbound : ("minimum", Bound.lower) ∈ Kind.number.bounds := by decide
  obtain ⟨z, hmember, rfl | rfl, hcovers, _⟩ := unify_widens hbound rfl rfl rfl (x := 2 ^ 53 + 1)
    (y := 2 ^ 53) (by decide) (by decide) rfl rfl hunify
  · exact ⟨_, hunify, hmember, hnarrow⟩
  · have hboth : Bound.lower.Covers (2 ^ 53) (2 ^ 53 + 1) ∧ Bound.lower.Covers (2 ^ 53) (2 ^ 53) :=
      ⟨Int.le.intro 1 rfl, le_rfl⟩
    exact absurd ⟨by decide, by decide +kernel⟩ (hcovers.1 hboth)

end ResourceCatalog.Schema
