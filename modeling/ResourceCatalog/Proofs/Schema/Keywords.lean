import Mathlib
import ResourceCatalog.Proofs.Json.WellFormed
import ResourceCatalog.Proofs.Schema.Acceptance

/-!
# The keywords of unified schemas

What the rules write under a keyword is at most as strong as what either side has there, and they
write nothing that is nested deeper than the settings of the two sides.
-/

namespace ResourceCatalog.Schema

variable {I : Interpretation} {left right out : Members} {side : Json}

/-! ### Keywords on which both sides agree -/

theorem get?_agreed (hleft : Keyed.Ascending left) (handled : List String) (key : String) :
    Keyed.get? key (agreed (.obj left) (.obj right) handled) =
      if key ∈ handled then none
      else (Keyed.get? key left).filter fun value =>
        (Keyed.get? key right).any fun other => other.same value := by
  rw [agreed, Keyed.get?_filter hleft]
  by_cases hkey : key ∈ handled
  · rw [if_pos hkey]
    cases Keyed.get? key left with
    | none => rfl
    | some value => simp [hkey]
  · rw [if_neg hkey]
    refine congrArg (fun test => (Keyed.get? key left).filter test) (funext fun value => ?_)
    dsimp only
    generalize Keyed.get? key right = found
    cases found with
    | none => exact Bool.and_false _
    | some other => simp [hkey]

theorem get?_agreed_of_mem (hleft : Keyed.Ascending left) {handled : List String} {key : String}
    (hkey : key ∈ handled) : Keyed.get? key (agreed (.obj left) (.obj right) handled) = none := by
  rw [get?_agreed hleft, if_pos hkey]

theorem get?_agreed_of_same (hleft : Keyed.Ascending left) {handled : List String} {key : String}
    (hkey : key ∉ handled) {x y : Json} (hx : Keyed.get? key left = some x)
    (hy : Keyed.get? key right = some y) (hsame : y.same x = true) :
    Keyed.get? key (agreed (.obj left) (.obj right) handled) = some x := by
  rw [get?_agreed hleft, if_neg hkey, hx, hy]
  exact Option.filter_eq_some_iff.2 ⟨rfl, hsame⟩

theorem kept_agreed (hleft : Keyed.Ascending left)
    (hside : side = .obj left ∨ side = .obj right) (handled : List String) (key : String) :
    Kept (.obj (agreed (.obj left) (.obj right) handled)) side key := by
  intro setting hsetting
  change Keyed.get? key (agreed _ _ _) = some setting at hsetting
  rw [get?_agreed hleft] at hsetting
  split at hsetting
  · cases hsetting
  · obtain ⟨hfound, hboth⟩ := Option.filter_eq_some_iff.1 hsetting
    rcases hside with rfl | rfl
    · exact ⟨setting, hfound, Json.same_refl setting⟩
    · exact (Option.any_eq_true _ _).1 hboth

/-- Apart from the handled keywords there are those on which both sides agree. -/
def AgreesOutside (handled : List String) (left right out : Members) : Prop :=
  ∀ key ∉ handled, Keyed.get? key out = Keyed.get? key (agreed (.obj left) (.obj right) [])

/-! ### Keywords that the rules join -/

theorem memberOf_joinValues {value : Json} {xs ys : List Json}
    (h : value.memberOf xs = true ∨ value.memberOf ys = true) :
    value.memberOf (joinValues xs ys) = true := by
  rw [joinValues]
  induction ys generalizing xs with
  | nil =>
    rcases h with h | h
    · exact h
    · cases h
  | cons y ys ih =>
    rw [List.foldl_cons]
    refine ih ?_
    rcases h with h | h
    · refine Or.inl ?_
      split
      · exact h
      · obtain ⟨x, hx, hsame⟩ := Json.memberOf_iff.1 h
        exact Json.memberOf_iff.2 ⟨x, List.mem_append_left _ hx, hsame⟩
    · obtain ⟨z, hz, hsame⟩ := Json.memberOf_iff.1 h
      rcases List.mem_cons.1 hz with rfl | hz
      · refine Or.inl ?_
        split
        · next hmember =>
          obtain ⟨x, hx, hzx⟩ := Json.memberOf_iff.1 hmember
          exact Json.memberOf_iff.2 ⟨x, hx, Json.same_trans hsame hzx⟩
        · exact Json.memberOf_iff.2 ⟨z, List.mem_append_right _ (List.mem_singleton_self z), hsame⟩
      · exact Or.inr (Json.memberOf_iff.2 ⟨z, hz, hsame⟩)

theorem get?_joinEnums_of_ne (a b : Json) {key : String} (h : key ≠ "enum") :
    Keyed.get? key (joinEnums a b out) = Keyed.get? key out := by
  rw [joinEnums.eq_def]
  split
  · exact Keyed.get?_insert_of_ne h _ _
  · rfl

theorem enum_joinEnums {a b : Json} (hside : side = a ∨ side = b)
    (hout : Keyed.get? "enum" out = none) {values : List Json}
    (h : Keyed.get? "enum" (joinEnums a b out) = some (.arr values)) :
    ∃ others, side.member? "enum" = some (.arr others) ∧
      ∀ value : Json, value.memberOf others = true → value.memberOf values = true := by
  rw [joinEnums.eq_def] at h
  split at h
  · next xs ys hxs hys =>
    rw [Keyed.get?_insert_self] at h
    obtain rfl := Json.arr.inj (Option.some.inj h)
    rcases hside with rfl | rfl
    · exact ⟨xs, hxs, fun value hvalue => memberOf_joinValues (Or.inl hvalue)⟩
    · exact ⟨ys, hys, fun value hvalue => memberOf_joinValues (Or.inr hvalue)⟩
  · rw [hout] at h
    cases h

theorem Bound.allows_wider {bound : Bound} {x y : Number} {size : Double}
    (h : bound.allows x.toDouble size = true ∨ bound.allows y.toDouble size = true) :
    bound.allows (bound.wider x y).toDouble size = true := by
  cases hle : x.toDouble.le y.toDouble with
  | true =>
    have hxy := Double.le_iff.1 hle
    cases bound with
    | lower =>
      rw [wider.eq_def, hle]
      rcases h with h | h
      · exact h
      · exact Double.le_iff.2 (hxy.trans (Double.le_iff.1 h))
    | upper =>
      rw [wider.eq_def, hle]
      rcases h with h | h
      · exact Double.le_iff.2 ((Double.le_iff.1 h).trans hxy)
      · exact h
  | false =>
    have hyx : y.toDouble.value ≤ x.toDouble.value := by
      by_contra hlt
      rw [Double.le_iff.2 (le_of_lt (not_le.1 hlt))] at hle
      cases hle
    cases bound with
    | lower =>
      rw [wider.eq_def, hle]
      rcases h with h | h
      · exact Double.le_iff.2 (hyx.trans (Double.le_iff.1 h))
      · exact h
    | upper =>
      rw [wider.eq_def, hle]
      rcases h with h | h
      · exact h
      · exact Double.le_iff.2 ((Double.le_iff.1 h).trans hyx)

theorem get?_widen_of_ne (a b : Json) {key other : String} (h : other ≠ key) (bound : Bound) :
    Keyed.get? other (widen a b key bound out) = Keyed.get? other out := by
  rw [widen.eq_def]
  split
  · exact Keyed.get?_insert_of_ne h _ _
  · rfl

theorem bound_widen {a b : Json} (hside : side = a ∨ side = b) {key : String} {bound : Bound}
    (hout : Keyed.get? key out = none) {limit : Number}
    (h : Keyed.get? key (widen a b key bound out) = some (.num limit)) :
    ∃ other, side.member? key = some (.num other) ∧ ∀ size : Double,
      bound.allows other.toDouble size = true → bound.allows limit.toDouble size = true := by
  rw [widen.eq_def] at h
  split at h
  · next x y hx hy =>
    rw [Keyed.get?_insert_self] at h
    obtain rfl := Json.num.inj (Option.some.inj h)
    rcases hside with rfl | rfl
    · exact ⟨x, hx, fun size hsize => Bound.allows_wider (Or.inl hsize)⟩
    · exact ⟨y, hy, fun size hsize => Bound.allows_wider (Or.inr hsize)⟩
  · rw [hout] at h
    cases h

/-- A lower and an upper bound, widened one after the other. -/
theorem bounds_widen {a b : Json} (hside : side = a ∨ side = b) {lower upper : String}
    (hne : lower ≠ upper) (hlower : Keyed.get? lower out = none)
    (hupper : Keyed.get? upper out = none) {key : String} {bound : Bound}
    (hbound : (key, bound) ∈ [(lower, Bound.lower), (upper, Bound.upper)]) {limit : Number}
    (h : Keyed.get? key (widen a b upper .upper (widen a b lower .lower out)) = some (.num limit)) :
    ∃ other, side.member? key = some (.num other) ∧ ∀ size : Double,
      bound.allows other.toDouble size = true → bound.allows limit.toDouble size = true := by
  rcases List.mem_cons.1 hbound with heq | hbound
  · obtain ⟨rfl, rfl⟩ := Prod.mk.inj heq
    rw [get?_widen_of_ne _ _ hne] at h
    exact bound_widen hside hlower h
  · obtain ⟨rfl, rfl⟩ := Prod.mk.inj (List.mem_singleton.1 hbound)
    refine bound_widen hside ?_ h
    rw [get?_widen_of_ne _ _ (Ne.symm hne)]
    exact hupper

theorem fits_alternatives {x y text : String} (h : I.fits x text ∨ I.fits y text) :
    I.fits (alternatives x y) text := by
  rw [alternatives]
  split
  · next heq =>
    subst heq
    exact h.elim id id
  · exact I.fits_alternatives.2 h

theorem get?_joinPatterns_of_ne (a b : Json) {key : String} (h : key ≠ "pattern") :
    Keyed.get? key (joinPatterns a b out) = Keyed.get? key out := by
  rw [joinPatterns.eq_def]
  split
  · exact Keyed.get?_insert_of_ne h _ _
  · rfl

theorem pattern_joinPatterns {a b : Json} (hside : side = a ∨ side = b)
    (hout : Keyed.get? "pattern" out = none) {pattern : String}
    (h : Keyed.get? "pattern" (joinPatterns a b out) = some (.str pattern)) :
    ∃ other, side.member? "pattern" = some (.str other) ∧
      ∀ text, I.fits other text → I.fits pattern text := by
  rw [joinPatterns.eq_def] at h
  split at h
  · next x y hx hy =>
    rw [Keyed.get?_insert_self] at h
    obtain rfl := Json.str.inj (Option.some.inj h)
    rcases hside with rfl | rfl
    · exact ⟨x, hx, fun text htext => fits_alternatives (Or.inl htext)⟩
    · exact ⟨y, hy, fun text htext => fits_alternatives (Or.inr htext)⟩
  · rw [hout] at h
    cases h

/-! ### Keywords that are not handled -/

section AgreesOutside

variable {handled : List String} {key : String}

theorem agreesOutside_agreed (hleft : Keyed.Ascending left) {keys : List String}
    (hkeys : ∀ key ∈ keys, key ∈ handled) :
    AgreesOutside handled left right (agreed (.obj left) (.obj right) keys) := by
  intro key hkey
  rw [get?_agreed hleft, get?_agreed hleft, if_neg fun hmem => hkey (hkeys key hmem),
    if_neg List.not_mem_nil]

theorem AgreesOutside.insert (h : AgreesOutside handled left right out) (hkey : key ∈ handled)
    (setting : Json) : AgreesOutside handled left right (Keyed.insert key setting out) := by
  intro other hother
  have hne : other ≠ key := fun heq => hother (heq ▸ hkey)
  rw [Keyed.get?_insert_of_ne hne, h other hother]

theorem AgreesOutside.joinEnums (h : AgreesOutside handled left right out)
    (hkey : "enum" ∈ handled) (a b : Json) :
    AgreesOutside handled left right (joinEnums a b out) := by
  rw [Schema.joinEnums.eq_def]
  split
  · exact h.insert hkey _
  · exact h

theorem AgreesOutside.widen (h : AgreesOutside handled left right out) (hkey : key ∈ handled)
    (a b : Json) (bound : Bound) : AgreesOutside handled left right (widen a b key bound out) := by
  rw [Schema.widen.eq_def]
  split
  · exact h.insert hkey _
  · exact h

theorem AgreesOutside.joinPatterns (h : AgreesOutside handled left right out)
    (hkey : "pattern" ∈ handled) (a b : Json) :
    AgreesOutside handled left right (joinPatterns a b out) := by
  rw [Schema.joinPatterns.eq_def]
  split
  · exact h.insert hkey _
  · exact h

theorem AgreesOutside.kept (h : AgreesOutside handled left right out)
    (hleft : Keyed.Ascending left) (hside : side = .obj left ∨ side = .obj right)
    (hkey : key ∉ handled) : Kept (.obj out) side key := by
  intro setting hsetting
  have hagreed : Keyed.get? key (agreed (.obj left) (.obj right) []) = some setting :=
    (h key hkey).symm.trans hsetting
  exact kept_agreed hleft hside [] key setting hagreed

end AgreesOutside

/-! ### Nesting -/

/-- Keywords in their order whose settings are well formed and nested less deeply than a bound. -/
structure Fits (bound : Nat) (members : Members) : Prop where
  ascending : Keyed.Ascending members
  wellFormed : ∀ entry ∈ members, entry.2.WellFormed
  depth_lt : ∀ entry ∈ members, entry.2.depth < bound

theorem depthItems_le {bound : Nat} {items : List Json} :
    Json.depthItems items ≤ bound ↔ ∀ item ∈ items, item.depth < bound := by
  induction items with
  | nil => exact iff_of_true (Nat.zero_le _) fun _ h => absurd h List.not_mem_nil
  | cons item rest ih => rw [Json.depthItems, max_le_iff, ih, List.forall_mem_cons, Nat.succ_le_iff]

theorem depthMembers_le {bound : Nat} {members : Members} :
    Json.depthMembers members ≤ bound ↔ ∀ entry ∈ members, entry.2.depth < bound := by
  induction members with
  | nil => exact iff_of_true (Nat.zero_le _) fun _ h => absurd h List.not_mem_nil
  | cons entry rest ih =>
    rw [Json.depthMembers, max_le_iff, ih, List.forall_mem_cons, Nat.succ_le_iff]

theorem fits_iff {bound : Nat} {members : Members} :
    Fits bound members ↔ (Json.obj members).WellFormed ∧ (Json.obj members).depth ≤ bound := by
  rw [Json.wellFormed_obj, Json.depth, depthMembers_le]
  exact ⟨fun h => ⟨⟨h.ascending, h.wellFormed⟩, h.depth_lt⟩, fun h => ⟨h.1.1, h.1.2, h.2⟩⟩

section Fits

variable {bound : Nat} {a b : Json}

theorem Fits.get? (h : Fits bound out) {key : String} {setting : Json}
    (hsetting : Keyed.get? key out = some setting) :
    setting.WellFormed ∧ setting.depth < bound :=
  have hmem := Keyed.mem_of_get? hsetting
  ⟨h.wellFormed _ hmem, h.depth_lt _ hmem⟩

theorem Fits.pos (h : Fits bound out) (hne : out ≠ []) : 0 < bound := by
  obtain ⟨entry, hentry⟩ := List.exists_mem_of_ne_nil _ hne
  exact Nat.zero_lt_of_lt (h.depth_lt entry hentry)

theorem Fits.filter (h : Fits bound out) (test : String × Json → Bool) :
    Fits bound (out.filter test) where
  ascending := h.ascending.sublist List.filter_sublist
  wellFormed entry hentry := h.wellFormed entry (List.mem_filter.1 hentry).1
  depth_lt entry hentry := h.depth_lt entry (List.mem_filter.1 hentry).1

theorem Fits.insert (h : Fits bound out) {key : String} {setting : Json}
    (hformed : setting.WellFormed) (hdepth : setting.depth < bound) :
    Fits bound (Keyed.insert key setting out) where
  ascending := Keyed.ascending_insert h.ascending _ _
  wellFormed := by
    intro entry hentry
    rcases Keyed.mem_insert hentry with rfl | hentry
    · exact hformed
    · exact h.wellFormed entry hentry
  depth_lt := by
    intro entry hentry
    rcases Keyed.mem_insert hentry with rfl | hentry
    · exact hdepth
    · exact h.depth_lt entry hentry

theorem fits_agreed (h : Fits bound left) (handled : List String) :
    Fits bound (agreed (.obj left) (.obj right) handled) := h.filter _

theorem mem_joinValues {xs ys : List Json} {value : Json} (h : value ∈ joinValues xs ys) :
    value ∈ xs ∨ value ∈ ys := by
  rw [joinValues] at h
  induction ys generalizing xs with
  | nil => exact Or.inl h
  | cons y ys ih =>
    rw [List.foldl_cons] at h
    rcases ih h with hxs | hys
    · split at hxs
      · exact Or.inl hxs
      · rcases List.mem_append.1 hxs with hxs | hy
        · exact Or.inl hxs
        · exact Or.inr (List.mem_singleton.1 hy ▸ List.mem_cons_self)
    · exact Or.inr (List.mem_cons_of_mem _ hys)

theorem Fits.joinEnums (h : Fits bound out) (hleft : Fits bound left) (hright : Fits bound right) :
    Fits bound (joinEnums (.obj left) (.obj right) out) := by
  rw [Schema.joinEnums.eq_def]
  split
  · next xs ys hxs hys =>
    obtain ⟨hxsFormed, hxsDepth⟩ := hleft.get? hxs
    obtain ⟨hysFormed, hysDepth⟩ := hright.get? hys
    refine h.insert (Json.wellFormed_arr.2 fun value hvalue => ?_) ?_
    · rcases mem_joinValues hvalue with hvalue | hvalue
      · exact Json.wellFormed_arr.1 hxsFormed value hvalue
      · exact Json.wellFormed_arr.1 hysFormed value hvalue
    · have hxsItems := depthItems_le.1 (le_refl (Json.depthItems xs))
      have hysItems := depthItems_le.1 (le_refl (Json.depthItems ys))
      have hjoined : Json.depthItems (joinValues xs ys) ≤
          max (Json.depthItems xs) (Json.depthItems ys) := by
        refine depthItems_le.2 fun value hvalue => ?_
        rcases mem_joinValues hvalue with hvalue | hvalue
        · exact lt_max_of_lt_left (hxsItems value hvalue)
        · exact lt_max_of_lt_right (hysItems value hvalue)
      exact lt_of_le_of_lt hjoined (max_lt hxsDepth hysDepth)
  · exact h

theorem Fits.widen (h : Fits bound out) (hleft : Fits bound left) (key : String) (kind : Bound) :
    Fits bound (widen (.obj left) (.obj right) key kind out) := by
  rw [Schema.widen.eq_def]
  split
  · next x y hx hy => exact h.insert trivial (Nat.zero_lt_of_lt (hleft.get? hx).2)
  · exact h

theorem Fits.joinPatterns (h : Fits bound out) (hleft : Fits bound left) :
    Fits bound (joinPatterns (.obj left) (.obj right) out) := by
  rw [Schema.joinPatterns.eq_def]
  split
  · next x y hx hy => exact h.insert trivial (Nat.zero_lt_of_lt (hleft.get? hx).2)
  · exact h

end Fits

end ResourceCatalog.Schema
