import Mathlib
import ResourceCatalog.Proofs.Schema.Unification

/-!
# Unification from either side

Two schemas unify in one order if they do in the other, and then to schemas that are alike: they have
the same keywords, and differ at most in the order of names, of alternatives and in the choice between
equal bounds, at any depth.

This fails for maps with several schemas for their values. These are unified from the left, so the
order decides what meets first, and a schema that accepts everything only helps where it comes early.
It holds for all schemas whose unification never comes to such maps: where two maps meet, the schemas
of their values are in the same order from either side, or there is one on each.
-/

namespace ResourceCatalog.Schema

/-! ### Schemas that are alike -/

/-- The keywords of bounds. -/
def boundKeys : List String :=
  ["minLength", "maxLength", "minimum", "maximum", "minItems", "maxItems"]

mutual

/-- Schemas with the same keywords and like settings. -/
inductive Alike : Json → Json → Prop
  | same {a b : Json} (h : a.same b = true) : Alike a b
  | obj {xs ys : Members} (hkeys : ∀ key, Keyed.contains xs key = Keyed.contains ys key)
      (hsettings : ∀ key x y, Keyed.get? key xs = some x → Keyed.get? key ys = some y →
        AlikeSetting key x y) : Alike (.obj xs) (.obj ys)

/-- Settings of a keyword that differ in nothing that two orders of unification may change. -/
inductive AlikeSetting : String → Json → Json → Prop
  | same {key : String} {x y : Json} (h : x.same y = true) : AlikeSetting key x y
  /-- Names in any order, as a set. -/
  | names {key : String} {us vs : List Json} (hkey : key ∈ ["enum", "required"])
      (h : ∀ value : Json, value.memberOf us = true ↔ value.memberOf vs = true) :
      AlikeSetting key (.arr us) (.arr vs)
  | pattern (x y : String) :
      AlikeSetting "pattern" (.str (alternatives x y)) (.str (alternatives y x))
  /-- Bounds that are equal as doubles. -/
  | bound {key : String} {m n : Number} (hkey : key ∈ boundKeys)
      (h : m.toDouble.same n.toDouble = true) : AlikeSetting key (.num m) (.num n)
  | part {key : String} {x y : Json} (hkey : key ∈ ["items", "additionalProperties"])
      (h : Alike x y) : AlikeSetting key x y
  | properties {xs ys : Members} (hnames : ∀ name, Keyed.contains xs name = Keyed.contains ys name)
      (h : ∀ name x y, Keyed.get? name xs = some x → Keyed.get? name ys = some y → Alike x y) :
      AlikeSetting "properties" (.obj xs) (.obj ys)

end

/-- The parts of two schemas that are unified with each other when these are. -/
inductive Meets : Json → Json → Json → Json → Prop
  | here (a b : Json) : Meets a b a b
  | items {a b x y c d : Json} (hne : a.same b = false) (ha : kind a = .array)
      (hb : kind b = .array) (hx : a.member? "items" = some x) (hy : b.member? "items" = some y)
      (h : Meets x y c d) : Meets a b c d
  | property {a b x y c d : Json} {name : String} (hne : a.same b = false) (ha : kind a = .record)
      (hb : kind b = .record) (hx : Keyed.get? name (properties a) = some x)
      (hy : Keyed.get? name (properties b) = some y) (h : Meets x y c d) : Meets a b c d
  | value {a b x y c d : Json} (hne : a.same b = false) (ha : kind a = .map) (hb : kind b = .map)
      (hx : mapValues a = [x]) (hy : mapValues b = [y]) (h : Meets x y c d) : Meets a b c d

/-- The schemas for the values of two maps come in the same order from either side, or there is one
on each. -/
def Unmixed (a b : Json) : Prop :=
  mapValues a ++ mapValues b = mapValues b ++ mapValues a ∨
    ∃ x y, mapValues a = [x] ∧ mapValues b = [y]

/-- Wherever the unification of two schemas comes to two maps, the schemas of their values do not
mix. -/
def NeverMixed (a b : Json) : Prop :=
  ∀ {c d}, Meets a b c d → c.same d = false → kind c = .map → kind d = .map → Unmixed c d

theorem same_comm (a b : Json) : a.same b = b.same a :=
  Bool.eq_iff_iff.2 ⟨Json.same_symm, Json.same_symm⟩

theorem Meets.symm {a b c d : Json} (h : Meets a b c d) : Meets b a d c := by
  induction h with
  | here a b => exact .here b a
  | items hne ha hb hx hy _ ih => exact .items (same_comm _ _ ▸ hne) hb ha hy hx ih
  | property hne ha hb hx hy _ ih => exact .property (same_comm _ _ ▸ hne) hb ha hy hx ih
  | value hne ha hb hx hy _ ih => exact .value (same_comm _ _ ▸ hne) hb ha hy hx ih

theorem NeverMixed.symm {a b : Json} (h : NeverMixed a b) : NeverMixed b a := by
  intro c d hmeets hne hc hd
  rcases h hmeets.symm (same_comm d c ▸ hne) hd hc with hcommute | ⟨x, y, hx, hy⟩
  · exact Or.inl hcommute.symm
  · exact Or.inr ⟨y, x, hy, hx⟩

variable {left right out out' : Members} {depth : Nat} {a b : Json}
  {inner : Json → Json → Except UnifyError Json}

/-! ### Keywords from either side -/

/-- Members with the same keys and like settings. -/
def AlikeMembers (xs ys : Members) : Prop :=
  ∀ key, Option.Rel (AlikeSetting key) (Keyed.get? key xs) (Keyed.get? key ys)

theorem contains_of_rel {R : Json → Json → Prop} {key : String}
    (h : Option.Rel R (Keyed.get? key out) (Keyed.get? key out')) :
    Keyed.contains out key = Keyed.contains out' key := by
  rw [Keyed.contains, Keyed.contains]
  generalize Keyed.get? key out = x, Keyed.get? key out' = y at h
  cases h with
  | none => rfl
  | some _ => rfl

theorem AlikeMembers.alike (h : AlikeMembers out out') : Alike (.obj out) (.obj out') := by
  refine .obj (fun key => contains_of_rel (h key)) fun key x y hx hy => ?_
  have hkey := h key
  rw [hx, hy] at hkey
  cases hkey with
  | some hxy => exact hxy

theorem AlikeMembers.insert (h : AlikeMembers out out') {key : String} {x y : Json}
    (hxy : AlikeSetting key x y) :
    AlikeMembers (Keyed.insert key x out) (Keyed.insert key y out') := by
  intro other
  by_cases hother : other = key
  · rw [hother, Keyed.get?_insert_self, Keyed.get?_insert_self]
    exact .some hxy
  · rw [Keyed.get?_insert_of_ne hother, Keyed.get?_insert_of_ne hother]
    exact h other

theorem agreed_comm (hleft : Keyed.Ascending left) (hright : Keyed.Ascending right)
    (handled : List String) :
    AlikeMembers (agreed (.obj left) (.obj right) handled)
      (agreed (.obj right) (.obj left) handled) := by
  intro key
  rw [get?_agreed hleft, get?_agreed hright]
  split
  · exact .none
  · cases hx : Keyed.get? key left with
    | none =>
      cases hy : Keyed.get? key right with
      | none => exact .none
      | some y => exact .none
    | some x =>
      cases hy : Keyed.get? key right with
      | none => exact .none
      | some y =>
        simp only [Option.filter_some, Option.any_some]
        rw [same_comm x y]
        cases hsame : y.same x with
        | true => exact .some (.same (Json.same_symm hsame))
        | false => exact .none

theorem memberOf_joinValues_iff {value : Json} {xs ys : List Json} :
    value.memberOf (joinValues xs ys) = true ↔
      value.memberOf xs = true ∨ value.memberOf ys = true := by
  refine ⟨fun h => ?_, memberOf_joinValues⟩
  obtain ⟨item, hitem, hsame⟩ := Json.memberOf_iff.1 h
  exact (mem_joinValues hitem).imp (fun hxs => Json.memberOf_iff.2 ⟨item, hxs, hsame⟩)
    fun hys => Json.memberOf_iff.2 ⟨item, hys, hsame⟩

theorem AlikeMembers.joinEnums (h : AlikeMembers out out') (a b : Json) :
    AlikeMembers (joinEnums a b out) (joinEnums b a out') := by
  rw [joinEnums.eq_def, joinEnums.eq_def]
  split
  · next xs ys hxs hys =>
    rw [hxs, hys]
    refine h.insert (.names (by decide) fun value => ?_)
    rw [memberOf_joinValues_iff, memberOf_joinValues_iff, or_comm]
  · next hneither =>
    split
    · next ys xs hys hxs => exact absurd hys (hneither xs ys hxs)
    · exact h

theorem Bound.wider_comm (bound : Bound) (x y : Number) :
    (bound.wider x y).toDouble.same (bound.wider y x).toDouble = true := by
  rw [Double.same_iff]
  have hle : ∀ {x y : Number}, x.toDouble.le y.toDouble = false →
      y.toDouble.value < x.toDouble.value := fun h =>
    lt_of_not_ge fun hge => Bool.false_ne_true (h.symm.trans (Double.le_iff.2 hge))
  cases hxy : x.toDouble.le y.toDouble with
  | true =>
    cases hyx : y.toDouble.le x.toDouble with
    | true =>
      have hvalue := le_antisymm (Double.le_iff.1 hxy) (Double.le_iff.1 hyx)
      cases bound with
      | lower => simpa only [wider, hxy, hyx] using hvalue
      | upper => simpa only [wider, hxy, hyx] using hvalue.symm
    | false => cases bound <;> simp only [wider, hxy, hyx]
  | false =>
    have hyx := Double.le_iff.2 (le_of_lt (hle hxy))
    cases bound <;> simp only [wider, hxy, hyx]

theorem AlikeMembers.widen (h : AlikeMembers out out') {key : String} (hkey : key ∈ boundKeys)
    (a b : Json) (bound : Bound) :
    AlikeMembers (widen a b key bound out) (widen b a key bound out') := by
  rw [widen.eq_def, widen.eq_def]
  split
  · next x y hx hy =>
    rw [hx, hy]
    exact h.insert (.bound hkey (bound.wider_comm x y))
  · next hneither =>
    split
    · next y x hy hx => exact absurd hy (hneither x y hx)
    · exact h

theorem AlikeMembers.joinPatterns (h : AlikeMembers out out') (a b : Json) :
    AlikeMembers (joinPatterns a b out) (joinPatterns b a out') := by
  rw [joinPatterns.eq_def, joinPatterns.eq_def]
  split
  · next x y hx hy =>
    rw [hx, hy]
    exact h.insert (.pattern x y)
  · next hneither =>
    split
    · next y x hy hx => exact absurd hy (hneither x y hx)
    · exact h

/-! ### Schemas of one type -/

section Rules

variable (hleft : Keyed.Ascending left) (hright : Keyed.Ascending right)

include hleft hright

theorem unifyStrings_comm : Alike (unifyStrings (.obj left) (.obj right))
    (unifyStrings (.obj right) (.obj left)) := by
  have henums := (agreed_comm hleft hright ["enum", "minLength", "maxLength", "pattern"]).joinEnums
    (.obj left) (.obj right)
  have hlower : "minLength" ∈ boundKeys := by decide
  have hupper : "maxLength" ∈ boundKeys := by decide
  have hbounds := (henums.widen hlower (.obj left) (.obj right) .lower).widen hupper
    (.obj left) (.obj right) .upper
  exact (hbounds.joinPatterns _ _).alike

theorem unifyNumbers_comm : Alike (unifyNumbers (.obj left) (.obj right))
    (unifyNumbers (.obj right) (.obj left)) := by
  rw [unifyNumbers, unifyNumbers, Bool.and_comm]
  generalize (if isInteger (.obj right) && isInteger (.obj left) then "integer" else "number") = type
  have htype : AlikeSetting "type" (.str type) (.str type) := .same (Json.same_refl _)
  have henums := ((agreed_comm hleft hright ["type", "enum", "minimum", "maximum"]).insert
    htype).joinEnums (.obj left) (.obj right)
  exact ((henums.widen (by decide) _ _ .lower).widen (by decide) _ _ .upper).alike

theorem unifyOpenObjects_comm : Alike (unifyOpenObjects (.obj left) (.obj right))
    (unifyOpenObjects (.obj right) (.obj left)) :=
  ((agreed_comm hleft hright _).insert (.same (Json.same_refl _))).alike

end Rules

/-! ### Schemas with parts -/

/-- Two schemas that unify in one order also do in the other, and then to like schemas. -/
def Commutes (inner : Json → Json → Except UnifyError Json) (x y : Json) : Prop :=
  ∀ z, inner x y = .ok z → ∃ w, inner y x = .ok w ∧ Alike z w

theorem unifyArrays_comm (hleft : Keyed.Ascending left) (hright : Keyed.Ascending right)
    (hparts : ∀ {x y}, Keyed.get? "items" left = some x → Keyed.get? "items" right = some y →
      Commutes inner x y) {unified : Json}
    (h : unifyArrays inner (.obj left) (.obj right) = .ok unified) :
    ∃ other, unifyArrays inner (.obj right) (.obj left) = .ok other ∧ Alike unified other := by
  have hbounds : AlikeMembers (arrayBounds left right) (arrayBounds right left) :=
    ((agreed_comm hleft hright _).widen (by decide) _ _ .lower).widen (by decide) _ _ .upper
  rw [unifyArrays.eq_def] at h ⊢
  dsimp only at h ⊢
  split at h
  · next x y hx hy =>
    rw [hx, hy]
    dsimp only
    split at h
    · next z hz =>
      obtain ⟨w, hw, halike⟩ := hparts hx hy z hz
      rw [hw]
      obtain rfl := Except.ok.inj h
      exact ⟨_, rfl, (hbounds.insert (.part (by decide) halike)).alike⟩
    · cases h
  · next hneither =>
    obtain rfl := Except.ok.inj h
    split
    · next y x hy hx => exact absurd hy (hneither x y hx)
    · exact ⟨_, rfl, hbounds.alike⟩

/-- Shared properties are unified if each of them can be. -/
theorem exists_unifyShared {others : Members}
    (h : ∀ entry ∈ left, ∀ other, Keyed.get? entry.1 others = some other →
      ∃ z, inner entry.2 other = .ok z) :
    ∃ merged, unifyShared inner others left = .ok merged := by
  induction left with
  | nil => exact ⟨[], rfl⟩
  | cons entry rest ih =>
    obtain ⟨name, schema⟩ := entry
    obtain ⟨hentry, hrest⟩ := List.forall_mem_cons.1 h
    obtain ⟨merged, hmerged⟩ := ih hrest
    rw [unifyShared, hmerged]
    cases hother : Keyed.get? name others with
    | none => exact ⟨_, rfl⟩
    | some other =>
      obtain ⟨z, hz⟩ := hentry other hother
      dsimp only
      rw [hz]
      exact ⟨_, rfl⟩

/-- The properties of one name are alike from either side. -/
theorem rel_unifiedProperties {others merged merged' : Members}
    (hparts : ∀ {name x y}, Keyed.get? name left = some x → Keyed.get? name others = some y →
      Commutes inner x y)
    (h : unifyShared inner others left = .ok merged)
    (h' : unifyShared inner left others = .ok merged') (name : String) :
    Option.Rel Alike (Keyed.get? name (addMissing merged others))
      (Keyed.get? name (addMissing merged' left)) := by
  have hname := get?_unifyShared h name
  have hname' := get?_unifyShared h' name
  cases hx : Keyed.get? name left with
  | none =>
    cases hy : Keyed.get? name others with
    | none =>
      rw [hx, hy] at hname hname'
      rw [hname, hname']
      exact .none
    | some y =>
      rw [hx, hy] at hname hname'
      rw [hname, hname']
      exact .some (.same (Json.same_refl y))
  | some x =>
    cases hy : Keyed.get? name others with
    | none =>
      rw [hx, hy] at hname hname'
      rw [hname, hname']
      exact .some (.same (Json.same_refl x))
    | some y =>
      rw [hx, hy] at hname hname'
      obtain ⟨z, hz, hget⟩ := hname
      obtain ⟨w, hw, hget'⟩ := hname'
      obtain ⟨w', hw', halike⟩ := hparts hx hy z hz
      obtain rfl := Except.ok.inj (hw.symm.trans hw')
      rw [hget, hget']
      exact .some halike

theorem unifyShared_comm {others merged : Members} (hothers : Keyed.Ascending others)
    (hparts : ∀ {name x y}, Keyed.get? name left = some x → Keyed.get? name others = some y →
      Commutes inner x y)
    (h : unifyShared inner others left = .ok merged) :
    ∃ merged', unifyShared inner left others = .ok merged' ∧
      AlikeSetting "properties" (.obj (addMissing merged others)) (.obj (addMissing merged' left)) := by
  obtain ⟨merged', h'⟩ : ∃ merged', unifyShared inner left others = .ok merged' := by
    refine exists_unifyShared fun entry hentry x hx => ?_
    have hy := hothers.get?_of_mem hentry
    have hname := get?_unifyShared h entry.1
    rw [hx, hy] at hname
    obtain ⟨z, hz, _⟩ := hname
    obtain ⟨w, hw, _⟩ := hparts hx hy z hz
    exact ⟨w, hw⟩
  have hall := rel_unifiedProperties hparts h h'
  refine ⟨merged', h', .properties (fun name => contains_of_rel (hall name)) fun name x y hx hy => ?_⟩
  have hname := hall name
  rw [hx, hy] at hname
  cases hname with
  | some halike => exact halike

theorem memberOf_strings {value : Json} {names : List String} :
    value.memberOf (names.map Json.str) = true ↔ ∃ name ∈ names, value = .str name := by
  rw [Json.memberOf_iff]
  constructor
  · rintro ⟨item, hitem, hsame⟩
    obtain ⟨name, hname, rfl⟩ := List.mem_map.1 hitem
    exact ⟨name, hname, Json.same_str_iff.1 (Json.same_symm hsame)⟩
  · rintro ⟨name, hname, rfl⟩
    exact ⟨_, List.mem_map_of_mem hname, Json.same_refl _⟩

/-- The names that both of two records require, from either side. -/
theorem AlikeMembers.withRequired (h : AlikeMembers out out') (names others : List String) :
    AlikeMembers (withRequired (names.filter others.contains) out)
      (withRequired (others.filter names.contains) out') := by
  have hmem : ∀ name, name ∈ names.filter others.contains ↔ name ∈ others.filter names.contains := by
    intro name
    rw [List.mem_filter, List.mem_filter, List.contains_iff_mem, List.contains_iff_mem, and_comm]
  have hempty : (names.filter others.contains).isEmpty = (others.filter names.contains).isEmpty := by
    rw [Bool.eq_iff_iff, List.isEmpty_iff, List.isEmpty_iff, List.eq_nil_iff_forall_not_mem,
      List.eq_nil_iff_forall_not_mem]
    simp only [hmem]
  rw [Schema.withRequired, Schema.withRequired, hempty]
  split
  · exact h
  · refine h.insert (.names (by decide) fun value => ?_)
    rw [memberOf_strings, memberOf_strings]
    simp only [hmem]

theorem unifyRecords_comm (hleft : Keyed.Ascending left) (hright : Keyed.Ascending right)
    (hproperties : Keyed.Ascending (properties (.obj right)))
    (hparts : ∀ {name x y}, Keyed.get? name (properties (.obj left)) = some x →
      Keyed.get? name (properties (.obj right)) = some y → Commutes inner x y) {unified : Json}
    (h : unifyRecords inner (.obj left) (.obj right) = .ok unified) :
    ∃ other, unifyRecords inner (.obj right) (.obj left) = .ok other ∧ Alike unified other := by
  obtain ⟨merged, hshared, rfl⟩ := unifyRecords_eq_ok h
  obtain ⟨merged', hshared', halike⟩ := unifyShared_comm hproperties hparts hshared
  rw [unifyRecords, hshared']
  exact ⟨_, rfl, (((agreed_comm hleft hright recordKeys).insert halike).withRequired _ _).alike⟩

theorem unifyMaps_comm (hleft : Keyed.Ascending left) (hright : Keyed.Ascending right)
    (hunmixed : Unmixed (.obj left) (.obj right))
    (hparts : ∀ {x y}, mapValues (.obj left) = [x] → mapValues (.obj right) = [y] →
      Commutes inner x y) {unified : Json}
    (h : unifyMaps inner (.obj left) (.obj right) = .ok unified) :
    ∃ other, unifyMaps inner (.obj right) (.obj left) = .ok other ∧ Alike unified other := by
  obtain ⟨values, hvalues, rfl⟩ := unifyMaps_eq_ok h
  obtain ⟨values', hvalues', halike⟩ : ∃ values',
      unifyAllWith inner (mapValues (.obj right) ++ mapValues (.obj left)) = .ok values' ∧
        Alike values values' := by
    rcases hunmixed with hcommute | ⟨x, y, hx, hy⟩
    · exact ⟨values, hcommute ▸ hvalues, .same (Json.same_refl values)⟩
    · have hpair : ∀ x y, unifyAllWith inner ([x] ++ [y]) = inner x y := by
        intro x y
        rw [List.singleton_append, unifyAllWith, List.foldlM_cons]
        cases inner x y with
        | ok z => rfl
        | error e => rfl
      rw [hx, hy, hpair] at hvalues
      rw [hx, hy, hpair]
      exact hparts hx hy values hvalues
  rw [unifyMaps, hvalues']
  exact ⟨_, rfl, ((agreed_comm hleft hright mapKeys).insert (.part (by decide) halike)).alike⟩

/-! ### Schemas of any kinds -/

/-- Less deeply nested schemas that never come to mixed maps. -/
def CommutesBelow (depth : Nat) (inner : Json → Json → Except UnifyError Json) : Prop :=
  ∀ {x y : Json}, x.WellFormed → y.WellFormed → x.depth < depth → y.depth < depth →
    NeverMixed x y → Commutes inner x y

theorem properties_ascending (hleft : Fits depth left) :
    Keyed.Ascending (properties (.obj left)) := by
  rw [properties]
  cases hsetting : (Json.obj left).member? "properties" with
  | none => exact List.Pairwise.nil
  | some setting =>
    cases setting with
    | obj ps => exact (Json.wellFormed_obj.1 (hleft.get? hsetting).1).1
    | _ => exact List.Pairwise.nil

theorem property_fits (hleft : Fits depth left) {name : String} {x : Json}
    (h : Keyed.get? name (properties (.obj left)) = some x) : x.WellFormed ∧ x.depth < depth := by
  rw [properties] at h
  cases hsetting : (Json.obj left).member? "properties" with
  | none =>
    rw [hsetting] at h
    cases h
  | some setting =>
    rw [hsetting] at h
    cases setting with
    | obj ps =>
      obtain ⟨hformed, hdepth⟩ := hleft.get? hsetting
      obtain ⟨hxFormed, hxDepth⟩ := (fits_iff.2 ⟨hformed, le_rfl⟩ : Fits _ ps).get? h
      exact ⟨hxFormed, lt_trans hxDepth hdepth⟩
    | _ => cases h

theorem unifyKinds_any {a b : Json} (h : kind a = .any ∨ kind b = .any)
    (ha : (∀ reason, kind a ≠ .unsupported reason) ∧ ∀ target, kind a ≠ .reference target)
    (hb : (∀ reason, kind b ≠ .unsupported reason) ∧ ∀ target, kind b ≠ .reference target) :
    unifyKinds inner a b = .ok (.obj []) := by
  rw [unifyKinds.eq_def]
  rcases h with h | h
  · rw [h]
    cases hk : kind b with
    | unsupported reason => exact absurd hk (hb.1 reason)
    | reference target => exact absurd hk (hb.2 target)
    | _ => rfl
  · rw [h]
    cases hk : kind a with
    | unsupported reason => exact absurd hk (ha.1 reason)
    | reference target => exact absurd hk (ha.2 target)
    | _ => rfl

theorem unifyOpenObjects_comm_of_kinds (ha : a.WellFormed) (hb : b.WellFormed) {k k' : Kind}
    (hk : kind a = k) (hk' : kind b = k') (hmem : k ∈ [Kind.record, .map, .openObject])
    (hmem' : k' ∈ [Kind.record, .map, .openObject]) :
    Alike (unifyOpenObjects a b) (unifyOpenObjects b a) := by
  have htyped : ∀ k ∈ [Kind.record, .map, .openObject], k.isTyped = true := by decide
  obtain ⟨left, rfl, hleft, _⟩ := exists_fits ha le_rfl hk (htyped k hmem)
  obtain ⟨right, rfl, hright, _⟩ := exists_fits hb le_rfl hk' (htyped k' hmem')
  exact unifyOpenObjects_comm hleft.ascending hright.ascending

section Parts

variable (hinner : CommutesBelow depth inner) (ha : a.WellFormed) (hb : b.WellFormed)
  (hdepth : a.depth ≤ depth) (hdepth' : b.depth ≤ depth) (hne : a.same b = false)
  (hmixed : NeverMixed a b) {unified : Json}

include hinner ha hb hdepth hdepth' hne hmixed

theorem unifyArrays_comm_of_kinds (hk : kind a = .array) (hk' : kind b = .array)
    (h : unifyArrays inner a b = .ok unified) :
    ∃ other, unifyArrays inner b a = .ok other ∧ Alike unified other := by
  obtain ⟨left, rfl, hleft, _⟩ := exists_fits ha hdepth hk rfl
  obtain ⟨right, rfl, hright, _⟩ := exists_fits hb hdepth' hk' rfl
  refine unifyArrays_comm hleft.ascending hright.ascending (fun hx hy => ?_) h
  exact hinner (hleft.get? hx).1 (hright.get? hy).1 (hleft.get? hx).2 (hright.get? hy).2
    fun hmeets => hmixed (.items hne hk hk' hx hy hmeets)

theorem unifyRecords_comm_of_kinds (hk : kind a = .record) (hk' : kind b = .record)
    (h : unifyRecords inner a b = .ok unified) :
    ∃ other, unifyRecords inner b a = .ok other ∧ Alike unified other := by
  obtain ⟨left, rfl, hleft, _⟩ := exists_fits ha hdepth hk rfl
  obtain ⟨right, rfl, hright, _⟩ := exists_fits hb hdepth' hk' rfl
  refine unifyRecords_comm hleft.ascending hright.ascending (properties_ascending hright)
    (fun hx hy => ?_) h
  obtain ⟨hxFormed, hxDepth⟩ := property_fits hleft hx
  obtain ⟨hyFormed, hyDepth⟩ := property_fits hright hy
  exact hinner hxFormed hyFormed hxDepth hyDepth
    fun hmeets => hmixed (.property hne hk hk' hx hy hmeets)

theorem unifyMaps_comm_of_kinds (hk : kind a = .map) (hk' : kind b = .map)
    (h : unifyMaps inner a b = .ok unified) :
    ∃ other, unifyMaps inner b a = .ok other ∧ Alike unified other := by
  obtain ⟨left, rfl, hleft, _⟩ := exists_fits ha hdepth hk rfl
  obtain ⟨right, rfl, hright, _⟩ := exists_fits hb hdepth' hk' rfl
  refine unifyMaps_comm hleft.ascending hright.ascending (hmixed (.here _ _) hne hk hk')
    (fun {x y} hx hy => ?_) h
  have hxmem : x ∈ mapValues (.obj left) := hx ▸ List.mem_singleton_self x
  have hymem : y ∈ mapValues (.obj right) := hy ▸ List.mem_singleton_self y
  obtain ⟨hxFormed, hxDepth⟩ := fits_mapValues hleft hxmem
  obtain ⟨hyFormed, hyDepth⟩ := fits_mapValues hright hymem
  exact hinner hxFormed hyFormed hxDepth hyDepth
    fun hmeets => hmixed (.value hne hk hk' hx hy hmeets)

theorem unifyKinds_comm (h : unifyKinds inner a b = .ok unified) :
    ∃ other, unifyKinds inner b a = .ok other ∧ Alike unified other := by
  rw [unifyKinds.eq_def] at h
  split at h
  case h_3 hk hk' =>
    obtain ⟨left, rfl, hleft, _⟩ := exists_fits_reference ha hdepth hk
    obtain ⟨right, rfl, hright, _⟩ := exists_fits_reference hb hdepth' hk'
    split at h
    · next heq =>
      obtain rfl := Except.ok.inj h
      refine ⟨_, ?_, (agreed_comm hleft.ascending hright.ascending []).alike⟩
      rw [unifyKinds.eq_def, hk', hk]
      exact if_pos heq.symm
    · cases h
  case h_6 hk hunsupported hreference =>
    obtain rfl := Except.ok.inj h
    refine ⟨_, unifyKinds_any (Or.inr hk) ⟨hunsupported, hreference⟩ ?_, .same (Json.same_refl _)⟩
    rw [hk]
    exact ⟨fun _ => by simp, fun _ => by simp⟩
  case h_7 hk hunsupported hreference _ =>
    obtain rfl := Except.ok.inj h
    refine ⟨_, unifyKinds_any (Or.inl hk) ?_ ⟨hunsupported, hreference⟩, .same (Json.same_refl _)⟩
    rw [hk]
    exact ⟨fun _ => by simp, fun _ => by simp⟩
  case h_8 hk hk' =>
    obtain ⟨left, rfl, hleft, _⟩ := exists_fits ha hdepth hk rfl
    obtain ⟨right, rfl, hright, _⟩ := exists_fits hb hdepth' hk' rfl
    obtain rfl := Except.ok.inj h
    rw [unifyKinds.eq_def, hk', hk]
    exact ⟨_, rfl, unifyStrings_comm hleft.ascending hright.ascending⟩
  case h_9 hk hk' =>
    obtain ⟨left, rfl, hleft, _⟩ := exists_fits ha hdepth hk rfl
    obtain ⟨right, rfl, hright, _⟩ := exists_fits hb hdepth' hk' rfl
    obtain rfl := Except.ok.inj h
    rw [unifyKinds.eq_def, hk', hk]
    exact ⟨_, rfl, unifyNumbers_comm hleft.ascending hright.ascending⟩
  case h_10 hk hk' | h_11 hk hk' =>
    obtain ⟨left, rfl, hleft, _⟩ := exists_fits ha hdepth hk rfl
    obtain ⟨right, rfl, hright, _⟩ := exists_fits hb hdepth' hk' rfl
    obtain rfl := Except.ok.inj h
    rw [unifyKinds.eq_def, hk', hk]
    exact ⟨_, rfl, (agreed_comm hleft.ascending hright.ascending []).alike⟩
  case h_12 hk hk' =>
    rw [unifyKinds.eq_def, hk', hk]
    exact unifyArrays_comm_of_kinds hinner ha hb hdepth hdepth' hne hmixed hk hk' h
  case h_13 hk hk' =>
    rw [unifyKinds.eq_def, hk', hk]
    exact unifyRecords_comm_of_kinds hinner ha hb hdepth hdepth' hne hmixed hk hk' h
  case h_14 hk hk' =>
    rw [unifyKinds.eq_def, hk', hk]
    exact unifyMaps_comm_of_kinds hinner ha hb hdepth hdepth' hne hmixed hk hk' h
  case h_17 hk hk' | h_18 hk hk' | h_19 hk hk' | h_20 hk hk' | h_21 hk hk' =>
    obtain rfl := Except.ok.inj h
    refine ⟨unifyOpenObjects b a, ?_,
      unifyOpenObjects_comm_of_kinds ha hb hk hk' (by decide) (by decide)⟩
    rw [unifyKinds.eq_def, hk', hk]
  all_goals cases h

end Parts

/-! ### Schemas of any depth -/

theorem unifyWith_comm (hinner : CommutesBelow depth inner) (ha : a.WellFormed) (hb : b.WellFormed)
    (hdepth : a.depth ≤ depth) (hdepth' : b.depth ≤ depth) (hmixed : NeverMixed a b) :
    Commutes (unifyWith inner) a b := by
  intro unified h
  rw [unifyWith] at h ⊢
  cases hsame : a.same b with
  | true =>
    rw [hsame] at h
    obtain rfl := Except.ok.inj h
    exact ⟨b, if_pos (Json.same_symm hsame), .same hsame⟩
  | false =>
    rw [hsame] at h
    rw [same_comm b a, hsame]
    exact unifyKinds_comm hinner ha hb hdepth hdepth' hsame hmixed h

/-- Unification that goes down a number of levels commutes on schemas with no more of them. -/
theorem commutesBelow_unifyAt (bound : Nat) : CommutesBelow (bound + 1) (unifyAt bound) := by
  induction bound with
  | zero =>
    intro x y hx hy hdepth hdepth' hmixed
    have hinner : CommutesBelow 0 fun a _ => .ok a := fun _ _ hlt => absurd hlt (Nat.not_lt_zero _)
    exact unifyWith_comm hinner hx hy (Nat.lt_succ_iff.1 hdepth) (Nat.lt_succ_iff.1 hdepth') hmixed
  | succ bound ih =>
    intro x y hx hy hdepth hdepth' hmixed
    exact unifyWith_comm ih hx hy (Nat.lt_succ_iff.1 hdepth) (Nat.lt_succ_iff.1 hdepth') hmixed

theorem commutes_unify (ha : a.WellFormed) (hb : b.WellFormed) (hmixed : NeverMixed a b) :
    Commutes unify a b := by
  intro unified h
  rw [unify, max_comm]
  exact commutesBelow_unifyAt _ ha hb (Nat.lt_succ_of_le (le_max_left _ _))
    (Nat.lt_succ_of_le (le_max_right _ _)) hmixed _ h

/-- Two schemas unify in one order exactly if they do in the other, and then to like schemas, unless
the schemas for the values of two maps mix. -/
theorem unify_either_side (ha : a.WellFormed) (hb : b.WellFormed) (hmixed : NeverMixed a b) :
    ((∃ unified, unify a b = .ok unified) ↔ ∃ unified, unify b a = .ok unified) ∧
      ∀ {unified other}, unify a b = .ok unified → unify b a = .ok other → Alike unified other := by
  have hforth := commutes_unify ha hb hmixed
  have hback := commutes_unify hb ha hmixed.symm
  refine ⟨⟨fun ⟨_, h⟩ => ?_, fun ⟨_, h⟩ => ?_⟩, fun h h' => ?_⟩
  · obtain ⟨other, hother, _⟩ := hforth _ h
    exact ⟨other, hother⟩
  · obtain ⟨other, hother, _⟩ := hback _ h
    exact ⟨other, hother⟩
  · obtain ⟨other, hother, halike⟩ := hforth _ h
    obtain rfl := Except.ok.inj (hother.symm.trans h')
    exact halike

/-- Texts among some names that fit a pattern. -/
def namedTexts (names : List String) (pattern : String) : Json :=
  .obj [("enum", Json.strings names), ("pattern", .str pattern), ("type", .str "string")]

theorem namedTexts_wellFormed (names : List String) (pattern : String) :
    (namedTexts names pattern).WellFormed := by
  have hascending : ["enum", "pattern", "type"].Pairwise (· < ·) := by decide
  refine Json.wellFormed_obj.2 ⟨Keyed.ascending_iff_keys.2 hascending, fun entry hentry => ?_⟩
  rcases List.mem_cons.1 hentry with rfl | hentry
  · refine Json.wellFormed_arr.2 fun item hitem => ?_
    obtain ⟨_, _, rfl⟩ := List.mem_map.1 hitem
    trivial
  · rcases List.mem_cons.1 hentry with rfl | hentry
    · trivial
    · rw [List.mem_singleton.1 hentry]
      trivial

/-- Two maps with one schema each for their values, which differ in names and patterns. -/
theorem unify_either_side_texts :
    let left := patterned "^a" (namedTexts ["x", "y"] "p")
    let right := extensible (namedTexts ["y", "z"] "q")
    let unified := extensible (namedTexts ["x", "y", "z"] (alternatives "p" "q"))
    let other := extensible (namedTexts ["y", "z", "x"] (alternatives "q" "p"))
    NeverMixed left right ∧ unify left right = .ok unified ∧ unify right left = .ok other ∧
      Alike unified other := by
  intro left right unified other
  have hleft : left.WellFormed := patterned_wellFormed "^a" (namedTexts_wellFormed _ _)
  have hright : right.WellFormed := extensible_wellFormed (namedTexts_wellFormed _ _)
  have hmixed : NeverMixed left right := by
    intro c d hmeets _ hc _
    cases hmeets with
    | here => exact Or.inr ⟨_, _, rfl, rfl⟩
    | items _ ha => cases ha
    | property _ ha => cases ha
    | value _ _ _ hx hy h =>
      obtain rfl := (List.cons.inj hx).1
      cases h with
      | here => cases hc
      | items _ ha => cases ha
      | property _ ha => cases ha
      | value _ ha => cases ha
  have hunified : unify left right = .ok unified := rfl
  have hother : unify right left = .ok other := rfl
  exact ⟨hmixed, hunified, hother, (unify_either_side hleft hright hmixed).2 hunified hother⟩

/-- A schema that accepts everything helps two others to unify only if it comes before the second of
them, so two maps with three schemas for their values unify in one order and not in the other. -/
theorem unify_mixed_maps :
    let numbers := extensible (.obj [("type", .str "number")])
    let texts := Json.obj [("additionalProperties", .obj [("type", .str "string")]),
      ("patternProperties", .obj [("^x", .obj [])]), ("type", .str "object")]
    unify numbers texts = .error (.kindMismatch .number .string) ∧
      unify texts numbers = .ok (extensible (.obj [])) := ⟨rfl, rfl⟩

end ResourceCatalog.Schema
