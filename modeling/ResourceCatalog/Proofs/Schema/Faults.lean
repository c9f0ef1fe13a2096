import Mathlib
import ResourceCatalog.Proofs.Schema.Descent

/-!
# Where a unification fails

A unification fails because of two schemas that do not unify whatever becomes of their parts. They
need not be the two at the top, but the unification of these comes to them, and on the way back up
the error is only wrapped in the names of properties and items.
-/

namespace ResourceCatalog.Schema

/-- The error without the properties and items that it was met in. -/
def UnifyError.root : UnifyError → UnifyError
  | .property _ cause => cause.root
  | .items cause => cause.root
  | e => e

/-- Two schemas do not unify, whatever their parts unify to. -/
def FailsAt (a b : Json) (e : UnifyError) : Prop := ∀ inner, unifyWith inner a b = .error e

variable {a b x y : Json} {e root : UnifyError} {inner : Json → Json → Except UnifyError Json}

/-! ### Errors of the parts -/

/-- A property is passed by on the way to the others, or it is one that does not unify. -/
theorem unifyShared_cons (inner : Json → Json → Except UnifyError Json) (others : Members)
    (name : String) (schema : Json) :
    (∃ z, ∀ rest, unifyShared inner others ((name, schema) :: rest) =
      (unifyShared inner others rest).map ((name, z) :: ·)) ∨
      ∃ other cause, Keyed.get? name others = some other ∧ inner schema other = .error cause := by
  cases hother : Keyed.get? name others with
  | none => exact Or.inl ⟨schema, fun _ => unifyShared_cons_of_none hother⟩
  | some other =>
    cases hz : inner schema other with
    | ok z => exact Or.inl ⟨z, fun _ => unifyShared_cons_of_ok hother hz⟩
    | error cause => exact Or.inr ⟨other, cause, rfl, hz⟩

/-- The first of several properties that does not unify is to blame. -/
theorem unifyShared_eq_error_iff {others left : Members} :
    unifyShared inner others left = .error e ↔
      ∃ before name x after merged y cause, left = before ++ (name, x) :: after ∧
        unifyShared inner others before = .ok merged ∧ Keyed.get? name others = some y ∧
          inner x y = .error cause ∧ e = .property name cause := by
  constructor
  · intro h
    induction left generalizing e with
    | nil => cases h
    | cons entry rest ih =>
      obtain ⟨name, schema⟩ := entry
      rcases unifyShared_cons inner others name schema with ⟨z, hcons⟩ | ⟨other, cause, hother, hz⟩
      · rw [hcons] at h
        cases hrest : unifyShared inner others rest with
        | ok merged =>
          rw [hrest] at h
          cases h
        | error e' =>
          rw [hrest] at h
          obtain rfl := Except.error.inj h
          obtain ⟨before, later, x, after, merged, y, cause, rfl, hbefore, hblamed⟩ := ih hrest
          refine ⟨(name, schema) :: before, later, x, after, (name, z) :: merged, y, cause, rfl, ?_,
            hblamed⟩
          rw [hcons, hbefore]
          rfl
      · rw [unifyShared_cons_of_error hother hz] at h
        exact ⟨[], name, schema, rest, [], other, cause, rfl, rfl, hother, hz,
          (Except.error.inj h).symm⟩
  · rintro ⟨before, name, x, after, merged, y, cause, rfl, hbefore, hy, hcause, rfl⟩
    induction before generalizing merged with
    | nil => exact unifyShared_cons_of_error hy hcause
    | cons entry before ih =>
      obtain ⟨earlier, schema⟩ := entry
      rcases unifyShared_cons inner others earlier schema with ⟨z, hcons⟩ | ⟨other, _, hother, hz⟩
      · rw [hcons] at hbefore
        cases hrest : unifyShared inner others before with
        | ok merged =>
          rw [List.cons_append, hcons, ih merged hrest]
          rfl
        | error e' =>
          rw [hrest] at hbefore
          cases hbefore
      · rw [unifyShared_cons_of_error hother hz] at hbefore
        cases hbefore

/-- The first of several schemas that does not unify with what there is before it is to blame. -/
theorem foldlM_eq_error_iff {first : Json} {rest : List Json} :
    rest.foldlM inner first = .error e ↔
      ∃ before next after acc, rest = before ++ next :: after ∧
        before.foldlM inner first = .ok acc ∧ inner acc next = .error e := by
  constructor
  · intro h
    induction rest generalizing first with
    | nil => cases h
    | cons next rest ih =>
      rw [List.foldlM_cons] at h
      cases hjoined : inner first next with
      | error e' =>
        rw [hjoined] at h
        exact ⟨[], next, rest, first, rfl, rfl, hjoined.trans h⟩
      | ok joined =>
        rw [hjoined] at h
        obtain ⟨before, later, after, acc, rfl, hbefore, herror⟩ := ih h
        refine ⟨next :: before, later, after, acc, rfl, ?_, herror⟩
        rw [List.foldlM_cons, hjoined]
        exact hbefore
  · rintro ⟨before, next, after, acc, rfl, hbefore, herror⟩
    rw [List.foldlM_append, hbefore]
    change (next :: after).foldlM inner acc = .error e
    rw [List.foldlM_cons, herror]
    rfl

/-! ### Errors of the rules -/

theorem Calls.kinds (h : Calls inner a b x y) :
    a.same b = false ∧ kind b = kind a ∧ kind a ∈ [Kind.array, .record, .map] := by
  cases h with
  | items hne ha hb => exact ⟨hne, hb.trans ha.symm, by rw [ha]; decide⟩
  | property hne ha hb => exact ⟨hne, hb.trans ha.symm, by rw [ha]; decide⟩
  | value hne ha hb => exact ⟨hne, hb.trans ha.symm, by rw [ha]; decide⟩

theorem unifyWith_of_same (hsame : a.same b = true) : unifyWith inner a b = .ok a := if_pos hsame

theorem unifyWith_of_ne (hne : a.same b = false) : unifyWith inner a b = unifyKinds inner a b := by
  rw [unifyWith, hne]
  rfl

theorem unifyKinds_arrays (ha : kind a = .array) (hb : kind b = .array) :
    unifyKinds inner a b = unifyArrays inner a b := by
  rw [unifyKinds.eq_def, ha, hb]

theorem unifyKinds_records (ha : kind a = .record) (hb : kind b = .record) :
    unifyKinds inner a b = unifyRecords inner a b := by
  rw [unifyKinds.eq_def, ha, hb]

theorem unifyKinds_maps (ha : kind a = .map) (hb : kind b = .map) :
    unifyKinds inner a b = unifyMaps inner a b := by
  rw [unifyKinds.eq_def, ha, hb]

theorem unifyMaps_of_nil (h : mapValues a ++ mapValues b = []) :
    unifyMaps inner a b = .error .empty := by
  rw [unifyMaps, h]
  rfl

theorem unifyArrays_eq_error (h : unifyArrays inner a b = .error e) :
    ∃ x y cause, a.member? "items" = some x ∧ b.member? "items" = some y ∧
      inner x y = .error cause ∧ e = .items cause := by
  rw [unifyArrays.eq_def] at h
  dsimp only at h
  split at h
  · next x y hx hy =>
    split at h
    · cases h
    · next cause hcause => exact ⟨x, y, cause, hx, hy, hcause, (Except.error.inj h).symm⟩
  · cases h

theorem unifyRecords_eq_error (h : unifyRecords inner a b = .error e) :
    unifyShared inner (properties b) (properties a) = .error e := by
  rw [unifyRecords] at h
  cases hshared : unifyShared inner (properties b) (properties a) with
  | ok merged =>
    rw [hshared] at h
    cases h
  | error e' =>
    rw [hshared] at h
    rw [Except.error.inj h]

theorem unifyMaps_eq_error (h : unifyMaps inner a b = .error e) :
    unifyAllWith inner (mapValues a ++ mapValues b) = .error e := by
  rw [unifyMaps] at h
  cases hvalues : unifyAllWith inner (mapValues a ++ mapValues b) with
  | ok values =>
    rw [hvalues] at h
    cases h
  | error e' =>
    rw [hvalues] at h
    rw [Except.error.inj h]

/-- The rules fail by themselves, or because of schemas that they come to. -/
theorem unifyWith_eq_error (h : unifyWith inner a b = .error e) :
    (FailsAt a b e ∧ e.root = e) ∨
      ∃ x y cause, Calls inner a b x y ∧ inner x y = .error cause ∧ e.root = cause.root := by
  have hne : a.same b = false := by
    rw [unifyWith] at h
    split at h
    · cases h
    · next hne => exact Bool.not_eq_true _ ▸ hne
  have hkinds : unifyKinds inner a b = .error e := (unifyWith_of_ne hne).symm.trans h
  by_cases hparts : kind b = kind a ∧ kind a ∈ [Kind.array, .record, .map]
  · obtain ⟨hb, hmem⟩ := hparts
    generalize ha : kind a = k at hb hmem
    rcases List.mem_cons.1 hmem with rfl | hmem
    · obtain ⟨x, y, cause, hx, hy, hcause, rfl⟩ :=
        unifyArrays_eq_error ((unifyKinds_arrays ha hb).symm.trans hkinds)
      exact Or.inr ⟨x, y, cause, .items hne ha hb hx hy, hcause, rfl⟩
    rcases List.mem_cons.1 hmem with rfl | hmem
    · obtain ⟨before, name, x, after, merged, y, cause, hleft, hbefore, hy, hcause, rfl⟩ :=
        unifyShared_eq_error_iff.1
          (unifyRecords_eq_error ((unifyKinds_records ha hb).symm.trans hkinds))
      exact Or.inr ⟨x, y, cause, .property hne ha hb hleft hbefore hy, hcause, rfl⟩
    obtain rfl := List.mem_singleton.1 hmem
    have hvalues := unifyMaps_eq_error ((unifyKinds_maps ha hb).symm.trans hkinds)
    cases hall : mapValues a ++ mapValues b with
    | nil =>
      rw [hall] at hvalues
      obtain rfl := Except.error.inj hvalues
      refine Or.inl ⟨fun outer => ?_, rfl⟩
      rw [unifyWith_of_ne hne, unifyKinds_maps ha hb, unifyMaps_of_nil hall]
    | cons first rest =>
      rw [hall] at hvalues
      obtain ⟨before, next, after, acc, rfl, hbefore, herror⟩ := foldlM_eq_error_iff.1 hvalues
      exact Or.inr ⟨acc, next, e, .value hne ha hb hall hbefore, herror, rfl⟩
  · -- Without parts there is nothing that the error could have been wrapped in.
    refine Or.inl ⟨fun outer => ?_, ?_⟩
    · rw [← h]
      exact unifyWith_congr fun hcalls => absurd hcalls.kinds.2 hparts
    · rw [unifyKinds.eq_def] at hkinds
      split at hkinds
      case h_3 =>
        split at hkinds
        · cases hkinds
        · cases hkinds
          rfl
      case h_12 ha hb | h_13 ha hb | h_14 ha hb =>
        exact absurd ⟨hb.trans ha.symm, by rw [ha]; decide⟩ hparts
      all_goals
        cases hkinds
        try rfl

/-- The rules fail when schemas fail that they come to. -/
theorem Calls.exists_error (h : Calls inner a b x y) (hcause : inner x y = .error e) :
    ∃ e', unifyWith inner a b = .error e' ∧ e'.root = e.root := by
  rw [unifyWith_of_ne h.kinds.1]
  cases h with
  | items _ ha hb hx hy =>
    refine ⟨.items e, ?_, rfl⟩
    rw [unifyKinds_arrays ha hb, unifyArrays.eq_def, hx, hy]
    dsimp only
    rw [hcause]
  | @property _ _ _ name _ _ _ ha hb hx hbefore hy =>
    refine ⟨.property name e, ?_, rfl⟩
    rw [unifyKinds_records ha hb, unifyRecords,
      unifyShared_eq_error_iff.2 ⟨_, _, _, _, _, _, _, hx, hbefore, hy, hcause, rfl⟩]
    rfl
  | value _ ha hb hvalues hbefore =>
    refine ⟨e, ?_, rfl⟩
    rw [unifyKinds_maps ha hb, unifyMaps, hvalues, unifyAllWith,
      foldlM_eq_error_iff.2 ⟨_, _, _, _, rfl, hbefore, hcause⟩]
    rfl

/-! ### Errors of unification -/

theorem FailsAt.root_eq (h : FailsAt a b e) : e.root = e := by
  rcases unifyWith_eq_error (h fun x _ => .ok x) with ⟨_, hroot⟩ | ⟨_, _, _, _, hcause, _⟩
  · exact hroot
  · cases hcause

/-- Two different schemas fail by themselves because one has no rule, because they are maps without
schemas for their values, or because they are of kinds that do not go together. -/
theorem FailsAt.reasons (h : FailsAt a b e) : a.same b = false ∧
    ((∃ reason, (kind a = .unsupported reason ∨ kind b = .unsupported reason) ∧
        e = .unsupported reason) ∨
      (kind a = .map ∧ kind b = .map ∧ mapValues a ++ mapValues b = [] ∧ e = .empty) ∨
        (∃ left right, e = .referenceMismatch left right) ∨ e = .objectShapeMismatch ∨
          ∃ left right, e = .kindMismatch left right) := by
  have hfails := h fun x _ => .ok x
  rw [unifyWith] at hfails
  split at hfails
  · cases hfails
  next hne =>
    refine ⟨Bool.not_eq_true _ ▸ hne, ?_⟩
    rw [unifyKinds.eq_def] at hfails
    split at hfails
    case h_1 reason hk =>
      exact Or.inl ⟨reason, Or.inl hk, (Except.error.inj hfails).symm⟩
    case h_2 reason hk _ =>
      exact Or.inl ⟨reason, Or.inr hk, (Except.error.inj hfails).symm⟩
    case h_3 =>
      split at hfails
      · cases hfails
      · exact Or.inr (Or.inr (Or.inl ⟨_, _, (Except.error.inj hfails).symm⟩))
    case h_12 =>
      obtain ⟨_, _, _, _, _, hcause, _⟩ := unifyArrays_eq_error hfails
      cases hcause
    case h_13 =>
      obtain ⟨_, _, _, _, _, _, _, _, _, _, hcause, _⟩ :=
        unifyShared_eq_error_iff.1 (unifyRecords_eq_error hfails)
      cases hcause
    case h_14 ha hb =>
      have hvalues := unifyMaps_eq_error hfails
      cases hall : mapValues a ++ mapValues b with
      | nil =>
        rw [hall] at hvalues
        exact Or.inr (Or.inl ⟨ha, hb, rfl, (Except.error.inj hvalues).symm⟩)
      | cons first rest =>
        rw [hall] at hvalues
        obtain ⟨_, _, _, _, _, _, hcause⟩ := foldlM_eq_error_iff.1 hvalues
        cases hcause
    case h_4 | h_5 => exact Or.inr (Or.inr (Or.inl ⟨_, _, (Except.error.inj hfails).symm⟩))
    case h_15 | h_16 =>
      exact Or.inr (Or.inr (Or.inr (Or.inl (Except.error.inj hfails).symm)))
    case h_22 =>
      exact Or.inr (Or.inr (Or.inr (Or.inr ⟨_, _, (Except.error.inj hfails).symm⟩)))
    all_goals cases hfails

/-- Two schemas do not unify if and only if they come to two that fail by themselves, and the error
of these is the one that there is. -/
theorem exists_error_unify_iff : (∃ e, unify a b = .error e ∧ e.root = root) ↔
    ∃ c d, Relation.ReflTransGen ComesTo (a, b) (c, d) ∧ FailsAt c d root := by
  constructor
  · rintro ⟨e, he, rfl⟩
    generalize hpair : (a, b) = pair
    induction pair using wellFounded_comesTo.induction generalizing a b e with
    | _ pair ih =>
      subst hpair
      rcases unifyWith_eq_error (unify_eq a b ▸ he) with
        ⟨hfails, hroot⟩ | ⟨x, y, cause, hcalls, hcause, hroot⟩
      · exact ⟨a, b, .refl, hroot.symm ▸ hfails⟩
      · have hcomes : ComesTo (a, b) (x, y) := hcalls
        obtain ⟨c, d, hreaches, hfails⟩ := ih (x, y) hcomes cause hcause rfl
        exact ⟨c, d, .head hcomes hreaches, hroot ▸ hfails⟩
  · rintro ⟨c, d, hreaches, hfails⟩
    generalize hstart : (a, b) = start, hend : (c, d) = final at hreaches
    induction hreaches using Relation.ReflTransGen.head_induction_on generalizing a b with
    | refl =>
      obtain ⟨rfl, rfl⟩ := Prod.mk.inj (hstart.trans hend.symm)
      exact ⟨root, unify_eq a b ▸ hfails unify, hfails.root_eq⟩
    | @head pair later hcalls _ ih =>
      subst hstart
      obtain ⟨cause, hcause, rfl⟩ := ih rfl
      obtain ⟨e, he, hroot⟩ := Calls.exists_error hcalls hcause
      exact ⟨e, unify_eq a b ▸ he, hroot⟩

end ResourceCatalog.Schema
