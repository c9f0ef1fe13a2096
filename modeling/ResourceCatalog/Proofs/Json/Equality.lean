import Mathlib
import ResourceCatalog.Proofs.Json.Parts
import ResourceCatalog.Proofs.Number.Value

/-!
# Equality of documents

Documents are equal when they have the same scalars in the same places, where the two zeros count as
one. Equality is an equivalence, and equal documents have equal parts.
-/

namespace ResourceCatalog.Json

theorem exists_mem_of_forall₂ {α β : Type} {R : α → β → Prop} {xs : List α} {ys : List β}
    (h : List.Forall₂ R xs ys) {x : α} (hx : x ∈ xs) : ∃ y ∈ ys, R x y := by
  induction h with
  | nil => exact absurd hx List.not_mem_nil
  | cons hxy _ ih =>
    rcases List.mem_cons.1 hx with rfl | hx
    · exact ⟨_, List.mem_cons_self, hxy⟩
    · obtain ⟨y, hy, hrelated⟩ := ih hx
      exact ⟨y, List.mem_cons_of_mem _ hy, hrelated⟩

theorem sameItems_iff {xs ys : List Json} :
    sameItems xs ys = true ↔ List.Forall₂ (fun x y => x.same y = true) xs ys := by
  induction xs generalizing ys with
  | nil =>
    cases ys with
    | nil => exact iff_of_true rfl .nil
    | cons y ys => exact iff_of_false Bool.false_ne_true fun h => by cases h
  | cons x xs ih =>
    cases ys with
    | nil => exact iff_of_false Bool.false_ne_true fun h => by cases h
    | cons y ys => rw [sameItems, Bool.and_eq_true, ih, List.forall₂_cons]

theorem sameMembers_iff {xs ys : Members} : sameMembers xs ys = true ↔
    List.Forall₂ (fun x y => x.1 = y.1 ∧ x.2.same y.2 = true) xs ys := by
  induction xs generalizing ys with
  | nil =>
    cases ys with
    | nil => exact iff_of_true rfl .nil
    | cons y ys => exact iff_of_false Bool.false_ne_true fun h => by cases h
  | cons x xs ih =>
    cases ys with
    | nil => exact iff_of_false Bool.false_ne_true fun h => by cases h
    | cons y ys =>
      rw [sameMembers, Bool.and_eq_true, Bool.and_eq_true, beq_iff_eq, ih, List.forall₂_cons]

theorem same_refl (value : Json) : value.same value = true := by
  induction value using partsInduction with
  | scalar value harr hobj =>
    cases value with
    | null => rfl
    | bool b => exact beq_self_eq_true b
    | num n => exact n.same_refl
    | str s => exact beq_self_eq_true s
    | arr _ => cases harr
    | obj _ => cases hobj
  | arr items ih => exact sameItems_iff.2 (List.forall₂_same.2 ih)
  | obj members ih =>
    exact sameMembers_iff.2 (List.forall₂_same.2 fun entry hentry => ⟨rfl, ih entry hentry⟩)

/-! A value equals only values of its own form. -/

theorem same_null_iff {value : Json} : Json.null.same value = true ↔ value = .null := by
  cases value with
  | null => exact iff_of_true rfl rfl
  | _ => exact iff_of_false Bool.false_ne_true fun h => by cases h

theorem same_bool_iff {p : Bool} {value : Json} :
    (Json.bool p).same value = true ↔ value = .bool p := by
  cases value with
  | bool q => rw [same, beq_iff_eq, Json.bool.injEq, eq_comm]
  | _ => exact iff_of_false Bool.false_ne_true fun h => by cases h

theorem same_num_iff {m : Number} {value : Json} :
    (Json.num m).same value = true ↔ ∃ n, value = .num n ∧ m.same n = true := by
  cases value with
  | num n => exact ⟨fun h => ⟨n, rfl, h⟩, fun ⟨_, heq, h⟩ => Json.num.inj heq ▸ h⟩
  | _ => exact iff_of_false Bool.false_ne_true fun ⟨_, h, _⟩ => by cases h

theorem same_str_iff {text : String} {value : Json} :
    (Json.str text).same value = true ↔ value = .str text := by
  cases value with
  | str other => rw [same, beq_iff_eq, Json.str.injEq, eq_comm]
  | _ => exact iff_of_false Bool.false_ne_true fun h => by cases h

theorem same_arr_iff {xs : List Json} {value : Json} :
    (Json.arr xs).same value = true ↔ ∃ ys, value = .arr ys ∧ sameItems xs ys = true := by
  cases value with
  | arr ys => exact ⟨fun h => ⟨ys, rfl, h⟩, fun ⟨_, heq, h⟩ => Json.arr.inj heq ▸ h⟩
  | _ => exact iff_of_false Bool.false_ne_true fun ⟨_, h, _⟩ => by cases h

theorem same_obj_iff {xs : Members} {value : Json} :
    (Json.obj xs).same value = true ↔ ∃ ys, value = .obj ys ∧ sameMembers xs ys = true := by
  cases value with
  | obj ys => exact ⟨fun h => ⟨ys, rfl, h⟩, fun ⟨_, heq, h⟩ => Json.obj.inj heq ▸ h⟩
  | _ => exact iff_of_false Bool.false_ne_true fun ⟨_, h, _⟩ => by cases h

theorem same_symm {a b : Json} (h : a.same b = true) : b.same a = true := by
  induction a using partsInduction generalizing b with
  | scalar a harr hobj =>
    cases a with
    | null => exact same_null_iff.1 h ▸ same_refl _
    | bool p => exact same_bool_iff.1 h ▸ same_refl _
    | num m =>
      obtain ⟨n, rfl, hmn⟩ := same_num_iff.1 h
      exact Number.same_symm hmn
    | str text => exact same_str_iff.1 h ▸ same_refl _
    | arr _ => cases harr
    | obj _ => cases hobj
  | arr xs ih =>
    obtain ⟨ys, rfl, hitems⟩ := same_arr_iff.1 h
    refine sameItems_iff.2 (List.Forall₂.flip ?_)
    exact ((List.forall₂_and_left _ _).2 ⟨ih, sameItems_iff.1 hitems⟩).imp
      fun _ _ hboth => hboth.1 hboth.2
  | obj xs ih =>
    obtain ⟨ys, rfl, hmembers⟩ := same_obj_iff.1 h
    refine sameMembers_iff.2 (List.Forall₂.flip ?_)
    exact ((List.forall₂_and_left _ _).2 ⟨ih, sameMembers_iff.1 hmembers⟩).imp
      fun _ _ hboth => ⟨hboth.2.1.symm, hboth.1 hboth.2.2⟩

theorem same_trans {a b c : Json} (h : a.same b = true) (h' : b.same c = true) :
    a.same c = true := by
  induction a using partsInduction generalizing b c with
  | scalar a harr hobj =>
    cases a with
    | null => rwa [same_null_iff.1 h] at h'
    | bool p => rwa [same_bool_iff.1 h] at h'
    | num m =>
      obtain ⟨n, rfl, hmn⟩ := same_num_iff.1 h
      obtain ⟨k, rfl, hnk⟩ := same_num_iff.1 h'
      exact Number.same_trans hmn hnk
    | str text => rwa [same_str_iff.1 h] at h'
    | arr _ => cases harr
    | obj _ => cases hobj
  | arr xs ih =>
    obtain ⟨ys, rfl, hxy⟩ := same_arr_iff.1 h
    obtain ⟨zs, rfl, hyz⟩ := same_arr_iff.1 h'
    rw [same, sameItems_iff]
    rw [sameItems_iff] at hxy hyz
    clear h h'
    induction hxy generalizing zs with
    | nil => exact hyz
    | cons hfirst _ ihrest =>
      cases hyz with
      | cons hnext hrest =>
        obtain ⟨ihfirst, ih⟩ := List.forall_mem_cons.1 ih
        exact .cons (ihfirst hfirst hnext) (ihrest ih _ hrest)
  | obj xs ih =>
    obtain ⟨ys, rfl, hxy⟩ := same_obj_iff.1 h
    obtain ⟨zs, rfl, hyz⟩ := same_obj_iff.1 h'
    rw [same, sameMembers_iff]
    rw [sameMembers_iff] at hxy hyz
    clear h h'
    induction hxy generalizing zs with
    | nil => exact hyz
    | cons hfirst _ ihrest =>
      cases hyz with
      | cons hnext hrest =>
        obtain ⟨ihfirst, ih⟩ := List.forall_mem_cons.1 ih
        exact .cons ⟨hfirst.1.trans hnext.1, ihfirst hfirst.2 hnext.2⟩ (ihrest ih _ hrest)

/-! ### Parts of equal documents -/

theorem get?_same {xs ys : Members} (h : sameMembers xs ys = true) (key : String) :
    Option.Rel (fun x y => x.same y = true) (Keyed.get? key xs) (Keyed.get? key ys) := by
  induction sameMembers_iff.1 h with
  | nil => exact .none
  | cons hxy hrest ih =>
    rw [Keyed.get?, Keyed.get?, hxy.1]
    split
    · exact .some hxy.2
    · exact ih (sameMembers_iff.2 hrest)

theorem member?_same {a b : Json} (h : a.same b = true) (key : String) :
    Option.Rel (fun x y => x.same y = true) (a.member? key) (b.member? key) := by
  cases a with
  | obj xs =>
    cases b with
    | obj ys => exact get?_same h key
    | _ => cases h
  | _ =>
    cases b with
    | obj _ => cases h
    | _ => exact .none

theorem exists_member?_same {a b x : Json} (h : a.same b = true) {key : String}
    (hx : a.member? key = some x) : ∃ y, b.member? key = some y ∧ x.same y = true := by
  have hrel := member?_same h key
  rw [hx] at hrel
  cases hy : b.member? key with
  | none =>
    rw [hy] at hrel
    cases hrel
  | some y =>
    rw [hy] at hrel
    cases hrel with
    | some hxy => exact ⟨y, rfl, hxy⟩

/-! ### Members of lists -/

theorem memberOf_iff {value : Json} {items : List Json} :
    value.memberOf items = true ↔ ∃ item ∈ items, value.same item = true := List.any_eq_true

/-- Lists of equal items have the same members. -/
theorem memberOf_of_same {value : Json} {xs ys : List Json} (h : sameItems xs ys = true)
    (hvalue : value.memberOf xs = true) : value.memberOf ys = true := by
  rw [memberOf_iff] at hvalue ⊢
  obtain ⟨x, hx, hsame⟩ := hvalue
  obtain ⟨y, hy, hxy⟩ := exists_mem_of_forall₂ (sameItems_iff.1 h) hx
  exact ⟨y, hy, same_trans hsame hxy⟩

end ResourceCatalog.Json
