import Mathlib
import ResourceCatalog.Proofs.Patch.Exchange

/-!
# The corrections of a pass fit together

A rule that edits different members of each object asks for nothing that gets in the way of anything
else it asks for: an edited member is either gone or holds data, so nothing is asked for inside of
it. Whatever a pass of such a rule asks for, at all places of a document at once, can then be done
in any order with the same outcome, and nothing of it is refused.
-/

namespace ResourceCatalog

variable {rule : Rule} {edits : Editor} {subject : String} {document : Json} {role : Role}

/-! ### Requests are apart -/

/-- The edits of an object are about different members, and these are there if they need to be. -/
structure Editor.Distinct (edits : Editor) : Prop where
  keys : ∀ role members, ((edits role members).map MemberEdit.key).Nodup
  fits : ∀ role members, ∀ e ∈ edits role members, e.Fits members

namespace PlacedEdit

/-- The targets of the edits are apart. -/
def AllApart (asked : List PlacedEdit) : Prop :=
  asked.Pairwise fun e f => Apart e.target f.target

theorem AllApart.under {asked : List PlacedEdit} (h : AllApart asked) (token : String) :
    AllApart (asked.map (under token)) := by
  rw [AllApart, List.pairwise_map]
  exact h.imp apart_cons_self.2

theorem allApart_own {own : List MemberEdit} (h : (own.map MemberEdit.key).Nodup) :
    AllApart (own.map (PlacedEdit.mk [])) := by
  rw [AllApart, List.pairwise_map]
  exact (List.pairwise_map.1 h).imp fun hne => apart_cons_of_ne hne [] []

end PlacedEdit

open PlacedEdit

theorem allApart_requestsOfItems {items : List Json}
    (h : ∀ item ∈ items, AllApart (requests edits (role.below (.index 0) item) item))
    (index : Nat) : AllApart (requestsOfItems edits role index items) := by
  induction items generalizing index with
  | nil => exact List.Pairwise.nil
  | cons item rest ih =>
    obtain ⟨hitem, hrest⟩ := List.forall_mem_cons.1 h
    rw [requestsOfItems, Role.below_index, AllApart, List.pairwise_append]
    refine ⟨hitem.under _, ih hrest (index + 1), fun e he f hf => ?_⟩
    obtain ⟨inner, _, rfl⟩ := List.mem_map.1 he
    obtain ⟨i, _, _, other, _, rfl⟩ := exists_of_mem_requestsOfItems hf
    apply apart_cons_of_ne
    intro hsame
    have heq := Pointer.toString_injective hsame
    omega

theorem allApart_requestsOfMembers {members : Members} (hdistinct : (Keyed.keys members).Nodup)
    (h : ∀ entry ∈ members,
      AllApart (requests edits (role.below (.property entry.1) entry.2) entry.2))
    (own : List MemberEdit) : AllApart (requestsOfMembers edits role own members) := by
  induction members with
  | nil => exact List.Pairwise.nil
  | cons entry rest ih =>
    obtain ⟨hentry, hrest⟩ := List.forall_mem_cons.1 h
    obtain ⟨hname, hdistinct⟩ := List.nodup_cons.1 hdistinct
    rw [requestsOfMembers, AllApart, List.pairwise_append]
    refine ⟨?_, ih hdistinct hrest, fun e he f hf => ?_⟩
    · split
      · exact List.Pairwise.nil
      · exact hentry.under _
    · obtain ⟨other, hother, _, inner, _, rfl⟩ := exists_of_mem_requestsOfMembers hf
      split at he
      · exact absurd he List.not_mem_nil
      · obtain ⟨asked, _, rfl⟩ := List.mem_map.1 he
        apply apart_cons_of_ne
        intro hsame
        exact hname (hsame ▸ List.mem_map_of_mem hother)

/-- The requests at a value and inside of it are apart. -/
theorem allApart_requests (h : rule.Edits edits) (hedits : edits.Distinct) {value : Json}
    (hformed : value.WellFormed) : AllApart (requests edits role value) := by
  induction value using Json.partsInduction generalizing role with
  | scalar value harr hobj =>
    rw [requests_scalar harr hobj]
    exact List.Pairwise.nil
  | arr items ih =>
    exact allApart_requestsOfItems (fun item hitem =>
      ih item hitem (Json.wellFormed_arr.1 hformed item hitem)) 0
  | obj members ih =>
    obtain ⟨hascending, hmembers⟩ := Json.wellFormed_obj.1 hformed
    rw [requests, AllApart, List.pairwise_append]
    have hinside : AllApart (requestsOfMembers edits role (edits role members) members) :=
      allApart_requestsOfMembers hascending.nodup_keys
        (fun entry hentry => ih entry hentry (hmembers entry hentry)) _
    refine ⟨allApart_own (hedits.keys role members), hinside, fun e he f hf => ?_⟩
    -- a member that the object edits is gone, or it holds data
    obtain ⟨own, hown, rfl⟩ := List.mem_map.1 he
    obtain ⟨entry, hentry, hkept, inner, hinner, rfl⟩ := exists_of_mem_requestsOfMembers hf
    apply apart_cons_of_ne
    intro hsame
    have hget : Keyed.get? own.key members = some entry.2 :=
      hsame ▸ hascending.get?_of_mem hentry
    have hnone := requestsOfMember_eq_nil h hformed hown hget
    rw [show own.key = entry.1 from hsame, requestsOfMember, hkept,
      if_neg Bool.false_ne_true] at hnone
    rw [hnone] at hinner
    exact absurd hinner List.not_mem_nil

/-- What is asked for can be done where it is asked for. -/
theorem ready_of_mem_requests (hedits : edits.Distinct) {value : Json}
    (hformed : value.WellFormed) (hindexable : value.Indexable) {e : PlacedEdit}
    (he : e ∈ requests edits role value) : e.Ready value := by
  induction value using Json.partsInduction generalizing role e with
  | scalar value harr hobj =>
    rw [requests_scalar harr hobj] at he
    exact absurd he List.not_mem_nil
  | arr items ih =>
    obtain ⟨hlength, hitems⟩ := Json.indexable_arr.1 hindexable
    obtain ⟨i, item, hat, inner, hinner, rfl⟩ := exists_of_mem_requestsOfItems he
    have hitem := List.mem_of_getElem? hat
    have hlt := (List.getElem?_eq_some_iff.1 hat).1
    have hindex : Pointer.index? (toString (0 + i)) = some i := by
      rw [Nat.zero_add]
      exact Pointer.index?_toString (by omega)
    refine ready_under.2 ⟨item, ?_, ?_⟩
    · rw [Json.child?, hindex, Option.bind_some, hat]
    · exact ih item hitem (Json.wellFormed_arr.1 hformed item hitem) (hitems item hitem) hinner
  | obj members ih =>
    obtain ⟨hascending, hmembers⟩ := Json.wellFormed_obj.1 hformed
    rw [requests, List.mem_append] at he
    rcases he with he | hinside
    · obtain ⟨own, hown, rfl⟩ := List.mem_map.1 he
      exact ⟨members, rfl, hedits.fits role members own hown⟩
    · obtain ⟨entry, hentry, _, inner, hinner, rfl⟩ := exists_of_mem_requestsOfMembers hinside
      refine ready_under.2 ⟨entry.2, hascending.get?_of_mem hentry, ?_⟩
      exact ih entry hentry (hmembers entry hentry)
        (Json.indexable_obj.1 hindexable entry hentry) hinner

theorem compatible_requests (h : rule.Edits edits) (hedits : edits.Distinct)
    (hformed : document.WellFormed) (hindexable : document.Indexable) :
    Compatible document (requests edits .schema document) where
  formed := hformed
  apart := allApart_requests h hedits hformed
  ready _ he := ready_of_mem_requests hedits hformed hindexable he
  names _ he := names_of_mem_requests h hformed he
  puts _ he _ hput := puts_of_mem_requests h hformed he hput

/-! ### The patches of a pass -/

/-- Two patches address places neither of which is the other or inside of it. -/
def Patch.ApartFrom (a b : Patch) : Prop :=
  ∃ tokens others, Pointer.tokens? a.path = some tokens ∧ Pointer.tokens? b.path = some others ∧
    Apart tokens others

theorem tokens?_path_patch (e : PlacedEdit) :
    Pointer.tokens? (e.patch []).path = some e.target := by
  have hpath : (e.patch []).path = Pointer.ofTokens e.target := by
    rw [target, Pointer.ofTokens_append_singleton]
    obtain ⟨place, edit⟩ := e
    cases edit <;> rfl
  rw [hpath, Pointer.tokens?_ofTokens]

theorem apartFrom_pass (h : rule.Edits edits) (hedits : edits.Distinct) (subject : String)
    (hformed : document.WellFormed) :
    (pass rule subject document).Pairwise fun x y => x.patch.ApartFrom y.patch := by
  have hpatches : ((requests edits .schema document).map (PlacedEdit.patch [])).Pairwise
      Patch.ApartFrom := by
    rw [List.pairwise_map]
    exact (allApart_requests h hedits hformed).imp fun {e f} hapart =>
      ⟨e.target, f.target, tokens?_path_patch e, tokens?_path_patch f, hapart⟩
  rw [← patches_pass h subject hformed, List.pairwise_map] at hpatches
  exact hpatches

theorem applicationOrder_pass (h : rule.Edits edits) (subject : String)
    (hformed : document.WellFormed) :
    applicationOrder document (pass rule subject document) =
      (pass rule subject document).map Correction.patch := by
  rw [applicationOrder_of_edits (patches_pass h subject hformed)
    fun e he => names_of_mem_requests h hformed he, patches_pass h subject hformed]

/-- The patches of a pass all apply, and in any order they come to what the pass does. -/
theorem applyAll_perm_pass (h : rule.Edits edits) (hedits : edits.Distinct) (subject : String)
    (hformed : document.WellFormed) (hindexable : document.Indexable) {patches : List Patch}
    (hperm : patches.Perm ((pass rule subject document).map Correction.patch)) :
    AllApply document patches ∧ applyAll document patches = passStep rule subject document := by
  have hcompatible := compatible_requests h hedits hformed hindexable
  have hpatches := patches_pass h subject hformed
  rw [hpatches] at hperm
  have hasked : Relation.Comp (fun patches asked => patches = asked.map (PlacedEdit.patch []))
      List.Perm patches (requests edits .schema document) := by
    rw [List.eq_map_comp_perm]
    exact hperm
  obtain ⟨asked, rfl, hasked⟩ := hasked
  have hothers := hcompatible.perm hasked.symm
  refine ⟨hothers.allApply, ?_⟩
  rw [passStep, correct_of_edits hpatches hcompatible.names hcompatible.puts hformed,
    applyAll_patches hothers.names hothers.puts hformed]
  exact hothers.onValueAll_perm hasked

end ResourceCatalog
