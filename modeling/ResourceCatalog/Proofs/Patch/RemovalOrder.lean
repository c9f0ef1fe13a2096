import Mathlib
import ResourceCatalog.Proofs.Patch.Displacement

/-!
# The order of removals

The removals of items that a pass asks for are applied in the order of the pointers of their arrays,
and from the back within one array. A pointer comes before those that lead further down, so an array
is always shortened before anything inside of its items. That is right for an item that stands behind
what is removed inside of its neighbours, and wrong for an item in front: the items move up, and the
removal inside meets another one.
-/

namespace ResourceCatalog

open ItemAddress

/-! ### Corrections that remove an item -/

theorem Trail.tokens_cons (step : Step) (rest : Trail) :
    Trail.tokens (step :: rest) = Trail.tokens rest ++ [step.key.token] := by
  rw [Trail.tokens, List.map_cons, List.reverse_cons]
  rfl

theorem Trail.pointer_eq_ofTokens (trail : Trail) : trail.pointer = Pointer.ofTokens trail.tokens := by
  induction trail with
  | nil => rfl
  | cons step rest ih =>
    rw [Trail.pointer, ih, Trail.tokens_cons, Pointer.ofTokens_append_singleton]

/-- The correction asks for an item to be deleted: the array asks for one of its items, or the item
asks for itself. -/
inductive Correction.AsksToDelete : Correction → ItemAddress → Prop where
  | ofArray (array : Cursor) (items : List Json) (index : Nat) (reason : String) :
    AsksToDelete (array.removeItem items index reason) ⟨array.trail.tokens, index⟩
  | ofItem (item : Cursor) (container : Json) (index : Nat) (above : Trail) (reason : String)
    (h : item.trail = ⟨container, .index index⟩ :: above) :
    AsksToDelete (item.remove reason) ⟨above.tokens, index⟩

theorem Correction.AsksToDelete.patch_eq {c : Correction} {a : ItemAddress}
    (h : c.AsksToDelete a) : c.patch = .remove a.pointer := by
  cases h with
  | ofArray array items index reason =>
    refine congrArg Patch.remove ?_
    rw [ItemAddress.pointer, ← Trail.pointer_eq_ofTokens]
    rfl
  | ofItem item container index above reason h =>
    refine congrArg Patch.remove ?_
    rw [ItemAddress.pointer, ← Trail.pointer_eq_ofTokens, Cursor.pointer, h, Trail.pointer]
    rfl

namespace ItemAddress

/-- The removal that an address stands for. -/
def removal (a : ItemAddress) : ItemRemoval := ⟨Pointer.ofTokens a.array, a.index, .remove a.pointer⟩

theorem itemRemoval?_pointer {a : ItemAddress} {document : Json} (h : a.InRange document) :
    itemRemoval? document (.remove a.pointer) = some a.removal := by
  obtain ⟨hsize, items, hat, _⟩ := h
  rw [itemRemoval?, ItemAddress.pointer, Pointer.cutLast_join, Pointer.escapeChars_toString]
  simp only [String.ofList_toList, Pointer.spelledNumber?_toString hsize, Json.find?,
    Pointer.tokens?_ofTokens, Option.bind_some, Option.bind_eq_bind, hat]
  rfl

/-! ### The order -/

/-- The order of the removals that addresses stand for. -/
def inOrder (a b : ItemAddress) : Bool := a.removal.before b.removal

theorem inOrder_iff {a b : ItemAddress} : inOrder a b = true ↔
      Pointer.ofTokens a.array < Pointer.ofTokens b.array ∨
        (a.array = b.array ∧ b.index ≤ a.index) := by
  rw [inOrder, ItemRemoval.before, Bool.or_eq_true, Bool.and_eq_true, decide_eq_true_eq,
    decide_eq_true_eq, beq_iff_eq]
  exact or_congr_right (and_congr_left fun _ => ⟨Pointer.ofTokens_injective, congrArg _⟩)

theorem inOrder_trans (a b c : ItemAddress) (hab : inOrder a b = true) (hbc : inOrder b c = true) :
    inOrder a c = true := by
  simp only [inOrder, ItemRemoval.before, Bool.or_eq_true, Bool.and_eq_true, decide_eq_true_eq,
    beq_iff_eq] at hab hbc ⊢
  rcases hab with hab | ⟨hab, hindex⟩
  · rcases hbc with hbc | ⟨hbc, _⟩
    · exact Or.inl (lt_trans hab hbc)
    · exact Or.inl (hbc ▸ hab)
  · rcases hbc with hbc | ⟨hbc, hindex'⟩
    · exact Or.inl (hab ▸ hbc)
    · exact Or.inr ⟨hab.trans hbc, le_trans hindex' hindex⟩

theorem inOrder_total (a b : ItemAddress) : (inOrder a b || inOrder b a) = true := by
  simp only [inOrder, ItemRemoval.before, Bool.or_eq_true, Bool.and_eq_true, decide_eq_true_eq,
    beq_iff_eq]
  rcases lt_trichotomy a.removal.array b.removal.array with hlt | heq | hlt
  · exact Or.inl (Or.inl hlt)
  · rcases le_total b.removal.index a.removal.index with hle | hle
    · exact Or.inl (Or.inr ⟨heq, hle⟩)
    · exact Or.inr (Or.inr ⟨heq.symm, hle⟩)
  · exact Or.inr (Or.inl hlt)

theorem sameItem_removal {a b : ItemAddress} :
    a.removal.sameItem b.removal = true ↔ a = b := by
  rw [ItemRemoval.sameItem, Bool.and_eq_true, beq_iff_eq, beq_iff_eq]
  constructor
  · rintro ⟨harray, hindex⟩
    obtain ⟨arrayA, indexA⟩ := a
    obtain ⟨arrayB, indexB⟩ := b
    obtain rfl : arrayA = arrayB := Pointer.ofTokens_injective harray
    obtain rfl : indexA = indexB := hindex
    rfl
  · rintro rfl
    exact ⟨rfl, rfl⟩

/-- Of two different addresses in the order of removals, the first is before the second. -/
theorem before_of_ne {a b : ItemAddress} (h : inOrder a b = true)
    (hne : a ≠ b) : Before a b := by
  rcases inOrder_iff.1 h with hlt | ⟨harray, hindex⟩
  · constructor
    · intro token rest heq
      have hback := Pointer.ofTokens_lt_append b.array token rest
      rw [← heq] at hback
      exact lt_asymm hlt hback
    · intro heq
      rw [heq] at hlt
      exact absurd hlt (lt_irrefl _)
  · constructor
    · intro token rest heq
      rw [harray] at heq
      have hlength := congrArg List.length heq
      rw [List.length_append, List.length_cons] at hlength
      omega
    · intro _
      refine lt_of_le_of_ne hindex fun hsame => hne ?_
      obtain ⟨arrayA, indexA⟩ := a
      obtain ⟨arrayB, indexB⟩ := b
      dsimp only at harray hsame
      rw [harray, hsame]

theorem inOrder_antisymm {a b : ItemAddress}
    (hab : inOrder a b = true)
    (hba : inOrder b a = true) : a = b := by
  by_contra hne
  rcases inOrder_iff.1 hab with hlt | ⟨harray, _⟩
  · rcases inOrder_iff.1 hba with hgt | ⟨harray, _⟩
    · exact lt_asymm hlt hgt
    · rw [harray] at hlt
      exact lt_irrefl _ hlt
  · have hless := (before_of_ne hab hne).2 harray
    have hmore := (before_of_ne hba (Ne.symm hne)).2 harray.symm
    omega

/-- Of removals in order, repetitions go and nothing else. -/
theorem exists_dedup_removal {addresses : List ItemAddress}
    (h : addresses.Pairwise fun a b => inOrder a b = true) :
    ∃ distinct : List ItemAddress,
      ItemRemoval.dedup (addresses.map removal) = distinct.map removal ∧
        distinct.Sublist addresses ∧ (∀ a ∈ addresses, a ∈ distinct) ∧ distinct.Nodup := by
  induction addresses with
  | nil => exact ⟨[], rfl, List.Sublist.slnil, fun _ ha => ha, List.nodup_nil⟩
  | cons a rest ih =>
    obtain ⟨hfirst, hrest⟩ := List.pairwise_cons.1 h
    obtain ⟨distinct, hdedup, hsub, hmem, hnodup⟩ := ih hrest
    rw [List.map_cons, ItemRemoval.dedup, hdedup]
    cases distinct with
    | nil =>
      refine ⟨[a], rfl, hsub.cons_cons a, fun b hb => ?_, List.nodup_singleton a⟩
      rcases List.mem_cons.1 hb with rfl | hb
      · exact List.mem_singleton_self b
      · exact absurd (hmem b hb) List.not_mem_nil
    | cons b others =>
      by_cases hsame : a = b
      · subst hsame
        refine ⟨a :: others, if_pos (sameItem_removal.2 rfl), hsub.cons a, fun c hc => ?_, hnodup⟩
        rcases List.mem_cons.1 hc with rfl | hc
        · exact List.mem_cons_self
        · exact hmem c hc
      · have hnew : a ∉ b :: others := by
          intro ha
          rcases List.mem_cons.1 ha with hab | hothers
          · exact hsame hab
          · have hab := hfirst b (hsub.subset List.mem_cons_self)
            have hba := List.rel_of_pairwise_cons (hrest.sublist hsub) hothers
            exact hsame (inOrder_antisymm hab hba)
        refine ⟨a :: b :: others, if_neg fun htrue => hsame (sameItem_removal.1 htrue),
          hsub.cons_cons a, fun c hc => ?_, List.nodup_cons.2 ⟨hnew, hnodup⟩⟩
        rcases List.mem_cons.1 hc with rfl | hc
        · exact List.mem_cons_self
        · exact List.mem_cons_of_mem _ (hmem c hc)

end ItemAddress

variable {made : List Correction} {addresses : List ItemAddress}

/-- The patches of corrections that all ask for an item to be deleted are applied in the order of
the addresses. -/
theorem exists_applicationOrder (h : List.Forall₂ Correction.AsksToDelete made addresses) :
    ∃ ordered : List ItemAddress,
      (∀ document, (∀ a ∈ addresses, a.InRange document) →
        applicationOrder document made = ordered.map fun a => Patch.remove a.pointer) ∧
      (∀ a, a ∈ ordered ↔ a ∈ addresses) ∧ ordered.Pairwise Before := by
  have hpatches : made.map Correction.patch = addresses.map fun a => Patch.remove a.pointer := by
    rw [← List.forall₂_eq_eq_eq, List.forall₂_map_left_iff, List.forall₂_map_right_iff]
    exact h.imp fun _ _ => Correction.AsksToDelete.patch_eq
  have hsorted : (addresses.mergeSort inOrder).Pairwise fun a b => inOrder a b = true :=
    List.pairwise_mergeSort inOrder_trans inOrder_total addresses
  have hsort : (addresses.mergeSort inOrder).map removal =
      (addresses.map removal).mergeSort ItemRemoval.before :=
    List.map_mergeSort fun _ _ _ _ => rfl
  obtain ⟨ordered, hdedup, hsub, hmem, hnodup⟩ := exists_dedup_removal hsorted
  refine ⟨ordered, fun document hrange => ?_, fun a => ?_, ?_⟩
  · have hremovals : (made.map Correction.patch).filterMap (itemRemoval? document) =
        addresses.map removal := by
      rw [hpatches, List.filterMap_map, ← List.filterMap_eq_map]
      exact List.filterMap_congr fun a ha => itemRemoval?_pointer (hrange a ha)
    have hothers : (made.map Correction.patch).filter
        (fun patch => (itemRemoval? document patch).isNone) = [] := by
      rw [hpatches, List.filter_eq_nil_iff]
      intro patch hpatch
      obtain ⟨a, ha, rfl⟩ := List.mem_map.1 hpatch
      rw [itemRemoval?_pointer (hrange a ha)]
      exact Bool.false_ne_true
    rw [applicationOrder, hothers, hremovals, ← hsort, hdedup, List.map_map, List.nil_append]
    rfl
  · constructor
    · intro ha
      exact List.mem_mergeSort.1 (hsub.subset ha)
    · intro ha
      exact hmem a (List.mem_mergeSort.2 ha)
  · exact ((hsorted.sublist hsub).and hnodup).imp fun hboth => before_of_ne hboth.1 hboth.2

/-- Removals of items of one document delete exactly the items they were asked for, in every document
that has these items, if and only if none of them removes an item in front of, or around, what
another one removes inside of an item of the same array. -/
theorem correct_eq_withoutItems_iff (h : List.Forall₂ Correction.AsksToDelete made addresses)
    {document : Json} (hformed : document.WellFormed) (hrange : ∀ a ∈ addresses, a.InRange document) :
    (∀ other : Json, other.WellFormed → (∀ a ∈ addresses, a.InRange other) →
        correct other made = other.withoutItems addresses) ↔
      Undisplaced addresses := by
  obtain ⟨ordered, horder, hmem, hbefore⟩ := exists_applicationOrder h
  have hcorrect : ∀ other : Json, other.WellFormed → (∀ a ∈ addresses, a.InRange other) →
      correct other made = other.deleteItems ordered := by
    intro other hother hotherRange
    rw [correct, horder other hotherRange]
    exact Json.applyAll_remove (fun a ha => (hotherRange a ((hmem a).1 ha)).1) hother
  have hwithout : ∀ other : Json, other.withoutItems addresses = other.withoutItems ordered :=
    fun other => Json.withoutItems_congr (fun a => (hmem a).symm) other
  have hplace : Undisplaced addresses ↔ Undisplaced ordered := by
    simp only [Undisplaced, hmem]
  constructor
  · intro hall
    by_contra hdisplaced
    obtain ⟨other, hother, hotherRange, hne⟩ := Json.exists_displaced hformed hbefore
      (fun a ha => hrange a ((hmem a).1 ha)) fun hordered => hdisplaced (hplace.2 hordered)
    have haddresses : ∀ a ∈ addresses, a.InRange other := fun a ha =>
      hotherRange a ((hmem a).2 ha)
    rw [← hcorrect other hother haddresses, ← hwithout] at hne
    exact hne (hall other hother haddresses)
  · intro hundisplaced other hother hotherRange
    rw [hcorrect other hother hotherRange, hwithout]
    exact Json.deleteItems_eq_withoutItems hother hbefore (hplace.1 hundisplaced)
      fun a ha => hotherRange a ((hmem a).1 ha)

/-- A list in which the first item is removed, and the first item of the second one. -/
def nestedLists : Json :=
  .obj [("a", .arr [.str "x", .arr [.nat 1, .nat 2], .arr [.nat 3, .nat 4]])]

def nestedAddresses : List ItemAddress := [⟨["a"], 0⟩, ⟨["a", "1"], 0⟩]

def nestedRemovals : List Correction :=
  let list : Trail := [⟨nestedLists, .property "a"⟩]
  [(Cursor.mk "Test" nestedLists .null list).removeItem [] 0 "first",
    (Cursor.mk "Test" nestedLists .null (⟨.null, .index 1⟩ :: list)).removeItem [] 0 "inner"]

/-- The removal inside meets the item that has moved up. -/
theorem correct_nestedLists :
    List.Forall₂ Correction.AsksToDelete nestedRemovals nestedAddresses ∧
      nestedLists.WellFormed ∧ (∀ a ∈ nestedAddresses, a.InRange nestedLists) ∧
      ((∀ other : Json, other.WellFormed → (∀ a ∈ nestedAddresses, a.InRange other) →
          correct other nestedRemovals = other.withoutItems nestedAddresses) ↔
        Undisplaced nestedAddresses) ∧
      ¬ Undisplaced nestedAddresses ∧
      correct nestedLists nestedRemovals =
        .obj [("a", .arr [.arr [.nat 1, .nat 2], .arr [.nat 4]])] ∧
      nestedLists.withoutItems nestedAddresses =
        .obj [("a", .arr [.arr [.nat 2], .arr [.nat 3, .nat 4]])] := by
  have hasked : List.Forall₂ Correction.AsksToDelete nestedRemovals nestedAddresses :=
    .cons (.ofArray ..) (.cons (.ofArray ..) .nil)
  have hformed : nestedLists.WellFormed := by
    simp [nestedLists, Json.WellFormed, Json.MembersWellFormed, Json.ItemsWellFormed,
      Keyed.Ascending, Json.nat]
  have hrange : ∀ a ∈ nestedAddresses, a.InRange nestedLists := by
    intro a ha
    rcases List.mem_pair.1 ha with rfl | rfl
    · exact ⟨by decide, _, rfl, by decide⟩
    · exact ⟨by decide, [.nat 1, .nat 2], by cbv, by decide⟩
  refine ⟨hasked, hformed, hrange, correct_eq_withoutItems_iff hasked hformed hrange, ?_, ?_, ?_⟩
  · intro hundisplaced
    have hlt := hundisplaced ⟨["a"], 0⟩ (by decide) ⟨["a", "1"], 0⟩ (by decide) "1" [] 1 rfl (by cbv)
    exact absurd hlt (by decide)
  · cbv
  · cbv

end ResourceCatalog
