import Mathlib
import ResourceCatalog.Proofs.Json.Parts
import ResourceCatalog.Proofs.Patch.ItemDeletion

/-!
# Documents without some of their items

`Json.withoutItems` drops all addressed items at once: every address speaks about the document as it
is given. Deletions one after the other do the same when two things hold of their addresses. Arrays
go before the arrays inside their items, and the items of one array from the back; and no item that
is dropped stands before, or is, an item that something is dropped inside of.
-/

namespace ResourceCatalog

open ItemAddress

namespace Json

mutual

/-- The document without the addressed items. All others are kept, in their order. -/
def withoutItems (addresses : List ItemAddress) : Json → Json
  | .arr items => .arr (keepItems addresses 0 items)
  | .obj members => .obj (keepMembers addresses members)
  | value => value

/-- What is kept of the items of an array from the given index on. -/
def keepItems (addresses : List ItemAddress) (i : Nat) : List Json → List Json
  | [] => []
  | item :: rest =>
    if ⟨[], i⟩ ∈ addresses then keepItems addresses (i + 1) rest
    else withoutItems (intoItem i addresses) item :: keepItems addresses (i + 1) rest

def keepMembers (addresses : List ItemAddress) : List (String × Json) → List (String × Json)
  | [] => []
  | (name, value) :: rest =>
    (name, withoutItems (intoMember name addresses) value) :: keepMembers addresses rest

end

end Json

namespace ItemAddress

/-- The order of two deletions: the second is not in an array around the array of the first, and in
the same array it is further to the front. -/
def Before (a b : ItemAddress) : Prop :=
  (∀ token rest, a.array ≠ b.array ++ token :: rest) ∧ (a.array = b.array → b.index < a.index)

/-- No addressed item stands before, or is, an item with an addressed item inside. -/
def Undisplaced (addresses : List ItemAddress) : Prop :=
  ∀ a ∈ addresses, ∀ b ∈ addresses, ∀ token rest i,
    b.array = a.array ++ token :: rest → Pointer.index? token = some i → i < a.index

variable {addresses : List ItemAddress}

/-! ### Addresses that lead into one part -/

theorem mem_into_congr {addresses' : List ItemAddress} (h : ∀ a, a ∈ addresses ↔ a ∈ addresses')
    (leadsIn : String → Bool) (a : ItemAddress) :
    a ∈ into leadsIn addresses ↔ a ∈ into leadsIn addresses' := by
  simp only [mem_into, h]

theorem itemToken_unique (i : Nat) {t u : String} (ht : (Pointer.index? t == some i) = true)
    (hu : (Pointer.index? u == some i) = true) : t = u := by
  have ht := (Pointer.index?_eq_some_iff.1 (beq_iff_eq.1 ht)).1
  have hu := (Pointer.index?_eq_some_iff.1 (beq_iff_eq.1 hu)).1
  exact ht.trans hu.symm

theorem memberToken_unique (key : String) {t u : String} (ht : (t == key) = true)
    (hu : (u == key) = true) : t = u :=
  (beq_iff_eq.1 ht).trans (beq_iff_eq.1 hu).symm

theorem pairwise_into {leadsIn : String → Bool} (h : addresses.Pairwise Before)
    (hleads : ∀ {t u}, leadsIn t = true → leadsIn u = true → t = u) :
    (into leadsIn addresses).Pairwise Before := by
  rw [into, List.pairwise_filterMap]
  refine h.imp fun {a b} hab => ?_
  obtain ⟨arrayA, indexA⟩ := a
  obtain ⟨arrayB, indexB⟩ := b
  intro a' ha b' hb
  cases arrayA with
  | nil => cases ha
  | cons t restA =>
    cases arrayB with
    | nil => cases hb
    | cons u restB =>
      dsimp only at ha hb
      split at ha
      · next ht =>
        split at hb
        · next hu =>
          obtain rfl := Option.some.inj ha
          obtain rfl := Option.some.inj hb
          obtain rfl := hleads ht hu
          constructor
          · intro token rest heq
            exact hab.1 token rest (congrArg (t :: ·) heq)
          · intro heq
            exact hab.2 (congrArg (t :: ·) heq)
        · cases hb
      · cases ha

theorem Undisplaced.into {leadsIn : String → Bool} (h : Undisplaced addresses)
    (hleads : ∀ {t u}, leadsIn t = true → leadsIn u = true → t = u) :
    Undisplaced (into leadsIn addresses) := by
  intro a ha b hb token rest i heq hi
  obtain ⟨t, ht, hamem⟩ := mem_into.1 ha
  obtain ⟨u, hu, hbmem⟩ := mem_into.1 hb
  obtain rfl := hleads ht hu
  exact h _ hamem _ hbmem token rest i (congrArg (t :: ·) heq) hi

theorem inRange_cons {token : String} {rest : List String} {index : Nat} {value : Json} :
    InRange ⟨token :: rest, index⟩ value ↔
      ∃ child, value.child? token = some child ∧ InRange ⟨rest, index⟩ child := by
  constructor
  · rintro ⟨hsize, items, hat, hlt⟩
    obtain ⟨child, hchild, hat⟩ := Option.bind_eq_some_iff.1 hat
    exact ⟨child, hchild, hsize, items, hat, hlt⟩
  · rintro ⟨child, hchild, hsize, items, hat, hlt⟩
    exact ⟨hsize, items, Option.bind_eq_some_iff.2 ⟨child, hchild, hat⟩, hlt⟩

theorem inRange_into {leadsIn : String → Bool} {value child : Json}
    (h : ∀ a ∈ addresses, a.InRange value)
    (hchild : ∀ token, leadsIn token = true → value.child? token = some child) :
    ∀ a ∈ into leadsIn addresses, a.InRange child := by
  intro a ha
  obtain ⟨token, htoken, hmem⟩ := mem_into.1 ha
  obtain ⟨child', hchild', hrange⟩ := inRange_cons.1 (h _ hmem)
  rw [hchild token htoken] at hchild'
  obtain rfl := Option.some.inj hchild'
  exact hrange

theorem inRange_intoItem {items : List Json} (h : ∀ a ∈ addresses, a.InRange (.arr items))
    {i : Nat} {item : Json} (hitem : items[i]? = some item) :
    ∀ a ∈ intoItem i addresses, a.InRange item := by
  refine inRange_into h fun token htoken => ?_
  rw [Json.child?, beq_iff_eq.1 htoken]
  exact hitem

theorem inRange_intoMember {members : Members} (h : ∀ a ∈ addresses, a.InRange (.obj members))
    {key : String} {value : Json} (hvalue : Keyed.get? key members = some value) :
    ∀ a ∈ intoMember key addresses, a.InRange value := by
  refine inRange_into h fun token htoken => ?_
  rw [beq_iff_eq.1 htoken]
  exact hvalue

/-- Items of the whole value can be addressed only where it is an array. -/
theorem array_ne_nil {value : Json} (hvalue : value.isArray = false)
    (h : ∀ a ∈ addresses, a.InRange value) : ∀ a ∈ addresses, a.array ≠ [] := by
  intro a ha hnil
  obtain ⟨_, items, hat, _⟩ := h a ha
  rw [hnil] at hat
  obtain rfl := Option.some.inj hat
  cases hvalue

/-! ### The addresses of the items themselves come first -/

theorem own_append_deep (h : addresses.Pairwise Before) :
    addresses.filter (·.array = []) ++ addresses.filter (·.array ≠ []) = addresses := by
  induction addresses with
  | nil => rfl
  | cons a rest ih =>
    obtain ⟨hfirst, hrest⟩ := List.pairwise_cons.1 h
    obtain ⟨array, index⟩ := a
    cases array with
    | nil =>
      rw [List.filter_cons_of_pos (by simp), List.filter_cons_of_neg (by simp), List.cons_append,
        ih hrest]
    | cons token tail =>
      have hdeep : ∀ b ∈ rest, b.array ≠ [] := by
        intro b hb hnil
        refine (hfirst b hb).1 token tail ?_
        rw [hnil]
        rfl
      have hown : rest.filter (·.array = []) = [] := by
        rw [List.filter_eq_nil_iff]
        intro b hb
        rw [decide_eq_true_eq]
        exact hdeep b hb
      have hall : rest.filter (·.array ≠ []) = rest := by
        rw [List.filter_eq_self]
        intro b hb
        rw [decide_eq_true_eq]
        exact hdeep b hb
      rw [List.filter_cons_of_neg (by simp), List.filter_cons_of_pos (by simp), hown, hall,
        List.nil_append]

theorem into_deep (leadsIn : String → Bool) (addresses : List ItemAddress) :
    into leadsIn (addresses.filter (·.array ≠ [])) = into leadsIn addresses := by
  rw [into, List.filterMap_filter]
  refine List.filterMap_congr fun a _ => ?_
  obtain ⟨array, index⟩ := a
  cases array with
  | nil => rfl
  | cons token tail => rfl

/-- Behind an item that is dropped nothing is dropped inside of an item. -/
theorem Undisplaced.intoItem_eq_nil (h : Undisplaced addresses) {i j : Nat}
    (hi : ⟨[], i⟩ ∈ addresses) (hij : i ≤ j) : intoItem j addresses = [] := by
  refine List.eq_nil_iff_forall_not_mem.2 fun b hb => ?_
  obtain ⟨token, htoken, hmem⟩ := mem_into.1 hb
  have hlt := h _ hi _ hmem token b.array j rfl (beq_iff_eq.1 htoken)
  exact absurd hlt (not_lt.2 hij)

end ItemAddress

namespace Json

variable {addresses : List ItemAddress}

/-! ### Items that are kept -/

/-- The items that are not addressed, from the given index on, each changed by a rule that knows its
index. -/
def keepWith (addresses : List ItemAddress) (change : Nat → Json → Json) (i : Nat) :
    List Json → List Json
  | [] => []
  | item :: rest =>
    if ⟨[], i⟩ ∈ addresses then keepWith addresses change (i + 1) rest
    else change i item :: keepWith addresses change (i + 1) rest

theorem keepItems_eq_keepWith (i : Nat) (items : List Json) :
    keepItems addresses i items =
      keepWith addresses (fun j item => item.withoutItems (intoItem j addresses)) i items := by
  induction items generalizing i with
  | nil => rw [keepItems, keepWith]
  | cons item rest ih => rw [keepItems, keepWith, ih]

theorem keepWith_congr {change change' : Nat → Json → Json} {i : Nat} {items : List Json}
    (h : ∀ j item, items[j]? = some item → change (i + j) item = change' (i + j) item) :
    keepWith addresses change i items = keepWith addresses change' i items := by
  induction items generalizing i with
  | nil => rfl
  | cons item rest ih =>
    have hrest : keepWith addresses change (i + 1) rest =
        keepWith addresses change' (i + 1) rest := by
      refine ih fun j item' hitem => ?_
      have hnext := h (j + 1) item' hitem
      rwa [← Nat.add_assoc, Nat.add_right_comm] at hnext
    have hitem : change i item = change' i item := h 0 item rfl
    rw [keepWith, keepWith, hrest, hitem]

theorem keepWith_addresses_congr {addresses' : List ItemAddress}
    (h : ∀ i, ⟨[], i⟩ ∈ addresses ↔ ⟨[], i⟩ ∈ addresses') (change : Nat → Json → Json) (i : Nat)
    (items : List Json) :
    keepWith addresses change i items = keepWith addresses' change i items := by
  induction items generalizing i with
  | nil => rfl
  | cons item rest ih =>
    rw [keepWith, keepWith, ih]
    by_cases hi : (⟨[], i⟩ : ItemAddress) ∈ addresses
    · rw [if_pos hi, if_pos ((h i).1 hi)]
    · rw [if_neg hi, if_neg fun hi' => hi ((h i).2 hi')]

theorem keepWith_of_not_mem {i : Nat} (h : ∀ j, i ≤ j → ⟨[], j⟩ ∉ addresses)
    (change : Nat → Json → Json) (items : List Json) :
    keepWith addresses change i items = items.mapIdx fun j item => change (i + j) item := by
  induction items generalizing i with
  | nil => rfl
  | cons item rest ih =>
    rw [keepWith, if_neg (h i le_rfl), List.mapIdx_cons,
      ih (i := i + 1) fun j hj => h j (Nat.le_of_succ_le hj)]
    simp only [Nat.add_zero, Nat.add_assoc, Nat.add_comm 1]

/-- An item that is changed in two ways and kept tells the two ways apart. -/
theorem keepWith_injective {change change' : Nat → Json → Json} {i : Nat} {items : List Json}
    (h : keepWith addresses change i items = keepWith addresses change' i items) {j : Nat}
    {item : Json} (hitem : items[j]? = some item) (hkept : ⟨[], i + j⟩ ∉ addresses) :
    change (i + j) item = change' (i + j) item := by
  induction items generalizing i j with
  | nil => cases hitem
  | cons first rest ih =>
    rw [keepWith, keepWith] at h
    cases j with
    | zero =>
      rw [Nat.add_zero] at hkept ⊢
      rw [if_neg hkept, if_neg hkept] at h
      obtain rfl := Option.some.inj hitem
      exact (List.cons.inj h).1
    | succ j =>
      rw [List.getElem?_cons_succ] at hitem
      rw [← Nat.add_assoc, Nat.add_right_comm] at hkept ⊢
      split at h
      · exact ih h hitem hkept
      · exact ih (List.cons.inj h).2 hitem hkept

/-! ### Deletions from the back -/

/-- Dropping the greatest of the addressed items first. -/
theorem keepWith_cons {last : Nat} (hlast : ∀ j, ⟨[], j⟩ ∈ addresses → j < last) {i : Nat}
    (hi : i ≤ last) (items : List Json) :
    keepWith (⟨[], last⟩ :: addresses) (fun _ item => item) i items =
      keepWith addresses (fun _ item => item) i (items.eraseIdx (last - i)) := by
  induction items generalizing i with
  | nil => rfl
  | cons item rest ih =>
    rcases Nat.eq_or_lt_of_le hi with rfl | hlt
    · have hbehind : ∀ j, i + 1 ≤ j → (⟨[], j⟩ : ItemAddress) ∉ ⟨[], i⟩ :: addresses := by
        intro j hj hmem
        rcases List.mem_cons.1 hmem with heq | hmem
        · have hsame : j = i := congrArg ItemAddress.index heq
          omega
        · have hbefore := hlast j hmem
          omega
      have hrest : ∀ j, i ≤ j → (⟨[], j⟩ : ItemAddress) ∉ addresses := by
        intro j hj hmem
        have hbefore := hlast j hmem
        omega
      rw [keepWith, if_pos List.mem_cons_self, Nat.sub_self, List.eraseIdx_cons_zero,
        keepWith_of_not_mem hbehind, keepWith_of_not_mem hrest]
    · have hsub : last - i = (last - (i + 1)) + 1 := by omega
      have hmem : (⟨[], i⟩ : ItemAddress) ∈ ⟨[], last⟩ :: addresses ↔ ⟨[], i⟩ ∈ addresses := by
        rw [List.mem_cons, or_iff_right]
        intro heq
        exact absurd (congrArg ItemAddress.index heq) (ne_of_lt hlt)
      rw [hsub, List.eraseIdx_cons_succ, keepWith, keepWith, ih hlt]
      simp only [hmem]

theorem deleteItems_own (hown : ∀ a ∈ addresses, a.array = [])
    (h : addresses.Pairwise Before) (items : List Json) :
    (Json.arr items).deleteItems addresses =
      .arr (keepWith addresses (fun _ item => item) 0 items) := by
  induction addresses generalizing items with
  | nil =>
    rw [keepWith_of_not_mem fun _ _ => List.not_mem_nil]
    exact congrArg Json.arr (List.mapIdx_eq_iff.2 fun i => Option.map_id'.symm).symm
  | cons a rest ih =>
    obtain ⟨hfirst, hrest⟩ := List.pairwise_cons.1 h
    obtain ⟨array, last⟩ := a
    obtain rfl : array = [] := hown _ List.mem_cons_self
    have hlast : ∀ j, ⟨[], j⟩ ∈ rest → j < last := fun j hj => (hfirst _ hj).2 rfl
    rw [keepWith_cons hlast (Nat.zero_le _), Nat.sub_zero]
    exact ih (fun b hb => hown b (List.mem_cons_of_mem _ hb)) hrest _

/-- What is done inside of the items can be done after the dropping when it is done only in front of
every dropped item. -/
theorem mapIdx_keepWith (change : Nat → Json → Json)
    (h : ∀ i, ⟨[], i⟩ ∈ addresses → ∀ j, i ≤ j → ∀ item, change j item = item) (i : Nat)
    (items : List Json) :
    (keepWith addresses (fun _ item => item) i items).mapIdx (fun j item => change (i + j) item) =
      keepWith addresses change i items := by
  induction items generalizing i with
  | nil => rfl
  | cons item rest ih =>
    rw [keepWith, keepWith]
    by_cases hi : (⟨[], i⟩ : ItemAddress) ∈ addresses
    · have hsame : keepWith addresses change (i + 1) rest =
          keepWith addresses (fun _ item => item) (i + 1) rest :=
        keepWith_congr fun j item _ => h i hi (i + 1 + j) (by omega) item
      rw [if_pos hi, if_pos hi, hsame]
      refine List.mapIdx_eq_iff.2 fun j => ?_
      simp only [h i hi (i + j) (Nat.le_add_right i j), Option.map_id']
    · rw [if_neg hi, if_neg hi, List.mapIdx_cons, ← ih (i + 1)]
      simp only [Nat.add_zero, Nat.add_assoc, Nat.add_comm 1]

/-- Dropping first, and then what is done inside of the items that are left. -/
theorem deleteItems_eq_mapIdx (h : addresses.Pairwise Before) (items : List Json) :
    (Json.arr items).deleteItems addresses =
      .arr ((keepWith addresses (fun _ item => item) 0 items).mapIdx fun j item =>
        item.deleteItems (intoItem j addresses)) := by
  have hown : ∀ a ∈ addresses.filter (·.array = []), a.array = [] := fun a ha =>
    of_decide_eq_true (List.mem_filter.1 ha).2
  have hdeep : ∀ a ∈ addresses.filter (·.array ≠ []), a.array ≠ [] := fun a ha =>
    of_decide_eq_true (List.mem_filter.1 ha).2
  have hsame : ∀ i, (⟨[], i⟩ : ItemAddress) ∈ addresses.filter (·.array = []) ↔
      ⟨[], i⟩ ∈ addresses := by
    intro i
    rw [List.mem_filter, decide_eq_true_eq, and_iff_left rfl]
  calc (Json.arr items).deleteItems addresses
      = ((Json.arr items).deleteItems (addresses.filter (·.array = []))).deleteItems
          (addresses.filter (·.array ≠ [])) := by
        rw [← deleteItems_append, own_append_deep h]
    _ = _ := by
        rw [deleteItems_own hown (h.sublist List.filter_sublist), deleteItems_arr hdeep,
          keepWith_addresses_congr hsame]
        simp only [intoItem, into_deep]

theorem deleteItems_eq_keepWith (h : addresses.Pairwise Before)
    (hbehind : ∀ i, ⟨[], i⟩ ∈ addresses → ∀ j, i ≤ j → intoItem j addresses = [])
    (items : List Json) :
    (Json.arr items).deleteItems addresses =
      .arr (keepWith addresses (fun j item => item.deleteItems (intoItem j addresses)) 0 items) := by
  rw [deleteItems_eq_mapIdx h, ← mapIdx_keepWith fun j item =>
    item.deleteItems (intoItem j addresses)]
  · simp only [Nat.zero_add]
  · intro i hi j hij item
    rw [hbehind i hi j hij]
    rfl

theorem keepMembers_eq_map (members : Members) :
    keepMembers addresses members = members.map fun entry =>
      (entry.1, entry.2.withoutItems (intoMember entry.1 addresses)) := by
  induction members with
  | nil => rw [keepMembers, List.map_nil]
  | cons entry rest ih => rw [keepMembers, ih, List.map_cons]

/-- Which items are dropped depends neither on the order of the addresses nor on repetitions. -/
theorem withoutItems_congr {addresses' : List ItemAddress}
    (h : ∀ a, a ∈ addresses ↔ a ∈ addresses') (value : Json) :
    value.withoutItems addresses = value.withoutItems addresses' := by
  induction value using partsInduction generalizing addresses addresses' with
  | scalar value harr hobj =>
    cases value with
    | arr _ => cases harr
    | obj _ => cases hobj
    | _ => rfl
  | arr items ih =>
    rw [withoutItems, withoutItems, keepItems_eq_keepWith, keepItems_eq_keepWith,
      keepWith_addresses_congr fun i => h ⟨[], i⟩]
    refine congrArg Json.arr (keepWith_congr fun j item hitem => ?_)
    exact ih item (List.mem_of_getElem? hitem) (mem_into_congr h _)
  | obj members ih =>
    rw [withoutItems, withoutItems, keepMembers_eq_map, keepMembers_eq_map]
    refine congrArg Json.obj (List.map_congr_left fun entry hentry => ?_)
    exact congrArg (Prod.mk entry.1) (ih entry hentry (mem_into_congr h _))

/-- Deletions in an order that displaces nothing drop the addressed items and no others. -/
theorem deleteItems_eq_withoutItems {value : Json} (hformed : value.WellFormed)
    (h : addresses.Pairwise Before) (hplace : Undisplaced addresses)
    (hrange : ∀ a ∈ addresses, a.InRange value) :
    value.deleteItems addresses = value.withoutItems addresses := by
  induction value using partsInduction generalizing addresses with
  | scalar value harr hobj =>
    have hchild : ∀ token, value.child? token = none := by
      intro token
      cases value with
      | arr _ => cases harr
      | obj _ => cases hobj
      | _ => rfl
    have hwithout : value.withoutItems addresses = value := by
      cases value with
      | arr _ => cases harr
      | obj _ => cases hobj
      | _ => rw [withoutItems]; all_goals exact fun _ h => by cases h
    rw [deleteItems_of_no_child hchild (array_ne_nil harr hrange), hwithout]
  | arr items ih =>
    rw [deleteItems_eq_keepWith h fun i hi j hij => hplace.intoItem_eq_nil hi hij, withoutItems,
      keepItems_eq_keepWith]
    refine congrArg Json.arr (keepWith_congr fun j item hitem => ?_)
    rw [Nat.zero_add]
    have hmem := List.mem_of_getElem? hitem
    exact ih item hmem (wellFormed_arr.1 hformed item hmem) (pairwise_into h (itemToken_unique j))
      (hplace.into (itemToken_unique j)) (inRange_intoItem hrange hitem)
  | obj members ih =>
    obtain ⟨hascending, hmembers⟩ := wellFormed_obj.1 hformed
    rw [deleteItems_obj (array_ne_nil rfl hrange) hascending, withoutItems, keepMembers_eq_map]
    refine congrArg Json.obj (List.map_congr_left fun entry hentry => ?_)
    have hget := hascending.get?_of_mem hentry
    have hvalue := ih entry hentry (hmembers entry hentry)
      (pairwise_into h (memberToken_unique entry.1)) (hplace.into (memberToken_unique entry.1))
      (inRange_intoMember hrange hget)
    exact congrArg (Prod.mk entry.1) hvalue

end Json

end ResourceCatalog
