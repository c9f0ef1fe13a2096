import Mathlib
import ResourceCatalog.Proofs.Patch.WithoutItems

/-!
# Displaced items

A deletion of an item that is there makes the document smaller, so it is seen. When an item is
dropped that stands before, or is, an item that something is dropped inside of, then the later
deletion meets another item. There is always a document that shows it: behind that item it has
copies of it, and from these nothing was to be dropped.
-/

namespace ResourceCatalog

open ItemAddress

/-! ### Deletions make documents smaller -/

theorem Keyed.sum_insert (weight : Json → Nat) {members : Members}
    (h : Keyed.Ascending members) {key : String} {old : Json}
    (hold : Keyed.get? key members = some old) (value : Json) :
    ((Keyed.insert key value members).map fun entry => weight entry.2).sum + weight old =
      (members.map fun entry => weight entry.2).sum + weight value := by
  induction members with
  | nil => cases hold
  | cons entry rest ih =>
    obtain ⟨k, v⟩ := entry
    rw [Keyed.get?] at hold
    rw [Keyed.insert]
    split at hold
    · next heq =>
      obtain rfl := Option.some.inj hold
      rw [if_pos heq.symm]
      simp only [List.map_cons, List.sum_cons]
      omega
    · next hne =>
      have hlt : k < key := h.head_lt _ (Keyed.mem_of_get? hold)
      rw [if_neg (Ne.symm hne), if_neg (not_lt.2 (le_of_lt hlt))]
      have hrest := ih h.tail hold
      simp only [List.map_cons, List.sum_cons]
      omega

theorem Keyed.sum_erase_le (weight : Json → Nat) (key : String) (members : Members) :
    ((Keyed.erase key members).map fun entry => weight entry.2).sum ≤
      (members.map fun entry => weight entry.2).sum :=
  ((Keyed.erase_sublist key members).map _).sum_le_sum fun _ _ => Nat.zero_le _

namespace Json

variable {value child : Json} {token : String} {addresses : List ItemAddress}

theorem size_setChild (h : value.WellFormed) (hchild : value.child? token = some child)
    (child' : Json) :
    (value.setChild token child').size + child.size = value.size + child'.size := by
  cases value with
  | arr items =>
    obtain ⟨i, hi, hitem⟩ := Option.bind_eq_some_iff.1 hchild
    obtain ⟨hlt, rfl⟩ := List.getElem?_eq_some_iff.1 hitem
    have hnew := ((List.set_perm_cons_eraseIdx hlt child').map size).sum_nat
    have hold := ((List.getElem_cons_eraseIdx_perm hlt).map size).sum_nat
    rw [setChild, hi]
    dsimp only
    rw [size_arr, size_arr, hnew, ← hold]
    simp only [List.map_cons, List.sum_cons]
    omega
  | obj members =>
    have hsum := Keyed.sum_insert size (wellFormed_obj.1 h).1 hchild child'
    rw [setChild, size_obj, size_obj]
    omega
  | _ => cases hchild

theorem size_deleteItem_le (h : value.WellFormed) (index : Nat) (tokens : List String) :
    (value.deleteItem index tokens).size ≤ value.size := by
  induction tokens generalizing value with
  | nil =>
    cases value with
    | arr items =>
      have hsum := ((List.eraseIdx_sublist items index).map size).sum_le_sum
        fun _ _ => Nat.zero_le _
      rw [deleteItem, size_arr, size_arr]
      omega
    | obj members =>
      have hsum := Keyed.sum_erase_le size (toString index) members
      rw [deleteItem, size_obj, size_obj]
      omega
    | _ => exact le_rfl
  | cons token rest ih =>
    rw [deleteItem]
    split
    · next child hchild =>
      have hsize := size_setChild h hchild (child.deleteItem index rest)
      have hle := ih (h.child hchild)
      omega
    · exact le_rfl

theorem size_deleteItem_lt (h : value.WellFormed) {a : ItemAddress} (ha : a.InRange value) :
    (value.deleteItem a.index a.array).size < value.size := by
  obtain ⟨tokens, index⟩ := a
  induction tokens generalizing value with
  | nil =>
    obtain ⟨_, items, hat, hlt⟩ := ha
    obtain rfl := Option.some.inj hat
    dsimp only at hlt ⊢
    have hsum := ((List.getElem_cons_eraseIdx_perm hlt).map size).sum_nat
    have hpos := size_pos items[index]
    simp only [List.map_cons, List.sum_cons] at hsum
    rw [deleteItem, size_arr, size_arr]
    omega
  | cons token rest ih =>
    obtain ⟨child, hchild, hrange⟩ := inRange_cons.1 ha
    have hsize := size_setChild h hchild (child.deleteItem index rest)
    have hlt := ih (h.child hchild) hrange
    rw [deleteItem, hchild]
    dsimp only at hlt ⊢
    omega

theorem size_deleteItems_le (h : value.WellFormed) :
    (value.deleteItems addresses).size ≤ value.size := by
  induction addresses generalizing value with
  | nil => exact le_rfl
  | cons a rest ih =>
    calc (value.deleteItems (a :: rest)).size
        ≤ (value.deleteItem a.index a.array).size := ih (h.deleteItem _ _)
      _ ≤ value.size := size_deleteItem_le h _ _

/-- Deletions of items that are there are seen. -/
theorem deleteItems_ne (h : value.WellFormed) (hne : addresses ≠ [])
    (hrange : ∀ a ∈ addresses, a.InRange value) : value.deleteItems addresses ≠ value := by
  cases addresses with
  | nil => exact absurd rfl hne
  | cons a rest =>
    intro heq
    have hlt := size_deleteItem_lt h (hrange a List.mem_cons_self)
    have hle : (value.deleteItems (a :: rest)).size ≤ (value.deleteItem a.index a.array).size :=
      size_deleteItems_le (h.deleteItem a.index a.array)
    rw [heq] at hle
    omega

/-! ### What is left of an array -/

theorem keepWith_append (change : Nat → Json → Json) (i : Nat) (front back : List Json) :
    keepWith addresses change i (front ++ back) =
      keepWith addresses change i front ++ keepWith addresses change (i + front.length) back := by
  induction front generalizing i with
  | nil => rfl
  | cons item rest ih =>
    have hshift : i + (item :: rest).length = i + 1 + rest.length := by
      rw [List.length_cons]
      omega
    rw [List.cons_append, keepWith, keepWith, ih, hshift]
    split
    · rfl
    · rfl

theorem length_keepWith_le (change : Nat → Json → Json) (i : Nat) (items : List Json) :
    (keepWith addresses change i items).length ≤ items.length := by
  induction items generalizing i with
  | nil => exact le_rfl
  | cons item rest ih =>
    have hrest := ih (i + 1)
    rw [keepWith]
    split
    · exact Nat.le_succ_of_le hrest
    · exact Nat.succ_le_succ hrest

theorem length_keepWith_lt (change : Nat → Json → Json) {i j : Nat} {items : List Json}
    (hj : j < items.length) (hdropped : ⟨[], i + j⟩ ∈ addresses) :
    (keepWith addresses change i items).length < items.length := by
  induction items generalizing i j with
  | nil => exact absurd hj (Nat.not_lt_zero j)
  | cons item rest ih =>
    rw [keepWith]
    cases j with
    | zero =>
      rw [if_pos (show (⟨[], i⟩ : ItemAddress) ∈ addresses from hdropped)]
      exact Nat.lt_succ_of_le (length_keepWith_le change (i + 1) rest)
    | succ j =>
      have hnext : (⟨[], i + 1 + j⟩ : ItemAddress) ∈ addresses := by
        rwa [Nat.add_right_comm, Nat.add_assoc]
      have hrest := ih (Nat.lt_of_succ_lt_succ hj) hnext
      split
      · exact Nat.lt_succ_of_lt hrest
      · exact Nat.succ_lt_succ hrest

theorem mem_keepWith {change : Nat → Json → Json} {i : Nat} {items : List Json} {y : Json}
    (h : y ∈ keepWith addresses change i items) :
    ∃ j item, i ≤ j ∧ item ∈ items ∧ y = change j item := by
  induction items generalizing i with
  | nil => exact absurd h List.not_mem_nil
  | cons item rest ih =>
    have hrest : y ∈ keepWith addresses change (i + 1) rest →
        ∃ j item', i ≤ j ∧ item' ∈ item :: rest ∧ y = change j item' := by
      intro hmem
      obtain ⟨j, item', hj, hitem, rfl⟩ := ih hmem
      exact ⟨j, item', Nat.le_of_succ_le hj, List.mem_cons_of_mem _ hitem, rfl⟩
    rw [keepWith] at h
    split at h
    · exact hrest h
    · rcases List.mem_cons.1 h with rfl | hmem
      · exact ⟨i, item, le_rfl, List.mem_cons_self, rfl⟩
      · exact hrest hmem

/-- When an item is dropped and enough copies of one value stand behind it, a copy moves up to the
last place before the copies. -/
theorem getElem?_keepWith_copies {change : Nat → Json → Json} {i k n : Nat} {copy : Json}
    {front : List Json} (hlength : front.length = k + 1) (hi : ⟨[], i⟩ ∈ addresses) (hik : i ≤ k)
    (hcopy : ∀ j, k < j → change j copy = copy) (hbound : ∀ j, ⟨[], j⟩ ∈ addresses → j < n) :
    (keepWith addresses change 0 (front ++ List.replicate n copy))[k]? = some copy := by
  have hfront : (keepWith addresses change 0 front).length < k + 1 := by
    rw [← hlength]
    exact length_keepWith_lt change (by omega) (Nat.zero_add i ▸ hi)
  -- Behind the last addressed item everything is kept, and that is more than `k` copies.
  have henough : k < (keepWith addresses change 0 (front ++ List.replicate n copy)).length := by
    have hsplit := List.take_append_drop n (front ++ List.replicate n copy)
    rw [← hsplit, keepWith_append, List.length_append]
    have htake : ((front ++ List.replicate n copy).take n).length = n := by
      rw [List.length_take, List.length_append, List.length_replicate]
      omega
    have hdrop : ((front ++ List.replicate n copy).drop n).length = k + 1 := by
      rw [List.length_drop, List.length_append, List.length_replicate]
      omega
    rw [htake, keepWith_of_not_mem (i := 0 + n) fun j hj hmem => ?_, List.length_mapIdx, hdrop]
    · omega
    · have hlt := hbound j hmem
      omega
  rw [keepWith_append, hlength, Nat.zero_add] at henough ⊢
  rw [List.length_append] at henough
  rw [List.getElem?_append_right (by omega)]
  have hplace : k - (keepWith addresses change 0 front).length <
      (keepWith addresses change (k + 1) (List.replicate n copy)).length := by omega
  rw [List.getElem?_eq_getElem hplace]
  obtain ⟨j, item, hj, hitem, hsame⟩ := mem_keepWith (List.getElem_mem hplace)
  rw [hsame, List.eq_of_mem_replicate hitem, hcopy j hj]

end Json

namespace ItemAddress

variable {addresses : List ItemAddress}

/-! ### Documents with another part -/

/-- Only items that there are have something dropped inside of them. -/
theorem exists_item_of_into {items : List Json}
    (hrange : ∀ a ∈ addresses, a.InRange (.arr items)) {j : Nat} (hj : intoItem j addresses ≠ []) :
    ∃ item, items[j]? = some item := by
  obtain ⟨a, ha⟩ := List.exists_mem_of_ne_nil _ hj
  obtain ⟨token, htoken, hmem⟩ := mem_into.1 ha
  obtain ⟨item, hitem, _⟩ := inRange_cons.1 (hrange _ hmem)
  rw [Json.child?, beq_iff_eq.1 htoken, Option.bind_some] at hitem
  exact ⟨item, hitem⟩

theorem lt_length_of_mem {items : List Json} (hrange : ∀ a ∈ addresses, a.InRange (.arr items))
    {j : Nat} (hj : ⟨[], j⟩ ∈ addresses) : j < items.length := by
  obtain ⟨_, items', hat, hlt⟩ := hrange _ hj
  obtain rfl := Json.arr.inj (Option.some.inj hat)
  exact hlt

/-- An array with no fewer items will do as well if what is dropped inside of an item is in the one
that takes its place. -/
theorem inRange_of_items {items others : List Json}
    (hrange : ∀ a ∈ addresses, a.InRange (.arr items)) (hlength : items.length ≤ others.length)
    (hinside : ∀ j, intoItem j addresses ≠ [] →
      ∃ other, others[j]? = some other ∧ ∀ a ∈ intoItem j addresses, a.InRange other) :
    ∀ a ∈ addresses, a.InRange (.arr others) := by
  intro a ha
  obtain ⟨array, index⟩ := a
  cases array with
  | nil => exact ⟨(hrange _ ha).1, others, rfl, lt_of_lt_of_le (lt_length_of_mem hrange ha) hlength⟩
  | cons token rest =>
    obtain ⟨child, hchild, _⟩ := inRange_cons.1 (hrange _ ha)
    obtain ⟨j, hj, _⟩ := Option.bind_eq_some_iff.1 hchild
    have hmem : ⟨rest, index⟩ ∈ intoItem j addresses := mem_into.2 ⟨token, beq_iff_eq.2 hj, ha⟩
    obtain ⟨other, hother, hdeep⟩ := hinside j (List.ne_nil_of_mem hmem)
    rw [inRange_cons, Json.child?, hj, Option.bind_some]
    exact ⟨other, hother, hdeep _ hmem⟩

theorem inRange_set {items : List Json} (hrange : ∀ a ∈ addresses, a.InRange (.arr items)) {i : Nat}
    (hi : i < items.length) {other : Json}
    (hother : ∀ a ∈ intoItem i addresses, a.InRange other) :
    ∀ a ∈ addresses, a.InRange (.arr (items.set i other)) := by
  refine inRange_of_items hrange (List.length_set ..).ge fun j hj => ?_
  by_cases hij : i = j
  · subst hij
    exact ⟨other, List.getElem?_set_self hi, hother⟩
  · obtain ⟨item, hitem⟩ := exists_item_of_into hrange hj
    rw [List.getElem?_set_ne hij]
    exact ⟨item, hitem, inRange_intoItem hrange hitem⟩

theorem inRange_insert {members : Members} (hrange : ∀ a ∈ addresses, a.InRange (.obj members))
    {key : String} {other : Json} (hother : ∀ a ∈ intoMember key addresses, a.InRange other) :
    ∀ a ∈ addresses, a.InRange (.obj (Keyed.insert key other members)) := by
  intro a ha
  obtain ⟨array, index⟩ := a
  cases array with
  | nil => exact absurd rfl (array_ne_nil rfl hrange _ ha)
  | cons token rest =>
    rw [inRange_cons]
    by_cases hsame : token = key
    · subst hsame
      refine ⟨other, Keyed.get?_insert_self _ _ _, ?_⟩
      exact hother _ (mem_into.2 ⟨token, beq_self_eq_true token, ha⟩)
    · obtain ⟨child, hchild, hdeep⟩ := inRange_cons.1 (hrange _ ha)
      exact ⟨child, (Keyed.get?_insert_of_ne hsame _ _).trans hchild, hdeep⟩

/-! ### Where a displacement is -/

theorem undisplaced_of_members (hdeep : ∀ a ∈ addresses, a.array ≠ [])
    (h : ∀ key, Undisplaced (intoMember key addresses)) : Undisplaced addresses := by
  intro a ha b hb token rest i heq hi
  obtain ⟨array, index⟩ := a
  obtain ⟨arrayB, indexB⟩ := b
  cases array with
  | nil => exact absurd rfl (hdeep _ ha)
  | cons key tail =>
    dsimp only at heq ⊢
    subst heq
    have hamem : ⟨tail, index⟩ ∈ intoMember key addresses :=
      mem_into.2 ⟨key, beq_self_eq_true key, ha⟩
    have hbmem : ⟨tail ++ token :: rest, indexB⟩ ∈ intoMember key addresses :=
      mem_into.2 ⟨key, beq_self_eq_true key, hb⟩
    exact h key _ hamem _ hbmem token rest i rfl hi

theorem undisplaced_of_items {items : List Json} (hrange : ∀ a ∈ addresses, a.InRange (.arr items))
    (hown : ∀ i, ⟨[], i⟩ ∈ addresses → ∀ j, i ≤ j → intoItem j addresses = [])
    (h : ∀ i, Undisplaced (intoItem i addresses)) : Undisplaced addresses := by
  intro a ha b hb token rest i heq hi
  obtain ⟨array, index⟩ := a
  obtain ⟨arrayB, indexB⟩ := b
  dsimp only at heq ⊢
  subst heq
  cases array with
  | nil =>
    by_contra hle
    have hbmem : ⟨rest, indexB⟩ ∈ intoItem i addresses :=
      mem_into.2 ⟨token, beq_iff_eq.2 hi, hb⟩
    rw [hown index ha i (not_lt.1 hle)] at hbmem
    exact List.not_mem_nil hbmem
  | cons key tail =>
    obtain ⟨child, hchild, _⟩ := inRange_cons.1 (hrange _ ha)
    obtain ⟨j, hj, _⟩ := Option.bind_eq_some_iff.1 hchild
    have hamem : ⟨tail, index⟩ ∈ intoItem j addresses := mem_into.2 ⟨key, beq_iff_eq.2 hj, ha⟩
    have hbmem : ⟨tail ++ token :: rest, indexB⟩ ∈ intoItem j addresses :=
      mem_into.2 ⟨key, beq_iff_eq.2 hj, hb⟩
    exact h j _ hamem _ hbmem token rest i rfl hi

theorem ne_nil_of_displaced (h : ¬ Undisplaced addresses) : addresses ≠ [] := by
  rintro rfl
  exact h fun a ha => absurd ha List.not_mem_nil

/-- There is a last item that something is dropped inside of. -/
theorem exists_last_into {items : List Json} (hrange : ∀ a ∈ addresses, a.InRange (.arr items))
    {j : Nat} (hj : intoItem j addresses ≠ []) :
    ∃ k, j ≤ k ∧ intoItem k addresses ≠ [] ∧ ∀ i, k < i → intoItem i addresses = [] := by
  have hbound : ∀ i, intoItem i addresses ≠ [] → i ≤ items.length := by
    intro i hi
    obtain ⟨item, hitem⟩ := exists_item_of_into hrange hi
    exact le_of_lt (List.getElem?_eq_some_iff.1 hitem).1
  refine ⟨Nat.findGreatest (fun i => intoItem i addresses ≠ []) items.length,
    Nat.le_findGreatest (hbound j hj) hj,
    Nat.findGreatest_spec (P := fun i => intoItem i addresses ≠ []) (hbound j hj) hj, fun i hi => ?_⟩
  by_contra hne
  exact absurd (Nat.le_findGreatest (hbound i hne) hne) (not_le.2 hi)

end ItemAddress

namespace Json

variable {addresses : List ItemAddress}

/-! ### A document that shows it -/

theorem WellFormed.withoutItems_nil {value : Json} (h : value.WellFormed) :
    value.withoutItems [] = value :=
  (deleteItems_eq_withoutItems h List.Pairwise.nil (fun _ ha => absurd ha List.not_mem_nil)
    fun _ ha => absurd ha List.not_mem_nil).symm

/-- The items up to one of them, and behind it copies of it. -/
def withCopies (items : List Json) (k : Nat) (item : Json) : List Json :=
  items.take (k + 1) ++ List.replicate items.length item

section Copies

variable {items : List Json} {k : Nat} {item : Json}

theorem wellFormed_withCopies (hformed : (Json.arr items).WellFormed) (hitem : item.WellFormed) :
    (Json.arr (withCopies items k item)).WellFormed := by
  refine wellFormed_arr.2 fun other hmem => ?_
  rcases List.mem_append.1 hmem with hmem | hmem
  · exact wellFormed_arr.1 hformed other (List.mem_of_mem_take hmem)
  · exact List.eq_of_mem_replicate hmem ▸ hitem

theorem getElem?_withCopies (hk : k < items.length) {j : Nat} (hj : j ≤ k) :
    (withCopies items k item)[j]? = items[j]? := by
  have hlength : (items.take (k + 1)).length = k + 1 := List.length_take_of_le hk
  rw [withCopies, List.getElem?_append_left (by omega), List.getElem?_take_of_lt (by omega)]

theorem inRange_withCopies (hrange : ∀ a ∈ addresses, a.InRange (.arr items)) (hk : k < items.length)
    (hlast : ∀ j, k < j → intoItem j addresses = []) :
    ∀ a ∈ addresses, a.InRange (.arr (withCopies items k item)) := by
  refine inRange_of_items hrange ?_ fun j hj => ?_
  · rw [withCopies, List.length_append, List.length_replicate]
    exact Nat.le_add_left _ _
  · obtain ⟨other, hother⟩ := exists_item_of_into hrange hj
    rw [getElem?_withCopies hk (not_lt.1 fun hlt => hj (hlast j hlt))]
    exact ⟨other, hother, inRange_intoItem hrange hother⟩

end Copies

/-- An item is dropped in front of items that something is dropped inside of. Copies of the last of
these stand behind it, so one of them comes to its place and is not the item without what is dropped
inside of it. -/
theorem exists_displaced_here {items : List Json} (hformed : (Json.arr items).WellFormed)
    (h : addresses.Pairwise Before) (hrange : ∀ a ∈ addresses, a.InRange (.arr items)) {i j : Nat}
    (hi : ⟨[], i⟩ ∈ addresses) (hij : i ≤ j) (hj : intoItem j addresses ≠ []) :
    ∃ other : Json, other.WellFormed ∧ (∀ a ∈ addresses, a.InRange other) ∧
      other.deleteItems addresses ≠ other.withoutItems addresses := by
  obtain ⟨k, hjk, hk, hlast⟩ := exists_last_into hrange hj
  obtain ⟨item, hitem⟩ := exists_item_of_into hrange hk
  have hklt := (List.getElem?_eq_some_iff.1 hitem).1
  have hitemFormed := wellFormed_arr.1 hformed item (List.mem_of_getElem? hitem)
  refine ⟨.arr (withCopies items k item), wellFormed_withCopies hformed hitemFormed,
    inRange_withCopies hrange hklt hlast, fun heq => ?_⟩
  rw [deleteItems_eq_mapIdx h, withoutItems, keepItems_eq_keepWith] at heq
  have hplace := congrArg (fun items : List Json => items[k]?) (Json.arr.inj heq)
  have hlength : (items.take (k + 1)).length = k + 1 := List.length_take_of_le hklt
  have hbound := fun j => lt_length_of_mem (j := j) hrange
  rw [List.getElem?_mapIdx, withCopies,
    getElem?_keepWith_copies hlength hi (le_trans hij hjk) (fun _ _ => rfl) hbound,
    getElem?_keepWith_copies hlength hi (le_trans hij hjk) (fun j hj => ?_) hbound] at hplace
  · exact deleteItems_ne hitemFormed hk (inRange_intoItem hrange hitem) (Option.some.inj hplace)
  · rw [hlast j hj]
    exact hitemFormed.withoutItems_nil

/-- Where something would be displaced, some document shows it. -/
theorem exists_displaced {value : Json} (hformed : value.WellFormed)
    (h : addresses.Pairwise Before) (hrange : ∀ a ∈ addresses, a.InRange value)
    (hplace : ¬ Undisplaced addresses) :
    ∃ other : Json, other.WellFormed ∧ (∀ a ∈ addresses, a.InRange other) ∧
      other.deleteItems addresses ≠ other.withoutItems addresses := by
  induction value using partsInduction generalizing addresses with
  | scalar value harr hobj =>
    refine absurd (fun a ha => ?_) hplace
    obtain ⟨array, index⟩ := a
    cases array with
    | nil => exact absurd rfl (array_ne_nil harr hrange _ ha)
    | cons token rest =>
      obtain ⟨child, hchild, _⟩ := inRange_cons.1 (hrange _ ha)
      cases value with
      | arr _ => cases harr
      | obj _ => cases hobj
      | _ => cases hchild
  | arr items ih =>
    by_cases hown : ∀ i, ⟨[], i⟩ ∈ addresses → ∀ j, i ≤ j → intoItem j addresses = []
    · obtain ⟨i, hi⟩ : ∃ i, ¬ Undisplaced (intoItem i addresses) := by
        by_contra hnone
        exact hplace (undisplaced_of_items hrange hown (not_exists_not.1 hnone))
      obtain ⟨item, hchild⟩ := exists_item_of_into hrange (ne_nil_of_displaced hi)
      have hitem := List.mem_of_getElem? hchild
      have hlt := (List.getElem?_eq_some_iff.1 hchild).1
      obtain ⟨other, hother, hotherRange, hne⟩ := ih item hitem (wellFormed_arr.1 hformed item hitem)
        (pairwise_into h (itemToken_unique i)) (inRange_intoItem hrange hchild) hi
      refine ⟨.arr (items.set i other), ?_, inRange_set hrange hlt hotherRange, ?_⟩
      · refine wellFormed_arr.2 fun item' hitem' => ?_
        rcases List.mem_or_eq_of_mem_set hitem' with hitem' | rfl
        · exact wellFormed_arr.1 hformed item' hitem'
        · exact hother
      · intro heq
        rw [deleteItems_eq_keepWith h hown, withoutItems, keepItems_eq_keepWith] at heq
        have hkept : (⟨[], 0 + i⟩ : ItemAddress) ∉ addresses := by
          intro hdropped
          rw [Nat.zero_add] at hdropped
          exact ne_nil_of_displaced hi (hown i hdropped i le_rfl)
        have hsame := keepWith_injective (Json.arr.inj heq) (List.getElem?_set_self hlt) hkept
        rw [Nat.zero_add] at hsame
        exact hne hsame
    · push Not at hown
      obtain ⟨i, hi, j, hij, hj⟩ := hown
      exact exists_displaced_here hformed h hrange hi hij hj
  | obj members ih =>
    obtain ⟨hascending, hmembers⟩ := wellFormed_obj.1 hformed
    have hdeep := array_ne_nil rfl hrange
    obtain ⟨key, hkey⟩ : ∃ key, ¬ Undisplaced (intoMember key addresses) := by
      by_contra hnone
      exact hplace (undisplaced_of_members hdeep (not_exists_not.1 hnone))
    obtain ⟨b, hb⟩ := List.exists_mem_of_ne_nil _ (ne_nil_of_displaced hkey)
    obtain ⟨token, htoken, hmem⟩ := mem_into.1 hb
    obtain rfl := beq_iff_eq.1 htoken
    obtain ⟨value, hvalue, _⟩ := inRange_cons.1 (hrange _ hmem)
    have hentry := Keyed.mem_of_get? hvalue
    obtain ⟨other, hother, hotherRange, hne⟩ := ih _ hentry (hmembers _ hentry)
      (pairwise_into h (memberToken_unique token)) (inRange_intoMember hrange hvalue) hkey
    have hthere : ((Json.obj members).child? token).isSome := by
      rw [hvalue]
      rfl
    have hotherFormed := hformed.setChild hthere hother
    refine ⟨_, hotherFormed, inRange_insert hrange hotherRange, fun heq => ?_⟩
    rw [setChild] at heq hotherFormed
    rw [deleteItems_obj hdeep (wellFormed_obj.1 hotherFormed).1, withoutItems,
      keepMembers_eq_map] at heq
    have hget := congrArg (Keyed.get? token) (Json.obj.inj heq)
    have hdeleted := Keyed.get?_map (fun key (value : Json) =>
      value.deleteItems (intoMember key addresses)) token (Keyed.insert token other members)
    have hwithout := Keyed.get?_map (fun key (value : Json) =>
      value.withoutItems (intoMember key addresses)) token (Keyed.insert token other members)
    rw [Keyed.get?_insert_self] at hdeleted hwithout
    exact hne (Option.some.inj (hdeleted.symm.trans (hget.trans hwithout)))

end Json

end ResourceCatalog
