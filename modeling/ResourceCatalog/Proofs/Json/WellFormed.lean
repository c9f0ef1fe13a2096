import Mathlib
import ResourceCatalog.Pointer.Basic
import ResourceCatalog.Proofs.Keyed

/-!
# Well-formed documents

A document is well formed when every object in it, at any depth, has strictly ascending keys. Every
part of a well-formed document is well formed. It is indexable when the items of every array in it
have indices of 64 bits.
-/

namespace ResourceCatalog.Json

mutual

/-- The keys of every object are strictly ascending. -/
def WellFormed : Json → Prop
  | .arr items => ItemsWellFormed items
  | .obj members => Keyed.Ascending members ∧ MembersWellFormed members
  | _ => True

def ItemsWellFormed : List Json → Prop
  | [] => True
  | item :: rest => WellFormed item ∧ ItemsWellFormed rest

def MembersWellFormed : List (String × Json) → Prop
  | [] => True
  | (_, value) :: rest => WellFormed value ∧ MembersWellFormed rest

end

theorem itemsWellFormed_iff {items : List Json} :
    ItemsWellFormed items ↔ ∀ item ∈ items, item.WellFormed := by
  induction items with
  | nil => simp [ItemsWellFormed]
  | cons item rest ih => rw [ItemsWellFormed, ih, List.forall_mem_cons]

theorem membersWellFormed_iff {members : Members} :
    MembersWellFormed members ↔ ∀ entry ∈ members, entry.2.WellFormed := by
  induction members with
  | nil => simp [MembersWellFormed]
  | cons entry rest ih => rw [MembersWellFormed, ih, List.forall_mem_cons]

theorem wellFormed_arr {items : List Json} :
    (Json.arr items).WellFormed ↔ ∀ item ∈ items, item.WellFormed := by
  rw [WellFormed, itemsWellFormed_iff]

theorem wellFormed_obj {members : Members} : (Json.obj members).WellFormed ↔
    Keyed.Ascending members ∧ ∀ entry ∈ members, entry.2.WellFormed := by
  rw [WellFormed, membersWellFormed_iff]

theorem WellFormed.child {value child : Json} {token : String} (h : value.WellFormed)
    (hchild : value.child? token = some child) : child.WellFormed := by
  cases value with
  | arr items =>
    obtain ⟨i, _, hitem⟩ := Option.bind_eq_some_iff.1 hchild
    exact wellFormed_arr.1 h child (List.mem_of_getElem? hitem)
  | obj members => exact (wellFormed_obj.1 h).2 (token, child) (Keyed.mem_of_get? hchild)
  | _ => cases hchild

/-! ### Indices -/

mutual

/-- Every item of every array has an index of 64 bits. -/
def Indexable : Json → Prop
  | .arr items => items.length ≤ UInt64.size ∧ ItemsIndexable items
  | .obj members => MembersIndexable members
  | _ => True

def ItemsIndexable : List Json → Prop
  | [] => True
  | item :: rest => Indexable item ∧ ItemsIndexable rest

def MembersIndexable : List (String × Json) → Prop
  | [] => True
  | (_, value) :: rest => Indexable value ∧ MembersIndexable rest

end

theorem indexable_arr {items : List Json} : (Json.arr items).Indexable ↔
    items.length ≤ UInt64.size ∧ ∀ item ∈ items, item.Indexable := by
  have hitems : ItemsIndexable items ↔ ∀ item ∈ items, item.Indexable := by
    induction items with
    | nil => simp [ItemsIndexable]
    | cons item rest ih => rw [ItemsIndexable, ih, List.forall_mem_cons]
  rw [Indexable, hitems]

theorem indexable_obj {members : Members} :
    (Json.obj members).Indexable ↔ ∀ entry ∈ members, entry.2.Indexable := by
  have hmembers : MembersIndexable members ↔ ∀ entry ∈ members, entry.2.Indexable := by
    induction members with
    | nil => simp [MembersIndexable]
    | cons entry rest ih => rw [MembersIndexable, ih, List.forall_mem_cons]
  rw [Indexable, hmembers]

theorem Indexable.child {value child : Json} {token : String} (h : value.Indexable)
    (hchild : value.child? token = some child) : child.Indexable := by
  cases value with
  | arr items =>
    obtain ⟨i, _, hitem⟩ := Option.bind_eq_some_iff.1 hchild
    exact (indexable_arr.1 h).2 child (List.mem_of_getElem? hitem)
  | obj members => exact indexable_obj.1 h (token, child) (Keyed.mem_of_get? hchild)
  | _ => cases hchild

end ResourceCatalog.Json
