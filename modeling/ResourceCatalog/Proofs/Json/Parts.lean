import Mathlib
import ResourceCatalog.Json.Basic

/-!
# The parts of a document

What holds of scalars, of an array when it holds of the items, and of an object when it holds of the
members, holds of every document. The size of a container is one more than the sizes of its parts.
The values inside a document are the document, its parts, the parts of these and so on.
-/

namespace ResourceCatalog.Json

/-- Induction over the parts of a document. -/
@[elab_as_elim]
theorem partsInduction {motive : Json → Prop}
    (scalar : ∀ value, value.isArray = false → value.isObject = false → motive value)
    (arr : ∀ items, (∀ item ∈ items, motive item) → motive (.arr items))
    (obj : ∀ members : Members, (∀ entry ∈ members, motive entry.2) → motive (.obj members)) :
    (value : Json) → motive value
  | .null => scalar .null rfl rfl
  | .bool b => scalar (.bool b) rfl rfl
  | .num n => scalar (.num n) rfl rfl
  | .str s => scalar (.str s) rfl rfl
  | .arr items => arr items fun item _ => partsInduction scalar arr obj item
  | .obj members => obj members fun entry _ => partsInduction scalar arr obj entry.2
termination_by value => sizeOf value
decreasing_by
  · have hitem := List.sizeOf_lt_of_mem ‹item ∈ items›
    rw [Json.arr.sizeOf_spec]
    omega
  · have hentry := List.sizeOf_lt_of_mem ‹entry ∈ members›
    have hvalue : sizeOf entry = 1 + sizeOf entry.1 + sizeOf entry.2 := rfl
    rw [Json.obj.sizeOf_spec]
    omega

theorem sizeItems_eq (items : List Json) : sizeItems items = (items.map size).sum := by
  induction items with
  | nil => rfl
  | cons item rest ih => rw [sizeItems, ih, List.map_cons, List.sum_cons]

theorem sizeMembers_eq (members : Members) :
    sizeMembers members = (members.map fun entry => entry.2.size).sum := by
  induction members with
  | nil => rfl
  | cons entry rest ih => rw [sizeMembers, ih, List.map_cons, List.sum_cons]

theorem size_arr (items : List Json) : (Json.arr items).size = 1 + (items.map size).sum := by
  rw [size, sizeItems_eq]

theorem size_obj (members : Members) :
    (Json.obj members).size = 1 + (members.map fun entry => entry.2.size).sum := by
  rw [size, sizeMembers_eq]

theorem size_pos (value : Json) : 0 < value.size := by
  cases value with
  | arr items => rw [size_arr]; omega
  | obj members => rw [size_obj]; omega
  | _ => exact Nat.one_pos

theorem size_lt_of_mem {members : Members} {entry : String × Json} (h : entry ∈ members) :
    entry.2.size < (Json.obj members).size := by
  rw [size_obj]
  have hle := List.le_sum_of_mem (List.mem_map_of_mem (f := fun entry => entry.2.size) h)
  omega

/-! ### Values inside a document -/

/-- The items of an array and the values of an object. -/
def Child : Json → Json → Prop
  | .arr items, part => part ∈ items
  | .obj members, part => part ∈ Keyed.values members
  | _, _ => False

/-- A value somewhere in a document. -/
def Encloses (document : Json) : Json → Prop := Relation.ReflTransGen Child document

end ResourceCatalog.Json
