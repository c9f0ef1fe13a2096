import Mathlib
import ResourceCatalog.Proofs.Patch.RemovalOrder

/-!
# Edits of members

A rule about objects edits the members of the object that it looks at: it removes one, adds one or
replaces one. The patch of such an edit does the edit at the place of the object and nothing else,
provided that its key cannot be taken for an item of an array. The patches of such edits are applied
in the order in which they were asked for.
-/

namespace ResourceCatalog

/-- An edit of the members of an object. -/
inductive MemberEdit where
  | remove (key : String)
  | add (key : String) (value : Json)
  /-- A member that is not there is not replaced. -/
  | replace (key : String) (value : Json)

/-- A key that addresses a member and never an item of an array. -/
structure Pointer.NamesMember (key : String) : Prop where
  index : Pointer.index? key = none
  notEnd : key ≠ "-"
  spelled : Pointer.spelledNumber? (Pointer.escape key) = none

instance (key : String) : Decidable (Pointer.NamesMember key) :=
  decidable_of_iff (Pointer.index? key = none ∧ key ≠ "-" ∧
    Pointer.spelledNumber? (Pointer.escape key) = none)
    ⟨fun ⟨h, h', h''⟩ => ⟨h, h', h''⟩, fun h => ⟨h.index, h.notEnd, h.spelled⟩⟩

namespace MemberEdit

def key : MemberEdit → String
  | remove key | add key _ | replace key _ => key

/-- The value that the edit puts under its key. -/
def value? : MemberEdit → Option Json
  | remove _ => none
  | add _ value | replace _ value => some value

/-- The patch that asks for the edit at the object at some tokens. -/
def patch (place : List String) : MemberEdit → Patch
  | remove key => .remove (Pointer.join (Pointer.ofTokens place) key)
  | add key value => .add (Pointer.join (Pointer.ofTokens place) key) value
  | replace key value => .replace (Pointer.join (Pointer.ofTokens place) key) value

/-- The members after the edit. -/
def onMembers (members : Members) : MemberEdit → Members
  | remove key => Keyed.erase key members
  | add key value => Keyed.insert key value members
  | replace key value =>
    if (Keyed.get? key members).isSome then Keyed.insert key value members else members

/-- What the edit makes of the member under its key. -/
def onMember (member? : Option Json) : MemberEdit → Option Json
  | remove _ => none
  | add _ value => some value
  | replace _ value => member?.map fun _ => value

def onValue (edit : MemberEdit) : Json → Json
  | .obj members => .obj (edit.onMembers members)
  | value => value

variable {edit : MemberEdit} {members : Members}

/-! ### Members after an edit -/

theorem ascending_onMembers (h : Keyed.Ascending members) (edit : MemberEdit) :
    Keyed.Ascending (edit.onMembers members) := by
  cases edit with
  | remove key => exact Keyed.ascending_erase h key
  | add key value => exact Keyed.ascending_insert h key value
  | replace key value =>
    rw [onMembers]
    split
    · exact Keyed.ascending_insert h key value
    · exact h

theorem get?_onMembers_of_ne {key : String} (h : key ≠ edit.key) (members : Members) :
    Keyed.get? key (edit.onMembers members) = Keyed.get? key members := by
  cases edit with
  | remove other => exact Keyed.get?_erase_of_ne h members
  | add other value => exact Keyed.get?_insert_of_ne h value members
  | replace other value =>
    rw [onMembers]
    split
    · exact Keyed.get?_insert_of_ne h value members
    · rfl

theorem get?_onMembers_self (h : Keyed.Ascending members) (edit : MemberEdit) :
    Keyed.get? edit.key (edit.onMembers members) = edit.onMember (Keyed.get? edit.key members) := by
  cases edit with
  | remove key => exact Keyed.get?_erase_self h key
  | add key value => exact Keyed.get?_insert_self key value members
  | replace key value =>
    change Keyed.get? key (ite _ _ _) = (Keyed.get? key members).map fun _ => value
    cases hget : Keyed.get? key members with
    | none => simpa using hget
    | some old => simp

theorem mem_onMembers {entry : String × Json} (h : entry ∈ edit.onMembers members) :
    entry ∈ members ∨ edit.key = entry.1 ∧ edit.value? = some entry.2 := by
  cases edit with
  | remove key => exact Or.inl ((Keyed.erase_sublist key members).subset h)
  | add key value =>
    rcases Keyed.mem_insert h with rfl | hmem
    · exact Or.inr ⟨rfl, rfl⟩
    · exact Or.inl hmem
  | replace key value =>
    rw [onMembers] at h
    split at h
    · rcases Keyed.mem_insert h with rfl | hmem
      · exact Or.inr ⟨rfl, rfl⟩
      · exact Or.inl hmem
    · exact Or.inl h

theorem wellFormed_onValue (hvalue : ∀ v, edit.value? = some v → v.WellFormed) {value : Json}
    (h : value.WellFormed) : (edit.onValue value).WellFormed := by
  cases value with
  | obj members =>
    obtain ⟨hascending, hmembers⟩ := Json.wellFormed_obj.1 h
    refine Json.wellFormed_obj.2 ⟨ascending_onMembers hascending edit, fun entry hentry => ?_⟩
    rcases mem_onMembers hentry with hmem | ⟨_, hput⟩
    · exact hmembers entry hmem
    · exact hvalue entry.2 hput
  | _ => exact h

/-! ### The patch of an edit -/

theorem reaches_takeFrom {key : String} (hkey : Pointer.NamesMember key) (path : String)
    (value : Json) :
    Json.Reaches (some (Patch.takeFrom path key value)) value ((remove key).onValue value) := by
  cases value with
  | arr items =>
    refine Or.inr ⟨Or.inr ⟨.invalidPointer path, ?_⟩, rfl⟩
    rw [Patch.takeFrom, Patch.indexIn, hkey.index]
    rfl
  | obj members =>
    rw [Patch.takeFrom]
    by_cases hmem : members.any (fun entry => entry.1 == key) = true
    · exact Or.inl (congrArg some (if_pos hmem))
    · refine Or.inr ⟨Or.inr ⟨.missing path, congrArg some (if_neg hmem)⟩, ?_⟩
      rw [onValue, onMembers, Keyed.erase_of_absent fun hkey => hmem (Keyed.any_key_iff.2 hkey)]
  | _ => exact Or.inr ⟨Or.inr ⟨_, rfl⟩, rfl⟩

theorem reaches_putInto {key : String} (hkey : Pointer.NamesMember key) (path : String)
    (put value : Json) :
    Json.Reaches (some (Patch.putInto path put key value)) value ((add key put).onValue value) := by
  cases value with
  | arr items =>
    refine Or.inr ⟨Or.inr ⟨.invalidPointer path, ?_⟩, rfl⟩
    rw [Patch.putInto, if_neg hkey.notEnd, Patch.indexIn, hkey.index]
    rfl
  | obj members => exact Or.inl rfl
  | _ => exact Or.inr ⟨Or.inr ⟨_, rfl⟩, rfl⟩

theorem reaches_replace {key : String} (hkey : Pointer.NamesMember key) (put value : Json) :
    Json.Reaches (value.modifyAt? (fun _ => Except.ok (ε := ApplyError) put) [key]) value
      ((replace key put).onValue value) := by
  rw [Json.modifyAt?]
  cases value with
  | arr items =>
    refine Or.inr ⟨Or.inl ?_, rfl⟩
    rw [Json.child?, hkey.index]
    rfl
  | obj members =>
    rw [Json.child?, onValue, onMembers]
    cases hget : Keyed.get? key members with
    | none => exact Or.inr ⟨Or.inl rfl, rfl⟩
    | some old => exact Or.inl rfl
  | _ => exact Or.inr ⟨Or.inl rfl, rfl⟩

/-- The patch of an edit does the edit at its place, also when it is refused. -/
theorem apply_patch (hkey : Pointer.NamesMember edit.key) (place : List String) {document : Json}
    (h : document.WellFormed) :
    ((edit.patch place).apply document).document = document.mapAt edit.onValue place := by
  cases edit with
  | remove key =>
    rw [patch, Patch.apply, Patch.deleteAt, if_neg (Pointer.join_ne_empty _ _)]
    exact Patch.document_whole_inContainer (reaches_takeFrom hkey _) place h
  | add key value =>
    rw [patch, Patch.apply, Patch.insertAt, if_neg (Pointer.join_ne_empty _ _)]
    exact Patch.document_whole_inContainer (reaches_putInto hkey _ value) place h
  | replace key value =>
    rw [patch, Patch.apply, Patch.replaceAt, ← Pointer.ofTokens_append_singleton,
      Pointer.tokens?_ofTokens, Option.bind_some]
    rcases Json.reaches_modifyAt? (@reaches_replace key hkey value) place h with
      hok | ⟨hnone | ⟨e, herr⟩, hsame⟩
    · rw [hok]
      rfl
    · rw [hnone, hsame]
      rfl
    · rw [herr, hsame]
      rfl

theorem itemRemoval?_patch (hkey : Pointer.NamesMember edit.key) (place : List String)
    (document : Json) : itemRemoval? document (edit.patch place) = none := by
  cases edit with
  | remove key =>
    rw [patch, itemRemoval?, Pointer.cutLast_join]
    have hspelled : Pointer.spelledNumber? (String.ofList (Pointer.escapeChars key.toList)) = none :=
      hkey.spelled
    simp only [Option.bind_eq_bind, Option.bind_some, hspelled]
    rfl
  | _ => rfl

end MemberEdit

end ResourceCatalog
