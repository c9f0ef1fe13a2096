import Mathlib
import ResourceCatalog.Patch.Settle
import ResourceCatalog.Proofs.Json.Places
import ResourceCatalog.Proofs.Pointer.Tokens

/-!
# Deleting items of arrays

An item of an array is addressed by the tokens of the array and an index. A patch that removes it
does what `Json.deleteItem` does along the tokens, and a patch that is refused is a deletion of
nothing. Deletions that all lead into the parts of a container are, for each part, the deletions
that lead into it, whatever the order in which they are mixed.
-/

namespace ResourceCatalog

/-- An item of an array: the tokens of the array and the index of the item. -/
structure ItemAddress where
  array : List String
  index : Nat
  deriving DecidableEq, Repr

namespace ItemAddress

/-- The pointer of the item. -/
def pointer (a : ItemAddress) : String :=
  Pointer.join (Pointer.ofTokens a.array) (toString a.index)

/-- There is such an item, and its index is a number of 64 bits. -/
def InRange (a : ItemAddress) (document : Json) : Prop :=
  a.index < UInt64.size ∧
    ∃ items, document.at? a.array = some (.arr items) ∧ a.index < items.length

/-- The addresses that lead on from a part, for those that lead into it. -/
def into (leadsIn : String → Bool) (addresses : List ItemAddress) : List ItemAddress :=
  addresses.filterMap fun a =>
    match a.array with
    | [] => none
    | token :: rest => if leadsIn token then some ⟨rest, a.index⟩ else none

/-- The addresses that lead on from a member. -/
def intoMember (key : String) : List ItemAddress → List ItemAddress := into (· == key)

/-- The addresses that lead on from an item. -/
def intoItem (i : Nat) : List ItemAddress → List ItemAddress :=
  into fun token => Pointer.index? token == some i

theorem mem_into {leadsIn : String → Bool} {addresses : List ItemAddress} {a : ItemAddress} :
    a ∈ into leadsIn addresses ↔
      ∃ token, leadsIn token = true ∧ ⟨token :: a.array, a.index⟩ ∈ addresses := by
  rw [into, List.mem_filterMap]
  constructor
  · rintro ⟨⟨array, index⟩, hmem, hsome⟩
    cases array with
    | nil => cases hsome
    | cons token rest =>
      dsimp only at hsome
      split at hsome
      · next hleads =>
        obtain rfl := Option.some.inj hsome
        exact ⟨token, hleads, hmem⟩
      · cases hsome
  · rintro ⟨token, hleads, hmem⟩
    exact ⟨_, hmem, if_pos hleads⟩

theorem into_cons (leadsIn : String → Bool) (token : String) (tail : List String) (index : Nat)
    (rest : List ItemAddress) :
    into leadsIn (⟨token :: tail, index⟩ :: rest) =
      if leadsIn token then ⟨tail, index⟩ :: into leadsIn rest else into leadsIn rest := by
  cases hleads : leadsIn token <;> simp [into, hleads]

theorem intoItem_cons (i : Nat) (token : String) (tail : List String) (index : Nat)
    (rest : List ItemAddress) :
    intoItem i (⟨token :: tail, index⟩ :: rest) =
      if Pointer.index? token = some i then ⟨tail, index⟩ :: intoItem i rest
      else intoItem i rest := by
  rw [intoItem, into_cons]
  simp only [beq_iff_eq]

theorem intoMember_cons (key : String) (token : String) (tail : List String) (index : Nat)
    (rest : List ItemAddress) :
    intoMember key (⟨token :: tail, index⟩ :: rest) =
      if token = key then ⟨tail, index⟩ :: intoMember key rest else intoMember key rest := by
  rw [intoMember, into_cons]
  simp only [beq_iff_eq]

end ItemAddress

namespace Json

/-! ### One deletion -/

/-- Deletes the item at an index of the array at some tokens, or the member of that name of the
object there. Nothing if there is none. -/
def deleteItem (index : Nat) : List String → Json → Json
  | [], .arr items => .arr (items.eraseIdx index)
  | [], .obj members => .obj (Keyed.erase (toString index) members)
  | [], value => value
  | token :: rest, value =>
    match value.child? token with
    | some child => value.setChild token (deleteItem index rest child)
    | none => value

/-- Deletes one item after the other. -/
def deleteItems (addresses : List ItemAddress) (value : Json) : Json :=
  addresses.foldl (fun value a => value.deleteItem a.index a.array) value

theorem deleteItem_eq_mapAt (index : Nat) (tokens : List String) (value : Json) :
    value.deleteItem index tokens = value.mapAt (fun container => container.deleteItem index [])
      tokens := by
  induction tokens generalizing value with
  | nil => rfl
  | cons token rest ih =>
    rw [deleteItem, mapAt]
    cases value.child? token with
    | none => rfl
    | some child => exact congrArg (value.setChild token) (ih child)

/-- Taking an item out of a container either is a deletion or is refused where a deletion changes
nothing. -/
theorem reaches_takeFrom (path : String) {index : Nat} (hindex : index < UInt64.size)
    (value : Json) :
    Reaches (some (Patch.takeFrom path (toString index) value)) value (value.deleteItem index []) := by
  cases value with
  | arr items =>
    rw [Patch.takeFrom, Patch.indexIn, Pointer.index?_toString hindex, deleteItem]
    by_cases hlong : items.length < index
    · refine Or.inr ⟨Or.inr ⟨.indexOutOfRange path, ?_⟩, ?_⟩
      · dsimp only
        rw [if_pos hlong]
        rfl
      · rw [List.eraseIdx_of_length_le (le_of_lt hlong)]
    · by_cases hend : index = items.length
      · refine Or.inr ⟨Or.inr ⟨.indexOutOfRange path, ?_⟩, ?_⟩
        · dsimp only
          rw [if_neg hlong]
          exact congrArg some (if_pos hend)
        · rw [List.eraseIdx_of_length_le (le_of_eq hend.symm)]
      · refine Or.inl ?_
        dsimp only
        rw [if_neg hlong]
        exact congrArg some (if_neg hend)
  | obj members =>
    rw [Patch.takeFrom, deleteItem]
    by_cases hmem : members.any (fun entry => entry.1 == toString index) = true
    · exact Or.inl (congrArg some (if_pos hmem))
    · refine Or.inr ⟨Or.inr ⟨.missing path, congrArg some (if_neg hmem)⟩, ?_⟩
      rw [Keyed.erase_of_absent fun hkey => hmem (Keyed.any_key_iff.2 hkey)]
  | _ => exact Or.inr ⟨Or.inr ⟨_, rfl⟩, rfl⟩

end Json

theorem Pointer.join_ne_empty (base token : String) : join base token ≠ "" := by
  intro hempty
  have hlist := congrArg String.toList hempty
  rw [toList_join] at hlist
  exact List.append_ne_nil_of_right_ne_nil _ (List.cons_ne_nil _ _) hlist

/-- The document after an edit of a container that is refused where a change has no effect. -/
theorem Patch.document_whole_inContainer {edit : String → Json → Except ApplyError Json}
    {change : Json → Json} {key : String}
    (hedit : ∀ value, Json.Reaches (some (edit key value)) value (change value))
    (place : List String) {document : Json} (h : document.WellFormed) :
    (whole document (inContainer document
      (Pointer.join (Pointer.ofTokens place) key) edit)).document =
      document.mapAt change place := by
  rw [inContainer, Pointer.splitLast?_join]
  dsimp only
  rw [Pointer.tokens?_ofTokens, Option.bind_some]
  have hreached := @Json.reaches_modifyAt? _ _ (edit key) change [] hedit place h
  rw [List.append_nil] at hreached
  rcases hreached with hok | ⟨hnone | ⟨e, herr⟩, hsame⟩
  · rw [hok]
    rfl
  · rw [hnone, hsame]
    rfl
  · rw [herr, hsame]
    rfl

/-- A patch that removes an item, also one that is refused, is a deletion. -/
theorem Patch.apply_remove (a : ItemAddress) (hindex : a.index < UInt64.size) {document : Json}
    (h : document.WellFormed) :
    ((Patch.remove a.pointer).apply document).document = document.deleteItem a.index a.array := by
  rw [Patch.apply, deleteAt, ItemAddress.pointer, if_neg (Pointer.join_ne_empty _ _),
    Json.deleteItem_eq_mapAt]
  exact document_whole_inContainer (Json.reaches_takeFrom _ hindex) a.array h

namespace Json

/-! ### What stays well formed -/

theorem WellFormed.deleteItem {value : Json} (h : value.WellFormed) (index : Nat)
    (tokens : List String) : (value.deleteItem index tokens).WellFormed := by
  rw [deleteItem_eq_mapAt]
  refine WellFormed.mapAt (fun container hcontainer => ?_) tokens h
  cases container with
  | arr items =>
    exact wellFormed_arr.2 fun item hitem =>
      wellFormed_arr.1 hcontainer item ((List.eraseIdx_sublist _ _).subset hitem)
  | obj members =>
    obtain ⟨hascending, hmembers⟩ := wellFormed_obj.1 hcontainer
    exact wellFormed_obj.2 ⟨Keyed.ascending_erase hascending _, fun entry hentry =>
      hmembers entry ((Keyed.erase_sublist _ members).subset hentry)⟩
  | _ => exact hcontainer

/-- Patches that remove items, one after the other, are deletions one after the other. -/
theorem applyAll_remove {addresses : List ItemAddress}
    (hindex : ∀ a ∈ addresses, a.index < UInt64.size) {document : Json}
    (h : document.WellFormed) :
    applyAll document (addresses.map fun a => Patch.remove a.pointer) =
      document.deleteItems addresses := by
  induction addresses generalizing document with
  | nil => rfl
  | cons a rest ih =>
    rw [List.map_cons, applyAll, List.foldl_cons,
      Patch.apply_remove a (hindex a List.mem_cons_self) h]
    exact ih (fun b hb => hindex b (List.mem_cons_of_mem _ hb)) (h.deleteItem _ _)

/-! ### Deletions in the parts of a container -/

theorem deleteItems_append (first second : List ItemAddress) (value : Json) :
    value.deleteItems (first ++ second) = (value.deleteItems first).deleteItems second :=
  List.foldl_append

/-- A deletion deeper in is one in the part that the address leads into. -/
theorem deleteItem_arr (items : List Json) (index : Nat) (token : String) (tail : List String) :
    (Json.arr items).deleteItem index (token :: tail) =
      .arr (items.mapIdx fun i item =>
        if Pointer.index? token = some i then item.deleteItem index tail else item) := by
  rw [deleteItem]
  split
  · next child hchild =>
    obtain ⟨j, hj, hitem⟩ := Option.bind_eq_some_iff.1 hchild
    rw [setChild, hj]
    refine congrArg Json.arr (List.ext_getElem? fun i => ?_)
    rw [List.getElem?_mapIdx, List.getElem?_set]
    by_cases hij : j = i
    · subst hij
      obtain ⟨hlt, _⟩ := List.getElem?_eq_some_iff.1 hitem
      rw [if_pos rfl, if_pos hlt, hitem, Option.map_some, if_pos rfl]
    · rw [if_neg hij]
      simp only [Option.some.injEq, hij, if_false, Option.map_id']
  · next hchild =>
    refine congrArg Json.arr (List.ext_getElem? fun i => ?_)
    rw [List.getElem?_mapIdx]
    cases hitem : items[i]? with
    | none => rfl
    | some item =>
      rw [Option.map_some, if_neg fun htoken => ?_]
      rw [child?, htoken, Option.bind_some, hitem] at hchild
      cases hchild

theorem deleteItems_arr {addresses : List ItemAddress} (h : ∀ a ∈ addresses, a.array ≠ [])
    (items : List Json) :
    (Json.arr items).deleteItems addresses =
      .arr (items.mapIdx fun i item => item.deleteItems (ItemAddress.intoItem i addresses)) := by
  induction addresses generalizing items with
  | nil =>
    refine congrArg Json.arr (List.ext_getElem? fun i => ?_)
    rw [List.getElem?_mapIdx]
    exact Option.map_id'.symm
  | cons a rest ih =>
    obtain ⟨array, index⟩ := a
    have hrest := ih fun b hb => h b (List.mem_cons_of_mem _ hb)
    cases array with
    | nil => exact absurd rfl (h _ List.mem_cons_self)
    | cons token tail =>
      change ((Json.arr items).deleteItem index (token :: tail)).deleteItems rest = _
      rw [deleteItem_arr, hrest]
      refine congrArg Json.arr (List.ext_getElem? fun i => ?_)
      rw [List.getElem?_mapIdx, List.getElem?_mapIdx, List.getElem?_mapIdx, Option.map_map,
        ItemAddress.intoItem_cons]
      cases items[i]? with
      | none => rfl
      | some item =>
        rw [Option.map_some, Option.map_some, Function.comp_apply]
        split
        · rfl
        · rfl

theorem deleteItem_obj {members : Members} (hascending : Keyed.Ascending members) (index : Nat)
    (token : String) (tail : List String) :
    (Json.obj members).deleteItem index (token :: tail) =
      .obj (members.map fun entry =>
        (entry.1, if token = entry.1 then entry.2.deleteItem index tail else entry.2)) := by
  rw [deleteItem]
  split
  · next child hchild =>
    rw [setChild, hascending.insert_eq_map ⟨_, Keyed.mem_of_get? hchild, rfl⟩]
    refine congrArg Json.obj (List.map_congr_left fun entry hentry => ?_)
    by_cases hsame : entry.1 = token
    · have hget := hascending.get?_of_mem hentry
      rw [hsame] at hget
      rw [if_pos hsame, if_pos hsame.symm, hsame,
        Option.some.inj (hget.symm.trans hchild)]
    · rw [if_neg hsame, if_neg (Ne.symm hsame)]
  · next hchild =>
    refine congrArg Json.obj ((List.map_id members).symm.trans
      (List.map_congr_left fun entry hentry => ?_))
    rw [if_neg fun hsame => ?_]
    · rfl
    · have hget := hascending.get?_of_mem hentry
      rw [← hsame] at hget
      rw [child?, hget] at hchild
      cases hchild

theorem deleteItems_obj {addresses : List ItemAddress} (h : ∀ a ∈ addresses, a.array ≠ [])
    {members : Members} (hascending : Keyed.Ascending members) :
    (Json.obj members).deleteItems addresses =
      .obj (members.map fun entry =>
        (entry.1, entry.2.deleteItems (ItemAddress.intoMember entry.1 addresses))) := by
  induction addresses generalizing members with
  | nil => exact congrArg Json.obj (List.map_id members).symm
  | cons a rest ih =>
    obtain ⟨array, index⟩ := a
    cases array with
    | nil => exact absurd rfl (h _ List.mem_cons_self)
    | cons token tail =>
      change ((Json.obj members).deleteItem index (token :: tail)).deleteItems rest = _
      have hchanged : Keyed.Ascending (members.map fun entry =>
          (entry.1, if token = entry.1 then entry.2.deleteItem index tail else entry.2)) :=
        hascending.map fun _ => rfl
      rw [deleteItem_obj hascending, ih (fun b hb => h b (List.mem_cons_of_mem _ hb)) hchanged,
        List.map_map]
      refine congrArg Json.obj (List.map_congr_left fun entry _ => ?_)
      rw [Function.comp_apply, ItemAddress.intoMember_cons]
      dsimp only
      split
      · rfl
      · rfl

/-- There is nothing to delete in other values. -/
theorem deleteItems_of_no_child {value : Json} (hvalue : ∀ token, value.child? token = none)
    {addresses : List ItemAddress} (h : ∀ a ∈ addresses, a.array ≠ []) :
    value.deleteItems addresses = value := by
  induction addresses with
  | nil => rfl
  | cons a rest ih =>
    obtain ⟨array, index⟩ := a
    cases array with
    | nil => exact absurd rfl (h _ List.mem_cons_self)
    | cons token tail =>
      change (value.deleteItem index (token :: tail)).deleteItems rest = value
      rw [deleteItem, hvalue]
      exact ih fun b hb => h b (List.mem_cons_of_mem _ hb)

end Json

end ResourceCatalog
