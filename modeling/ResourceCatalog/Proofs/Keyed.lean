import Mathlib
import ResourceCatalog.Keyed

/-!
# Values under ascending keys

The keys of values by key are strictly ascending. Then a look-up finds exactly the values that are
there, and putting a value under a key that is there changes the entry of that key in its place.
-/

namespace ResourceCatalog.Keyed

variable {α : Type} {entries : Keyed α}

/-- The keys are in strict order. -/
def Ascending (entries : Keyed α) : Prop := entries.Pairwise fun a b => a.1 < b.1

theorem ascending_iff_keys : Ascending entries ↔ (keys entries).Pairwise (· < ·) :=
  List.pairwise_map.symm

theorem ascending_of_keys_eq {β : Type} {others : Keyed β} (hkeys : keys others = keys entries)
    (h : Ascending entries) : Ascending others := by
  rw [ascending_iff_keys] at h ⊢
  rw [hkeys]
  exact h

theorem Ascending.nodup_keys (h : Ascending entries) : (keys entries).Nodup :=
  (ascending_iff_keys.1 h).imp fun hlt => ne_of_lt hlt

theorem Ascending.tail {entry : String × α} (h : Ascending (entry :: entries)) :
    Ascending entries := (List.pairwise_cons.1 h).2

theorem Ascending.head_lt {entry : String × α} (h : Ascending (entry :: entries)) :
    ∀ e ∈ entries, entry.1 < e.1 := (List.pairwise_cons.1 h).1

theorem mem_of_get? {key : String} {value : α} (h : get? key entries = some value) :
    (key, value) ∈ entries := by
  induction entries with
  | nil => cases h
  | cons entry rest ih =>
    obtain ⟨k, v⟩ := entry
    rw [get?] at h
    split at h
    · next heq =>
      rw [← heq, ← Option.some.inj h]
      exact List.mem_cons_self
    · exact List.mem_cons_of_mem _ (ih h)

theorem Ascending.get?_of_mem (h : Ascending entries) {entry : String × α}
    (hentry : entry ∈ entries) : get? entry.1 entries = some entry.2 := by
  induction entries with
  | nil => exact absurd hentry List.not_mem_nil
  | cons first rest ih =>
    rcases List.mem_cons.1 hentry with rfl | hrest
    · rw [get?, if_pos rfl]
    · rw [get?, if_neg (ne_of_lt (h.head_lt entry hrest))]
      exact ih h.tail hrest

@[simp] theorem get?_insert_self (key : String) (value : α) (entries : Keyed α) :
    get? key (insert key value entries) = some value := by
  induction entries with
  | nil => rw [insert, get?, if_pos rfl]
  | cons entry rest ih =>
    rw [insert]
    split
    · rw [get?, if_pos rfl]
    · next hne =>
      split
      · rw [get?, if_pos rfl]
      · rw [get?, if_neg (Ne.symm hne), ih]

theorem get?_insert_of_ne {key other : String} (h : other ≠ key) (value : α)
    (entries : Keyed α) : get? other (insert key value entries) = get? other entries := by
  induction entries with
  | nil => exact if_neg (Ne.symm h)
  | cons entry rest ih =>
    rw [insert]
    split
    · next heq =>
      rw [get?, get?, if_neg (Ne.symm h), if_neg (heq ▸ Ne.symm h)]
    · split
      · exact if_neg (Ne.symm h)
      · rw [get?, get?, ih]

theorem mem_insert {key : String} {value : α} {entry : String × α}
    (h : entry ∈ insert key value entries) : entry = (key, value) ∨ entry ∈ entries := by
  induction entries with
  | nil => exact Or.inl (List.mem_singleton.1 h)
  | cons first rest ih =>
    rw [insert] at h
    split at h
    · exact (List.mem_cons.1 h).imp_right (List.mem_cons_of_mem _)
    · split at h
      · exact List.mem_cons.1 h
      · rcases List.mem_cons.1 h with rfl | hrest
        · exact Or.inr List.mem_cons_self
        · exact (ih hrest).imp_right (List.mem_cons_of_mem _)

theorem ascending_insert (h : Ascending entries) (key : String) (value : α) :
    Ascending (Keyed.insert key value entries) := by
  induction entries with
  | nil => exact List.pairwise_singleton _ _
  | cons first rest ih =>
    rw [Keyed.insert]
    split
    · next heq =>
      refine List.pairwise_cons.2 ⟨fun entry hentry => ?_, h.tail⟩
      rw [heq]
      exact h.head_lt entry hentry
    · next hne =>
      split
      · next hlt =>
        refine List.pairwise_cons.2 ⟨fun entry hentry => ?_, h⟩
        rcases List.mem_cons.1 hentry with rfl | hrest
        · exact hlt
        · exact lt_trans hlt (h.head_lt entry hrest)
      · next hlt =>
        refine List.pairwise_cons.2 ⟨fun entry hentry => ?_, ih h.tail⟩
        rcases mem_insert hentry with rfl | hrest
        · exact lt_of_le_of_ne (not_lt.1 hlt) (Ne.symm hne)
        · exact h.head_lt entry hrest

/-- Of values that are picked by their keys and what they are, one is found where it is picked. -/
theorem get?_filter (h : Ascending entries) (test : String × α → Bool) (key : String) :
    get? key (entries.filter test) = (get? key entries).filter fun value => test (key, value) := by
  induction entries with
  | nil => rfl
  | cons first rest ih =>
    obtain ⟨k, v⟩ := first
    by_cases heq : k = key
    · subst heq
      have hrest : get? k (rest.filter test) = none := by
        cases hfound : get? k (rest.filter test) with
        | none => rfl
        | some value =>
          have hmem := (List.mem_filter.1 (mem_of_get? hfound)).1
          exact absurd (h.head_lt _ hmem) (lt_irrefl k)
      rw [List.filter_cons, get?, if_pos rfl, Option.filter_some]
      split
      · rw [get?, if_pos rfl]
      · exact hrest
    · rw [List.filter_cons, get?, if_neg heq, ← ih h.tail]
      split
      · rw [get?, if_neg heq]
      · rfl

/-- A value put under a key that is there takes the place of the value there. -/
theorem Ascending.insert_eq_map (h : Ascending entries) {key : String}
    (hkey : ∃ entry ∈ entries, entry.1 = key) (value : α) :
    insert key value entries =
      entries.map fun entry => if entry.1 = key then (key, value) else entry := by
  induction entries with
  | nil => obtain ⟨_, hentry, _⟩ := hkey; exact absurd hentry List.not_mem_nil
  | cons first rest ih =>
    obtain ⟨k, v⟩ := first
    rw [insert, List.map_cons]
    by_cases heq : key = k
    · have hrest : (rest.map fun entry => if entry.1 = key then (key, value) else entry) =
          rest := by
        refine (List.map_congr_left fun entry hentry => ?_).trans (List.map_id _)
        rw [if_neg fun hsame => ?_]
        · rfl
        · have hlt := h.head_lt entry hentry
          rw [hsame, heq] at hlt
          exact absurd hlt (lt_irrefl _)
      rw [if_pos heq, if_pos heq.symm, hrest]
    · obtain ⟨entry, hentry, hsame⟩ := hkey
      have hmem : entry ∈ rest := by
        rcases List.mem_cons.1 hentry with rfl | hmem
        · exact absurd hsame.symm heq
        · exact hmem
      have hlt : k < key := hsame ▸ h.head_lt entry hmem
      rw [if_neg heq, if_neg (not_lt.2 (le_of_lt hlt)), if_neg (Ne.symm heq),
        ih h.tail ⟨entry, hmem, hsame⟩]

/-- Changing values in their places keeps the keys as they are. -/
theorem Ascending.map {β : Type} (h : Ascending entries) {change : String × α → String × β}
    (hchange : ∀ entry, (change entry).1 = entry.1) : Ascending (entries.map change) := by
  refine List.Pairwise.map change (fun a b hlt => ?_) h
  rw [hchange, hchange]
  exact hlt

/-- Values that are changed by a rule that knows their key are found changed. -/
theorem get?_map {β : Type} (change : String → α → β) (key : String) (entries : Keyed α) :
    get? key (entries.map fun entry => (entry.1, change entry.1 entry.2)) =
      (get? key entries).map (change key) := by
  induction entries with
  | nil => rfl
  | cons entry rest ih =>
    rw [List.map_cons, get?, get?]
    by_cases heq : entry.1 = key
    · rw [if_pos heq, if_pos heq, Option.map_some, heq]
    · rw [if_neg heq, if_neg heq, ih]

section MapValues

variable {β : Type} (change : α → β)

theorem keys_mapValues (entries : Keyed α) : keys (mapValues change entries) = keys entries := by
  rw [keys, mapValues, List.map_map]
  rfl

theorem get?_mapValues (key : String) (entries : Keyed α) :
    get? key (mapValues change entries) = (get? key entries).map change :=
  get?_map (fun _ => change) key entries

theorem contains_mapValues (entries : Keyed α) (key : String) :
    contains (mapValues change entries) key = contains entries key := by
  rw [contains, contains, get?_mapValues, Option.isSome_map]

theorem insert_mapValues (key : String) (value : α) (entries : Keyed α) :
    insert key (change value) (mapValues change entries) =
      mapValues change (insert key value entries) := by
  induction entries with
  | nil => rfl
  | cons entry rest ih =>
    rw [mapValues, List.map_cons, insert, insert]
    split
    · rfl
    · split
      · rfl
      · exact congrArg _ ih

theorem foldl_insert_mapValues (entries others : Keyed α) :
    (mapValues change entries).foldl (fun members entry => insert entry.1 entry.2 members)
        (mapValues change others) =
      mapValues change
        (entries.foldl (fun members entry => insert entry.1 entry.2 members) others) := by
  induction entries generalizing others with
  | nil => rfl
  | cons entry rest ih =>
    change (mapValues change rest).foldl _
      (insert entry.1 (change entry.2) (mapValues change others)) = _
    rw [insert_mapValues]
    exact ih _

theorem ofList_mapValues (entries : Keyed α) :
    ofList (mapValues change entries) = mapValues change (ofList entries) :=
  foldl_insert_mapValues change entries []

end MapValues

theorem insert_insert (key : String) (value other : α) (entries : Keyed α) :
    insert key value (insert key other entries) = insert key value entries := by
  induction entries with
  | nil =>
    rw [insert]
    exact if_pos rfl
  | cons entry rest ih =>
    rw [insert, insert]
    by_cases heq : key = entry.1
    · rw [if_pos heq, if_pos heq, insert, if_pos rfl]
    · by_cases hlt : key < entry.1
      · rw [if_neg heq, if_neg heq, if_pos hlt, if_pos hlt, insert, if_pos rfl]
      · rw [if_neg heq, if_neg heq, if_neg hlt, if_neg hlt, insert, if_neg heq, if_neg hlt, ih]

/-! ### Values taken away -/

theorem erase_sublist (key : String) (entries : Keyed α) : (erase key entries).Sublist entries := by
  induction entries with
  | nil => exact List.Sublist.slnil
  | cons entry rest ih =>
    rw [erase]
    split
    · exact List.sublist_cons_self _ _
    · exact ih.cons_cons _

theorem any_key_iff {key : String} :
    entries.any (fun entry => entry.1 == key) = true ↔ key ∈ keys entries := by
  simp [keys]

theorem erase_of_absent {key : String} (h : key ∉ keys entries) : erase key entries = entries := by
  induction entries with
  | nil => rfl
  | cons entry rest ih =>
    rw [keys, List.map_cons, List.mem_cons, not_or] at h
    rw [erase, if_neg (Ne.symm h.1), ih h.2]

theorem ascending_erase (h : Ascending entries) (key : String) : Ascending (erase key entries) :=
  h.sublist (erase_sublist key entries)

theorem get?_erase_of_ne {key other : String} (h : other ≠ key) (entries : Keyed α) :
    get? other (erase key entries) = get? other entries := by
  induction entries with
  | nil => rfl
  | cons entry rest ih =>
    rw [erase]
    split
    · next heq => rw [get?, if_neg (heq ▸ Ne.symm h)]
    · rw [get?, get?, ih]

theorem get?_erase_self (h : Ascending entries) (key : String) :
    get? key (erase key entries) = none := by
  induction entries with
  | nil => rfl
  | cons entry rest ih =>
    rw [erase]
    split
    · next heq =>
      cases hfound : get? key rest with
      | none => rfl
      | some value =>
        have hlt := h.head_lt _ (mem_of_get? hfound)
        exact absurd hlt (heq ▸ lt_irrefl _)
    · next hne => rw [get?, if_neg hne, ih h.tail]

/-- Values under ascending keys are known by what is found under every key. -/
theorem Ascending.ext {others : Keyed α} (h : Ascending entries) (hothers : Ascending others)
    (hget : ∀ key, get? key entries = get? key others) : entries = others := by
  have hmem : ∀ {a b : Keyed α}, Ascending a → (∀ key, get? key a = get? key b) → a ⊆ b := by
    intro a b ha hsame entry hentry
    exact mem_of_get? ((hsame entry.1).symm.trans (ha.get?_of_mem hentry))
  have hnodup : ∀ {a : Keyed α}, Ascending a → a.Nodup := fun ha =>
    ha.imp fun {a b} hlt (heq : a = b) => absurd hlt (heq ▸ lt_irrefl a.1)
  have hperm : entries.Perm others := (List.perm_ext_iff_of_nodup (hnodup h) (hnodup hothers)).2
    fun _ => ⟨fun he => hmem h hget he, fun he => hmem hothers (fun key => (hget key).symm) he⟩
  exact hperm.eq_of_pairwise (fun a b _ _ hab hba => absurd hab (lt_asymm hba)) h hothers

theorem Ascending.insert_erase (h : Ascending entries) {key : String} {value : α}
    (hvalue : get? key entries = some value) : insert key value (erase key entries) = entries := by
  apply (ascending_insert (ascending_erase h key) key value).ext h
  intro other
  by_cases hother : other = key
  · rw [hother, get?_insert_self, hvalue]
  · rw [get?_insert_of_ne hother, get?_erase_of_ne hother]

/-- A value put where it is already changes nothing. -/
theorem Ascending.insert_self (h : Ascending entries) {key : String} {value : α}
    (hget : get? key entries = some value) : insert key value entries = entries := by
  refine (ascending_insert h key value).ext h fun other => ?_
  by_cases hkey : other = key
  · rw [hkey, get?_insert_self, hget]
  · rw [get?_insert_of_ne hkey]

/-! ### Values put under their keys one after the other -/

theorem perm_insert {key : String} (h : get? key entries = none) (value : α) :
    (insert key value entries).Perm ((key, value) :: entries) := by
  induction entries with
  | nil => exact List.Perm.refl _
  | cons first rest ih =>
    rw [get?] at h
    split at h
    · cases h
    · next hne =>
      rw [insert, if_neg (Ne.symm hne)]
      split
      · exact List.Perm.refl _
      · exact ((ih h).cons first).trans (List.Perm.swap _ _ _)

theorem get?_eq_none_iff {key : String} : get? key entries = none ↔ key ∉ keys entries := by
  induction entries with
  | nil => exact ⟨fun _ => List.not_mem_nil, fun _ => rfl⟩
  | cons entry rest ih =>
    obtain ⟨k, v⟩ := entry
    rw [get?]
    by_cases heq : k = key
    · subst heq
      simp [keys]
    · rw [if_neg heq, ih]
      simp [keys, Ne.symm heq]

theorem mem_keys_insert {key other : String} {value : α} :
    other ∈ keys (insert key value entries) ↔ other = key ∨ other ∈ keys entries := by
  rw [← not_iff_not, not_or, ← get?_eq_none_iff, ← get?_eq_none_iff]
  by_cases hsame : other = key
  · simp [hsame]
  · simp [hsame, get?_insert_of_ne hsame]

theorem contains_iff_mem_keys {key : String} : contains entries key = true ↔ key ∈ keys entries := by
  rw [contains, ← not_iff_not, Bool.not_eq_true, Option.isSome_eq_false_iff,
    Option.isNone_iff_eq_none, get?_eq_none_iff]

theorem get?_foldl_insert {new : Keyed α} (hnew : (keys new).Nodup) (key : String) :
    get? key (new.foldl (fun members entry => insert entry.1 entry.2 members) entries) =
      (get? key new).or (get? key entries) := by
  induction new generalizing entries with
  | nil => exact Option.none_or.symm
  | cons first rest ih =>
    obtain ⟨hfirst, hrest⟩ := List.nodup_cons.1 hnew
    rw [List.foldl_cons, ih hrest, get?]
    split
    · next heq =>
      subst heq
      rw [get?_eq_none_iff.2 hfirst, Option.none_or, get?_insert_self]
      rfl
    · next hne => rw [get?_insert_of_ne (Ne.symm hne)]

theorem get?_ofList (h : (keys entries).Nodup) (key : String) :
    get? key (ofList entries) = get? key entries := by
  rw [ofList, get?_foldl_insert h]
  exact Option.or_none

theorem ascending_ofList (entries : Keyed α) : Ascending (ofList entries) :=
  List.foldlRecOn entries _ List.Pairwise.nil fun _ hmembers _ _ => ascending_insert hmembers _ _

theorem mem_ofList {entry : String × α} (h : entry ∈ ofList entries) : entry ∈ entries := by
  refine List.foldlRecOn (motive := fun members => ∀ entry ∈ members, entry ∈ entries) entries _
    (fun _ hmem => absurd hmem List.not_mem_nil) (fun members hmembers new hnew other hother => ?_)
    entry h
  rcases mem_insert hother with rfl | hother
  · exact hnew
  · exact hmembers other hother

theorem mem_keys_ofList {entries : List (String × α)} {key : String} :
    key ∈ keys (ofList entries) ↔ key ∈ entries.map Prod.fst := by
  suffices h : ∀ members : Keyed α,
      key ∈ keys (entries.foldl (fun members entry => insert entry.1 entry.2 members) members) ↔
        key ∈ keys members ∨ key ∈ entries.map Prod.fst by
    exact (h []).trans ⟨fun hkey => hkey.resolve_left List.not_mem_nil, Or.inr⟩
  induction entries with
  | nil => exact fun members => ⟨Or.inl, fun hkey => hkey.resolve_right List.not_mem_nil⟩
  | cons first rest ih =>
    intro members
    rw [List.foldl_cons, ih, mem_keys_insert, List.map_cons, List.mem_cons]
    tauto

theorem perm_foldl_insert {new : Keyed α} (hnew : (keys new).Nodup)
    (hfree : ∀ key ∈ keys new, get? key entries = none) :
    (new.foldl (fun members entry => insert entry.1 entry.2 members) entries).Perm
      (new ++ entries) := by
  induction new generalizing entries with
  | nil => exact List.Perm.refl _
  | cons first rest ih =>
    obtain ⟨hfirst, hrest⟩ := List.nodup_cons.1 hnew
    rw [List.foldl_cons]
    refine (ih hrest fun key hkey => ?_).trans ?_
    · have hne : key ≠ first.1 := by
        rintro rfl
        exact hfirst hkey
      rw [get?_insert_of_ne hne]
      exact hfree key (List.mem_cons_of_mem _ hkey)
    · have hinsert := perm_insert (hfree first.1 List.mem_cons_self) first.2
      exact (hinsert.append_left rest).trans List.perm_middle

theorem perm_ofList (h : (keys entries).Nodup) : (ofList entries).Perm entries := by
  have hperm : (ofList entries).Perm (entries ++ []) := perm_foldl_insert h fun _ _ => rfl
  rw [List.append_nil] at hperm
  exact hperm

end ResourceCatalog.Keyed
