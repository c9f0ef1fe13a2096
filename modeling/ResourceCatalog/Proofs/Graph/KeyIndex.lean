import Mathlib
import ResourceCatalog.Graph.KeyIndex
import ResourceCatalog.Proofs.Text.Utf8

/-!
# What an index lists

The entries of an index are sorted by key and then by sequence, and every operation keeps them so.
Sortedness is what makes the scans right: the entries of one key are neighbours, so the scan that
stops at the first other key has seen them all. What stays is an equation for each operation that
speaks of the entries as a list without any searching in it.
-/

namespace ResourceCatalog

/-- The order of the entries of an index; entries of one key and sequence are in any order. -/
def KeyEntry.NotAfter (a b : KeyEntry) : Prop :=
  a.key < b.key ∨ a.key = b.key ∧ a.sequence ≤ b.sequence

namespace KeyEntry

theorem before_iff {a b : KeyEntry} :
    a.before b = true ↔ a.key < b.key ∨ a.key = b.key ∧ a.sequence < b.sequence := by
  simp only [before, Bool.or_eq_true, decide_eq_true_eq, Bool.and_eq_true, beq_iff_eq]

theorem NotAfter.key_le {a b : KeyEntry} (h : a.NotAfter b) : a.key ≤ b.key := by
  rcases h with h | ⟨h, _⟩
  · exact le_of_lt h
  · exact le_of_eq h

theorem NotAfter.trans {a b c : KeyEntry} (hab : a.NotAfter b) (hbc : b.NotAfter c) :
    a.NotAfter c := by
  rcases hab with hab | ⟨hab, hs⟩
  · exact Or.inl (lt_of_lt_of_le hab hbc.key_le)
  · rcases hbc with hbc | ⟨hbc, ht⟩
    · exact Or.inl (hab ▸ hbc)
    · exact Or.inr ⟨hab.trans hbc, hs.trans ht⟩

theorem notAfter_of_before {a b : KeyEntry} (h : a.before b = true) : a.NotAfter b := by
  rcases before_iff.1 h with h | ⟨h, hs⟩
  · exact Or.inl h
  · exact Or.inr ⟨h, le_of_lt hs⟩

theorem notAfter_of_not_before {a b : KeyEntry} (h : ¬ a.before b = true) : b.NotAfter a := by
  rw [before_iff, not_or, not_and] at h
  obtain ⟨hlt, hs⟩ := h
  rcases lt_or_eq_of_le (not_lt.1 hlt) with hkey | hkey
  · exact Or.inl hkey
  · exact Or.inr ⟨hkey, not_lt.1 (hs hkey.symm)⟩

end KeyEntry

namespace KeyIndex

/-- The entries are in order. -/
def Sorted (entries : List KeyEntry) : Prop := entries.Pairwise KeyEntry.NotAfter

/-! ### Insertion -/

theorem perm_insertEntry (entry : KeyEntry) (entries : List KeyEntry) :
    (insertEntry entry entries).Perm (entry :: entries) := by
  induction entries with
  | nil => rfl
  | cons e rest ih =>
    rw [insertEntry]
    split
    · exact (ih.cons e).trans (List.Perm.swap entry e rest)
    · rfl

theorem sorted_insertEntry (entry : KeyEntry) {entries : List KeyEntry} (h : Sorted entries) :
    Sorted (insertEntry entry entries) := by
  induction entries with
  | nil => exact List.pairwise_singleton _ _
  | cons e rest ih =>
    obtain ⟨hhead, htail⟩ := List.pairwise_cons.1 h
    rw [insertEntry]
    split
    case isTrue hbefore =>
      refine List.pairwise_cons.2 ⟨fun other hother => ?_, ih htail⟩
      rcases List.mem_cons.1 ((perm_insertEntry entry rest).mem_iff.1 hother) with rfl | hrest
      · exact KeyEntry.notAfter_of_before hbefore
      · exact hhead other hrest
    case isFalse hbefore =>
      have hfirst := KeyEntry.notAfter_of_not_before hbefore
      refine List.pairwise_cons.2 ⟨fun other hother => ?_, h⟩
      rcases List.mem_cons.1 hother with rfl | hrest
      · exact hfirst
      · exact hfirst.trans (hhead other hrest)

/-! ### Deletion -/

/-- Whether an entry is the one of a key and an identity. -/
def isEntry (key : String) (id : Identity) (e : KeyEntry) : Bool := e.key == key && e.id == id

theorem eraseFirst?_eq {key : String} {id : Identity} {entries : List KeyEntry}
    (h : Sorted entries) :
    eraseFirst? key id entries =
      if entries.any (isEntry key id) then some (entries.eraseP (isEntry key id)) else none := by
  induction entries with
  | nil => rfl
  | cons e rest ih =>
    obtain ⟨hhead, htail⟩ := List.pairwise_cons.1 h
    rw [eraseFirst?]
    by_cases hlt : e.key < key
    · have hne : isEntry key id e = false := by
        rw [isEntry, Bool.and_eq_false_iff, beq_eq_false_iff_ne]
        exact Or.inl (ne_of_lt hlt)
      rw [if_pos hlt, ih htail, List.any_cons, hne, Bool.false_or,
        List.eraseP_cons_of_neg (by rw [hne]; decide)]
      split <;> rfl
    · rw [if_neg hlt]
      by_cases heq : e.key = key
      · rw [if_pos heq]
        by_cases hid : e.id = id
        · have hentry : isEntry key id e = true := by simp [isEntry, heq, hid]
          rw [if_pos hid, List.any_cons, hentry, Bool.true_or, if_pos rfl,
            List.eraseP_cons_of_pos hentry]
        · have hne : isEntry key id e = false := by simp [isEntry, hid]
          rw [if_neg hid, ih htail, List.any_cons, hne, Bool.false_or,
            List.eraseP_cons_of_neg (by rw [hne]; decide)]
          split <;> rfl
      · -- every entry from here on has a key behind the one looked for
        have hbehind : ∀ other ∈ e :: rest, isEntry key id other = false := by
          intro other hother
          have hle : e.key ≤ other.key := by
            rcases List.mem_cons.1 hother with rfl | hrest
            · exact le_rfl
            · exact (hhead other hrest).key_le
          have hlt' : key < other.key := lt_of_lt_of_le (lt_of_le_of_ne (not_lt.1 hlt)
            (Ne.symm heq)) hle
          rw [isEntry, Bool.and_eq_false_iff, beq_eq_false_iff_ne]
          exact Or.inl (ne_of_gt hlt')
        have hany : (e :: rest).any (isEntry key id) = false := by
          rw [List.any_eq_false]
          intro other hother
          rw [hbehind other hother]
          decide
        rw [if_neg heq, hany, if_neg (by decide)]

theorem entries_erase {index : KeyIndex} (h : Sorted index.entries) (key : String)
    (id : Identity) : (index.erase key id).entries = index.entries.eraseP (isEntry key id) := by
  rw [erase, erase?, eraseFirst?_eq h]
  split
  case isTrue => rfl
  case isFalse hany =>
    rw [List.any_eq_true, not_exists] at hany
    refine (List.eraseP_of_forall_not fun e he => ?_).symm
    exact fun hentry => hany e ⟨he, hentry⟩

theorem sorted_erase {index : KeyIndex} (h : Sorted index.entries) (key : String)
    (id : Identity) : Sorted (index.erase key id).entries := by
  rw [entries_erase h]
  exact h.sublist List.eraseP_sublist

/-! ### Scans

A scan for the keys that pass a test begins at a key that none of them is below. The keys between
that one and a key that passes have to pass too: then the entries looked for are neighbours. -/

section Scans

variable {low : String} {entries : List KeyEntry}

theorem takeWhile_eq_filter (test : String → Bool)
    (hbetween : ∀ a b, low ≤ a → a ≤ b → test b = true → test a = true) (h : Sorted entries)
    (hlow : ∀ e ∈ entries, low ≤ e.key) :
    entries.takeWhile (fun e => test e.key) = entries.filter fun e => test e.key := by
  induction entries with
  | nil => rfl
  | cons e rest ih =>
    obtain ⟨hhead, htail⟩ := List.pairwise_cons.1 h
    have hrest : ∀ other ∈ rest, low ≤ other.key :=
      fun other hother => hlow other (List.mem_cons_of_mem _ hother)
    cases he : test e.key with
    | true => simp only [List.takeWhile_cons, List.filter_cons, he, if_true, ih htail hrest]
    | false =>
      simp only [List.takeWhile_cons, List.filter_cons, he, Bool.false_eq_true, if_false]
      refine (List.filter_eq_nil_iff.2 fun other hother hpass => ?_).symm
      have hle : e.key ≤ other.key := (hhead other hother).key_le
      rw [hbetween e.key other.key (hlow e List.mem_cons_self) hle hpass] at he
      cases he

theorem takeWhile_dropWhile_eq_filter (test : String → Bool)
    (hbetween : ∀ a b, low ≤ a → a ≤ b → test b = true → test a = true)
    (hlow : ∀ a, test a = true → low ≤ a) (h : Sorted entries) :
    ((entries.dropWhile fun e => decide (e.key < low)).takeWhile fun e => test e.key) =
      entries.filter fun e => test e.key := by
  induction entries with
  | nil => rfl
  | cons e rest ih =>
    obtain ⟨hhead, htail⟩ := List.pairwise_cons.1 h
    by_cases hlt : e.key < low
    · have he : ¬ test e.key = true := fun hpass => absurd hlt (not_lt.2 (hlow _ hpass))
      simp only [List.dropWhile_cons, hlt, decide_true, if_true, ih htail]
      rw [List.filter_cons, if_neg he]
    · simp only [List.dropWhile_cons, hlt, decide_false, Bool.false_eq_true, if_false]
      refine takeWhile_eq_filter test hbetween h fun other hother => ?_
      rcases List.mem_cons.1 hother with rfl | hrest
      · exact not_lt.1 hlt
      · exact (not_lt.1 hlt).trans (hhead other hrest).key_le

end Scans

theorem equal_eq_filter {index : KeyIndex} (h : Sorted index.entries) (key : String) :
    index.equal key = (index.entries.filter fun e => e.key == key).map KeyEntry.id := by
  rw [equal, dropBelow, takeWhile_dropWhile_eq_filter (fun k => k == key) ?_ ?_ h]
  · intro a b hlow hab hb
    rw [beq_iff_eq] at hb ⊢
    exact le_antisymm (hb ▸ hab) hlow
  · intro a ha
    exact ge_of_eq (beq_iff_eq.1 ha)

/-- Keys that are not below a beginning and not behind a key that has it have it too. -/
theorem startsWith_between {start : String} (a b : String) (hlow : start ≤ a) (hab : a ≤ b)
    (hb : Text.startsWith start.toList b.toList = true) :
    Text.startsWith start.toList a.toList = true := by
  rw [Text.startsWith, List.isPrefixOf_iff_prefix] at hb ⊢
  exact Text.prefix_of_not_lt (fun hlt => not_lt.2 hlow (String.lt_iff.2 hlt))
    (fun hlt => not_lt.2 hab (String.lt_iff.2 hlt)) hb

theorem le_of_startsWith {start key : String}
    (h : Text.startsWith start.toList key.toList = true) : start ≤ key := by
  rw [Text.startsWith, List.isPrefixOf_iff_prefix] at h
  obtain ⟨behind, hbehind⟩ := h
  refine not_lt.1 fun hlt => ?_
  rw [String.lt_iff, ← hbehind] at hlt
  exact List.not_lt.2 List.le_append_left hlt

theorem startingWith_eq_filter {index : KeyIndex} (h : Sorted index.entries) (start : String) :
    index.startingWith start = (index.entries.filter fun e =>
      Text.startsWith start.toList e.key.toList).map KeyEntry.id := by
  rw [startingWith, dropBelow,
    takeWhile_dropWhile_eq_filter (fun k => Text.startsWith start.toList k.toList)
      startsWith_between (fun _ => le_of_startsWith) h]

end KeyIndex

end ResourceCatalog
