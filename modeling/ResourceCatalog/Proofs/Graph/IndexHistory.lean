import Mathlib
import ResourceCatalog.Proofs.Graph.KeyIndex

/-!
# Indexes over time

An index is a multimap from keys to identities that is kept as one sorted list. What an operation
does to a multimap is said here without any order and without any searching: an insertion adds an
entry, even one that is there already, and a removal takes away one entry of a key and an identity
if there is one. An index on which operations are run one after the other goes through the same
multisets of entries, gives the same answers, and lists them in order after each operation.
-/

namespace ResourceCatalog

/-- An operation on an index. -/
inductive IndexStep where
  | insert (key : String) (sequence : Nat) (id : Identity)
  | remove (key : String) (id : Identity)
  deriving DecidableEq

namespace IndexStep

def isInsert : IndexStep → Bool
  | insert _ _ _ => true
  | remove _ _ => false

/-- What an operation answers, and the index after it. A removal answers whether there was an entry
to remove. -/
def apply (step : IndexStep) (index : KeyIndex) : Option Bool × KeyIndex :=
  match step with
  | insert key sequence id => (none, index.insert key sequence id)
  | remove key id => (some (index.erase? key id).isSome, index.erase key id)

/-- The answers of operations one after the other, and the index after them. -/
def run : List IndexStep → KeyIndex → List (Option Bool) × KeyIndex
  | [], index => ([], index)
  | step :: rest, index =>
    ((step.apply index).1 :: (run rest (step.apply index).2).1, (run rest (step.apply index).2).2)

/-- What an operation does to the entries of a multimap, and what it answers. Of several entries of
the key and the identity to remove, one of the least sequence goes away. -/
inductive Changes : IndexStep → Multiset KeyEntry → Option Bool → Multiset KeyEntry → Prop
  | insert (key : String) (sequence : Nat) (id : Identity) (held : Multiset KeyEntry) :
      Changes (insert key sequence id) held none (⟨key, sequence, id⟩ ::ₘ held)
  | removed (e : KeyEntry) (rest : Multiset KeyEntry)
      (first : ∀ other ∈ rest, other.key = e.key → other.id = e.id → e.sequence ≤ other.sequence) :
      Changes (remove e.key e.id) (e ::ₘ rest) (some true) rest
  | absent (key : String) (id : Identity) (held : Multiset KeyEntry)
      (none : ∀ e ∈ held, ¬ (e.key = key ∧ e.id = id)) :
      Changes (remove key id) held (some false) held

/-- What operations one after the other do to the entries of a multimap, and what they answer. -/
inductive Run : List IndexStep → Multiset KeyEntry → List (Option Bool) → Multiset KeyEntry → Prop
  | nil (held : Multiset KeyEntry) : Run [] held [] held
  | cons {step : IndexStep} {rest : List IndexStep} {held next last : Multiset KeyEntry}
      {answer : Option Bool} {answers : List (Option Bool)} (head : Changes step held answer next)
      (tail : Run rest next answers last) : Run (step :: rest) held (answer :: answers) last

end IndexStep

namespace KeyIndex

/-- An index shows exactly these entries, in all the ways in which it can be asked. -/
structure Shows (index : KeyIndex) (held : Multiset KeyEntry) : Prop where
  entries : (index.entries : Multiset KeyEntry) = held
  size : index.size = Multiset.card held
  sorted : index.entries.Pairwise fun a b =>
    Text.bytes a.key < Text.bytes b.key ∨ a.key = b.key ∧ a.sequence ≤ b.sequence
  equal : ∀ key, ∃ found : List KeyEntry,
    (found : Multiset KeyEntry) = held.filter (fun e => e.key = key) ∧
      found.Pairwise (fun a b => a.sequence ≤ b.sequence) ∧
      index.equal key = found.map KeyEntry.id
  /-- The entries that are looked for are neighbours, and the first place that is not below the
  beginning is theirs. -/
  startingWith : ∀ start : String, ∃ below found beyond : List KeyEntry,
    index.entries = below ++ found ++ beyond ∧
      (∀ e ∈ below, Text.bytes e.key < Text.bytes start) ∧
      (∀ e ∈ found ++ beyond, ¬ Text.bytes e.key < Text.bytes start) ∧
      (found : Multiset KeyEntry) = held.filter (fun e => start.toList <+: e.key.toList) ∧
      found.Pairwise (fun a b =>
        Text.bytes a.key < Text.bytes b.key ∨ a.key = b.key ∧ a.sequence ≤ b.sequence) ∧
      index.startingWith start = found.map KeyEntry.id
  /-- A removal leaves the other entries in their places. -/
  erase : ∀ key id, (index.erase key id).entries.Sublist index.entries

/-! ### The entries after an operation -/

theorem isEntry_iff {key : String} {id : Identity} {e : KeyEntry} :
    isEntry key id e = true ↔ e.key = key ∧ e.id = id := by
  rw [isEntry, Bool.and_eq_true, beq_iff_eq, beq_iff_eq]

/-- Behind the keys that are below some key, the sorted entries that are left are not below it. -/
theorem exists_below (low : String) {entries : List KeyEntry} (h : Sorted entries) :
    ∃ below above, entries = below ++ above ∧ (∀ e ∈ below, e.key < low) ∧
      ∀ e ∈ above, low ≤ e.key := by
  induction entries with
  | nil => exact ⟨[], [], rfl, by simp, by simp⟩
  | cons e rest ih =>
    obtain ⟨hhead, htail⟩ := List.pairwise_cons.1 h
    by_cases hlt : e.key < low
    · obtain ⟨below, above, rfl, hbelow, habove⟩ := ih htail
      exact ⟨e :: below, above, rfl, List.forall_mem_cons.2 ⟨hlt, hbelow⟩, habove⟩
    · refine ⟨[], e :: rest, rfl, by simp, fun other hother => ?_⟩
      rcases List.mem_cons.1 hother with rfl | hrest
      · exact not_lt.1 hlt
      · exact (not_lt.1 hlt).trans (hhead other hrest).key_le

/-- The keys with some beginning are neighbours. -/
theorem exists_range (start : String) {entries : List KeyEntry} (h : Sorted entries) :
    ∃ below beyond, entries = below ++
        entries.filter (fun e => Text.startsWith start.toList e.key.toList) ++ beyond ∧
      (∀ e ∈ below, e.key < start) ∧ ∀ e ∈ beyond, start ≤ e.key := by
  obtain ⟨below, above, rfl, hbelow, habove⟩ := exists_below start h
  have hsorted : Sorted above := h.sublist (List.sublist_append_right _ _)
  have hscan := takeWhile_eq_filter (fun k => Text.startsWith start.toList k.toList)
    startsWith_between hsorted habove
  have hnone : below.filter (fun e => Text.startsWith start.toList e.key.toList) = [] := by
    refine List.filter_eq_nil_iff.2 fun e he hstart => ?_
    exact not_lt.2 (le_of_startsWith hstart) (hbelow e he)
  refine ⟨below, above.dropWhile fun e => Text.startsWith start.toList e.key.toList, ?_, hbelow,
    fun e he => habove e ((List.dropWhile_sublist _).subset he)⟩
  rw [List.filter_append, hnone, List.nil_append, ← hscan, List.append_assoc,
    List.takeWhile_append_dropWhile]

theorem shows_of_sorted {index : KeyIndex} (h : Sorted index.entries) :
    index.Shows (index.entries : Multiset KeyEntry) where
  entries := rfl
  size := rfl
  sorted := h.imp fun hab => hab.imp_left Text.bytes_lt_iff.2
  equal := by
    intro key
    refine ⟨index.entries.filter (fun e => e.key == key), ?_, ?_, equal_eq_filter h key⟩
    · rw [Multiset.filter_coe]
      congr 2
    · -- entries of one key are told apart by their sequence
      have hkeys : ∀ e ∈ index.entries.filter (fun e => e.key == key), e.key = key :=
        fun e he => beq_iff_eq.1 (List.mem_filter.1 he).2
      refine (h.sublist List.filter_sublist).imp_of_mem fun {a b} ha hb hab => ?_
      rcases hab with hlt | ⟨_, hsequence⟩
      · rw [hkeys a ha, hkeys b hb] at hlt
        exact absurd hlt (lt_irrefl key)
      · exact hsequence
  startingWith := by
    intro start
    obtain ⟨below, beyond, hentries, hbelow, hbeyond⟩ := exists_range start h
    refine ⟨below, _, beyond, hentries, fun e he => Text.bytes_lt_iff.2 (hbelow e he), ?_, ?_, ?_,
      startingWith_eq_filter h start⟩
    · intro e he hlt
      rcases List.mem_append.1 he with he | he
      · exact not_lt.2 (le_of_startsWith (List.mem_filter.1 he).2) (Text.bytes_lt_iff.1 hlt)
      · exact not_lt.2 (hbeyond e he) (Text.bytes_lt_iff.1 hlt)
    · rw [Multiset.filter_coe]
      congr 2
      funext e
      rw [Text.startsWith, Bool.eq_iff_iff, List.isPrefixOf_iff_prefix, decide_eq_true_iff]
    · exact (h.sublist List.filter_sublist).imp fun hab => hab.imp_left Text.bytes_lt_iff.2
  erase := by
    intro key id
    rw [entries_erase h]
    exact List.eraseP_sublist

end KeyIndex

namespace IndexStep

open KeyIndex

/-- An operation on a sorted index leaves it sorted, and does to its entries what it does to a
multimap. -/
theorem changes_apply (step : IndexStep) {index : KeyIndex} (h : Sorted index.entries) :
    Sorted (step.apply index).2.entries ∧
      Changes step index.entries (step.apply index).1 (step.apply index).2.entries := by
  cases step with
  | insert key sequence id =>
    refine ⟨sorted_insertEntry _ h, ?_⟩
    have hperm : ((index.insert key sequence id).entries : Multiset KeyEntry) =
        ⟨key, sequence, id⟩ ::ₘ (index.entries : Multiset KeyEntry) :=
      Multiset.coe_eq_coe.2 (perm_insertEntry _ _)
    rw [apply, hperm]
    exact Changes.insert key sequence id _
  | remove key id =>
    refine ⟨sorted_erase h key id, ?_⟩
    have hentries : ((remove key id).apply index).2.entries =
        index.entries.eraseP (isEntry key id) := entries_erase h key id
    have hanswer : ((remove key id).apply index).1 =
        some (index.entries.any (isEntry key id)) := by
      rw [apply, KeyIndex.erase?, eraseFirst?_eq h]
      cases index.entries.any (isEntry key id) <;> rfl
    rw [hanswer, hentries]
    by_cases hany : index.entries.any (isEntry key id) = true
    · obtain ⟨e, he, hentry⟩ := List.any_eq_true.1 hany
      obtain ⟨e, front, back, hfront, hentry, hsplit, herase⟩ := List.exists_of_eraseP he hentry
      obtain ⟨rfl, rfl⟩ := isEntry_iff.1 hentry
      rw [hany, herase, hsplit,
        Multiset.coe_eq_coe.2 (List.perm_middle : (front ++ e :: back).Perm _),
        ← Multiset.cons_coe]
      refine Changes.removed e _ fun other hother hkey hid => ?_
      -- the first entry that is found has the others behind it
      rw [hsplit] at h
      rcases List.mem_append.1 (Multiset.mem_coe.1 hother) with hother | hother
      · exact absurd (isEntry_iff.2 ⟨hkey, hid⟩) (hfront other hother)
      · have hback := (List.pairwise_cons.1 (List.pairwise_append.1 h).2.1).1 other hother
        rcases hback with hlt | ⟨_, hsequence⟩
        · exact absurd hkey (ne_of_gt hlt)
        · exact hsequence
    · have hnone : ∀ e ∈ index.entries, ¬ isEntry key id e = true :=
        fun e he hentry => hany (List.any_eq_true.2 ⟨e, he, hentry⟩)
      rw [Bool.eq_false_of_not_eq_true hany, List.eraseP_of_forall_not hnone]
      exact Changes.absent key id _ fun e he hentry => hnone e he (isEntry_iff.2 hentry)

theorem run_run (steps : List IndexStep) {index : KeyIndex} (h : Sorted index.entries) :
    Sorted (run steps index).2.entries ∧
      Run steps index.entries (run steps index).1 (run steps index).2.entries := by
  induction steps generalizing index with
  | nil => exact ⟨h, Run.nil _⟩
  | cons step rest ih =>
    obtain ⟨hsorted, hchanges⟩ := changes_apply step h
    obtain ⟨hlast, hrun⟩ := ih hsorted
    exact ⟨hlast, Run.cons hchanges hrun⟩

/-! ### How many entries there are -/

theorem Changes.card {step : IndexStep} {held next : Multiset KeyEntry} {answer : Option Bool}
    (h : Changes step held answer next) :
    Multiset.card next + (if answer = some true then 1 else 0) =
      Multiset.card held + if step.isInsert then 1 else 0 := by
  cases h with
  | insert => simp [isInsert]
  | removed => simp [isInsert]
  | absent => simp [isInsert]

theorem Run.card {steps : List IndexStep} {held last : Multiset KeyEntry}
    {answers : List (Option Bool)} (h : Run steps held answers last) :
    Multiset.card last + answers.count (some true) =
      Multiset.card held + steps.countP isInsert := by
  induction h with
  | nil held => rfl
  | cons hhead _ ih =>
    have hstep := hhead.card
    rw [List.count_cons, List.countP_cons]
    simp only [beq_iff_eq]
    omega

/-- An index on which operations are run is the multimap on which they are run: it gives the same
answers and shows the same entries, as many as there were insertions without the removals that
found something. -/
theorem refines_multimap (steps : List IndexStep) :
    ∃ held : Multiset KeyEntry, Run steps 0 (run steps KeyIndex.empty).1 held ∧
      (run steps KeyIndex.empty).2.Shows held ∧
      (run steps KeyIndex.empty).2.size + (run steps KeyIndex.empty).1.count (some true) =
        steps.countP isInsert := by
  have hempty : Sorted KeyIndex.empty.entries := List.Pairwise.nil
  obtain ⟨hsorted, hrun⟩ := run_run steps hempty
  refine ⟨_, hrun, shows_of_sorted hsorted, ?_⟩
  have hcard := hrun.card
  rw [show (KeyIndex.empty.entries : Multiset KeyEntry) = 0 from rfl, Multiset.card_zero,
    Nat.zero_add] at hcard
  exact hcard

end IndexStep

end ResourceCatalog
