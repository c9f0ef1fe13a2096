import Mathlib
import ResourceCatalog.Graph.Collection
import ResourceCatalog.Proofs.Graph.KeyIndex

/-!
# Collections and their indexes

A collection is seen through the list of its records. In a coherent collection no identity occurs
twice, the rows are in the order of their sequences, and each index lists the keys of exactly these
rows. Taking in, changing and giving away keep a collection coherent, and each is an equation on the
list of records: one more at the end, one changed in its place, one less. A look-up by a key then
answers from the records alone.
-/

namespace ResourceCatalog

variable {α : Type}

/-- The entry of a row in an index. -/
def Row.entry (definition : IndexDefinition α) (row : Row α) : KeyEntry :=
  ⟨definition.key row.record.entity, row.sequence, row.record.id⟩

/-- The index lists the keys of some rows, in order. -/
structure KeyIndex.Lists (definition : IndexDefinition α) (rows : List (Row α))
    (index : KeyIndex) : Prop where
  sorted : KeyIndex.Sorted index.entries
  perm : index.entries.Perm (rows.map (Row.entry definition))

namespace Collection

/-- The identities of the records, in their order. -/
def ids (c : Collection α) : List Identity := c.all.map Record.id

/-- What every operation keeps. -/
structure Coherent [Entity α] (c : Collection α) : Prop where
  distinct : c.ids.Nodup
  ascending : c.rows.Pairwise fun a b => a.sequence < b.sequence
  bounded : ∀ row ∈ c.rows, row.sequence < c.nextSequence
  indexed : List.Forall₂ (fun definition index => index.Lists definition c.rows)
    (Entity.indexes (α := α)) c.indexes

/-- A coherent collection whose identities have left a supply. -/
structure Holds [Entity α] (c : Collection α) (supply : Supply) : Prop where
  coherent : c.Coherent
  taken : ∀ id ∈ c.ids, id.value < supply.next

theorem Holds.later [Entity α] {c : Collection α} {supply more : Supply} (h : c.Holds supply)
    (hmore : supply.next ≤ more.next) : c.Holds more :=
  ⟨h.coherent, fun id hid => lt_of_lt_of_le (h.taken id hid) hmore⟩

theorem Holds.next_not_mem [Entity α] {c : Collection α} {supply : Supply} (h : c.Holds supply) :
    (⟨supply.next⟩ : Identity) ∉ c.ids := fun hmem => absurd (h.taken _ hmem) (lt_irrefl _)

/-! ### Records by identity -/

theorem mem_ids {c : Collection α} {id : Identity} : id ∈ c.ids ↔ ∃ r ∈ c.all, r.id = id := by
  rw [ids, List.mem_map]

theorem mem_all {c : Collection α} {r : Record α} :
    r ∈ c.all ↔ ∃ row ∈ c.rows, row.record = r := by
  rw [all, List.mem_map]

theorem ids_eq_map_rows (c : Collection α) : c.ids = c.rows.map fun row => row.record.id := by
  rw [ids, all, List.map_map]
  rfl

theorem size_eq (c : Collection α) : c.size = c.all.length := by
  rw [size, all, List.length_map]

theorem contains_iff {c : Collection α} {id : Identity} : c.contains id = true ↔ id ∈ c.ids := by
  rw [contains, row?, List.find?_isSome, ids_eq_map_rows, List.mem_map]
  simp only [beq_iff_eq]

theorem row?_eq_none {c : Collection α} {id : Identity} (h : id ∉ c.ids) : c.row? id = none := by
  rw [← Option.not_isSome_iff_eq_none]
  exact fun hsome => h (contains_iff.1 hsome)

/-- The row of an identity, with the rows before and behind it. -/
theorem exists_row {c : Collection α} (hd : c.ids.Nodup) {id : Identity} (h : id ∈ c.ids) :
    ∃ before row behind, c.rows = before ++ row :: behind ∧ c.row? id = some row ∧
      row.record.id = id ∧ ∀ other ∈ before ++ behind, other.record.id ≠ id := by
  rw [ids_eq_map_rows] at hd h
  obtain ⟨row, hrow, hid⟩ := List.mem_map.1 h
  obtain ⟨before, behind, hsplit⟩ := List.append_of_mem hrow
  rw [hsplit] at hd
  have hothers : ∀ other ∈ before ++ behind, other.record.id ≠ id := by
    have hmiddle : (before ++ row :: behind).Perm (row :: (before ++ behind)) := List.perm_middle
    have hperm := (hmiddle.map fun row => row.record.id).nodup_iff.1 hd
    rw [List.map_cons, List.nodup_cons] at hperm
    intro other hother hsame
    exact hperm.1 (List.mem_map.2 ⟨other, hother, hsame.trans hid.symm⟩)
  refine ⟨before, row, behind, hsplit, ?_, hid, hothers⟩
  rw [row?, hsplit, List.find?_append, List.find?_eq_none.2, Option.none_or,
    List.find?_cons_of_pos]
  · rw [hid, beq_self_eq_true]
  · intro other hother
    rw [beq_iff_eq]
    exact hothers other (List.mem_append_left _ hother)

theorem get_of_mem [Entity α] {c : Collection α} (hd : c.ids.Nodup) {r : Record α}
    (h : r ∈ c.all) : c.get r.id = .ok r := by
  obtain ⟨before, row, behind, hsplit, hfound, hid, hothers⟩ :=
    exists_row hd (List.mem_map_of_mem h)
  obtain ⟨other, hother, rfl⟩ := mem_all.1 h
  have hsame : other = row := by
    rw [hsplit, List.mem_append, List.mem_cons] at hother
    rcases hother with hother | hother | hother
    · exact absurd rfl (hothers other (List.mem_append_left _ hother))
    · exact hother
    · exact absurd rfl (hothers other (List.mem_append_right _ hother))
  rw [get, hfound, hsame]

theorem mem_all_of_get [Entity α] {c : Collection α} {id : Identity} {r : Record α}
    (h : c.get id = .ok r) : r ∈ c.all := by
  rw [get] at h
  split at h
  · next row hrow =>
    cases h
    exact List.mem_map_of_mem (List.mem_of_find?_eq_some hrow)
  · cases h

theorem id_eq_of_get [Entity α] {c : Collection α} {id : Identity} {r : Record α}
    (h : c.get id = .ok r) : r.id = id := by
  rw [get] at h
  split at h
  · next row hrow =>
    cases h
    simpa using List.find?_some hrow
  · cases h

/-- What is found under an identity is the first record with it. -/
theorem get_eq_find? [Entity α] (c : Collection α) (id : Identity) :
    c.get id = (c.all.find? fun r => r.id == id).elim (.error (notFound (α := α) id)) .ok := by
  have hfind : (c.all.find? fun r => r.id == id) = (c.row? id).map Row.record := by
    rw [all, List.find?_map]
    rfl
  rw [get, hfind]
  cases c.row? id with
  | none => rfl
  | some row => rfl

/-- The records tell what is found under an identity. -/
theorem get_congr [Entity α] {a b : Collection α} (h : a.all = b.all) (id : Identity) :
    a.get id = b.get id := by
  rw [get_eq_find?, get_eq_find?, h]

theorem eq_of_id_eq {c : Collection α} (hd : c.ids.Nodup) {a b : Record α} (ha : a ∈ c.all)
    (hb : b ∈ c.all) (h : a.id = b.id) : a = b :=
  List.inj_on_of_nodup_map hd ha hb h

/-! ### Taking in -/

theorem all_append [Entity α] (c : Collection α) (record : Record α) :
    (c.append record).all = c.all ++ [record] := by
  rw [append, all, List.map_append]
  rfl

theorem ids_append [Entity α] (c : Collection α) (record : Record α) :
    (c.append record).ids = c.ids ++ [record.id] := by
  rw [ids, all_append, List.map_append]
  rfl

/-- What a change does to each index holds of all indexes together. -/
theorem forall₂_onIndexes [Entity α] {P Q : IndexDefinition α → KeyIndex → Prop}
    {change : IndexDefinition α → KeyIndex → KeyIndex} {indexes : List KeyIndex}
    (h : List.Forall₂ P (Entity.indexes (α := α)) indexes)
    (hchange : ∀ definition index, P definition index → Q definition (change definition index)) :
    List.Forall₂ Q (Entity.indexes (α := α)) (onIndexes change indexes) := by
  rw [onIndexes]
  generalize Entity.indexes (α := α) = definitions at h ⊢
  induction h with
  | nil => exact List.Forall₂.nil
  | cons hhead _ ih => exact List.Forall₂.cons (hchange _ _ hhead) ih

theorem coherent_empty [Entity α] : (empty : Collection α).Coherent where
  distinct := List.nodup_nil
  ascending := List.Pairwise.nil
  bounded := fun _ h => absurd h List.not_mem_nil
  indexed := by
    change List.Forall₂ _ _ ((Entity.indexes (α := α)).map fun _ => KeyIndex.empty)
    rw [List.forall₂_map_right_iff]
    exact List.forall₂_same.2 fun _ _ => ⟨List.Pairwise.nil, List.Perm.nil⟩

theorem Coherent.append [Entity α] {c : Collection α} (h : c.Coherent) {record : Record α}
    (hnew : record.id ∉ c.ids) : (c.append record).Coherent where
  distinct := by
    rw [ids_append]
    exact List.nodup_append.2 ⟨h.distinct, List.nodup_singleton _, fun a ha b hb hab =>
      hnew (List.mem_singleton.1 hb ▸ hab ▸ ha)⟩
  ascending := by
    refine List.pairwise_append.2 ⟨h.ascending, List.pairwise_singleton _ _, ?_⟩
    intro a ha b hb
    rw [List.mem_singleton.1 hb]
    exact h.bounded a ha
  bounded := by
    intro row hrow
    rcases List.mem_append.1 hrow with hrow | hrow
    · exact Nat.lt_succ_of_lt (h.bounded row hrow)
    · rw [List.mem_singleton.1 hrow]
      exact Nat.lt_succ_self _
  indexed := by
    refine forall₂_onIndexes h.indexed fun definition index hlists => ⟨?_, ?_⟩
    · exact KeyIndex.sorted_insertEntry _ hlists.sorted
    · refine (KeyIndex.perm_insertEntry _ _).trans ((hlists.perm.cons _).trans ?_)
      rw [Collection.append, List.map_append]
      exact (List.perm_append_singleton _ _).symm

theorem Holds.append [Entity α] {c : Collection α} {supply more : Supply} (h : c.Holds supply)
    {record : Record α} (hnew : record.id ∉ c.ids) (hmore : supply.next ≤ more.next)
    (hrecord : record.id.value < more.next) : (c.append record).Holds more where
  coherent := h.coherent.append hnew
  taken := by
    intro id hid
    rw [ids_append, List.mem_append, List.mem_singleton] at hid
    rcases hid with hid | rfl
    · exact (h.later hmore).taken id hid
    · exact hrecord

theorem holds_empty [Entity α] (supply : Supply) : (empty : Collection α).Holds supply :=
  ⟨coherent_empty, fun _ h => absurd h List.not_mem_nil⟩

theorem insert_of_not_mem [Entity α] {c : Collection α} {record : Record α}
    (h : record.id ∉ c.ids) (supply : Supply) :
    c.insert supply record = .ok (c.append record, supply.reserve record.id) := by
  rw [insert, if_neg fun hcontains => h (contains_iff.1 hcontains)]

theorem insert_of_mem [Entity α] {c : Collection α} {record : Record α}
    (h : record.id ∈ c.ids) (supply : Supply) :
    c.insert supply record = .error (.duplicateId (Entity.collection α) record.id) := by
  rw [insert, if_pos (contains_iff.2 h)]

theorem Holds.insert [Entity α] {c : Collection α} {supply : Supply} (h : c.Holds supply)
    {record : Record α} (hnew : record.id ∉ c.ids) :
    (c.append record).Holds (supply.reserve record.id) :=
  h.append hnew (le_max_left _ _) (Nat.lt_of_succ_le (le_max_right _ _))

theorem next_le_insertAll [Entity α] (c : Collection α) (supply : Supply)
    (records : List (Record α)) : supply.next ≤ (c.insertAll supply records).2.next := by
  induction records generalizing c supply with
  | nil => exact le_rfl
  | cons record rest ih =>
    by_cases hmem : record.id ∈ c.ids
    · rw [insertAll, insert_of_mem hmem]
    · rw [insertAll, insert_of_not_mem hmem]
      exact (le_max_left _ _).trans (ih _ _)

/-- Records with new identities are taken in one after the other. -/
theorem insertAll_of_nodup [Entity α] {records : List (Record α)} {c : Collection α}
    {supply : Supply} (h : c.Holds supply) (hnew : (c.ids ++ records.map Record.id).Nodup) :
    ∃ c' supply', c.insertAll supply records = (.ok c', supply') ∧ c'.Holds supply' ∧
      c'.all = c.all ++ records := by
  induction records generalizing c supply with
  | nil => exact ⟨c, supply, rfl, h, (List.append_nil _).symm⟩
  | cons record rest ih =>
    rw [List.map_cons, ← List.singleton_append, ← List.append_assoc, ← ids_append] at hnew
    have hrecord : record.id ∉ c.ids := by
      have hids := (List.nodup_append.1 hnew).1
      rw [ids_append, List.nodup_append] at hids
      exact fun hmem => hids.2.2 _ hmem _ List.mem_cons_self rfl
    obtain ⟨c', supply', hok, hc', hall⟩ := ih (h.insert hrecord) hnew
    refine ⟨c', supply', ?_, hc', ?_⟩
    · rw [insertAll, insert_of_not_mem hrecord]
      exact hok
    · rw [hall, all_append, List.append_assoc, List.singleton_append]

/-- An identity that occurs twice stops the taking in. -/
theorem insertAll_of_not_nodup [Entity α] {records : List (Record α)} {c : Collection α}
    {supply : Supply} (h : c.ids.Nodup) (htwice : ¬ (c.ids ++ records.map Record.id).Nodup) :
    ∃ e, (c.insertAll supply records).1 = .error e := by
  induction records generalizing c supply with
  | nil =>
    rw [List.map_nil, List.append_nil] at htwice
    exact absurd h htwice
  | cons record rest ih =>
    by_cases hmem : record.id ∈ c.ids
    · rw [insertAll, insert_of_mem hmem]
      exact ⟨_, rfl⟩
    · rw [insertAll, insert_of_not_mem hmem]
      rw [List.map_cons, ← List.singleton_append, ← List.append_assoc, ← ids_append] at htwice
      refine ih ?_ htwice
      rw [ids_append, List.nodup_append]
      refine ⟨h, List.nodup_singleton _, fun a ha b hb hab => hmem ?_⟩
      exact List.mem_singleton.1 hb ▸ hab ▸ ha

/-! ### Changing and giving away -/

/-- An index without the entry of the only row of an identity lists the other rows. -/
theorem lists_erase {definition : IndexDefinition α} {index : KeyIndex}
    {before behind : List (Row α)} {row : Row α}
    (h : index.Lists definition (before ++ row :: behind))
    (hothers : ∀ other ∈ before ++ behind, other.record.id ≠ row.record.id) :
    (index.erase (definition.key row.record.entity) row.record.id).Lists definition
      (before ++ behind) := by
  refine ⟨KeyIndex.sorted_erase h.sorted _ _, ?_⟩
  rw [KeyIndex.entries_erase h.sorted]
  have hperm : index.entries.Perm (row.entry definition ::
      (before ++ behind).map (Row.entry definition)) :=
    h.perm.trans ((List.perm_middle.map _).trans (List.Perm.refl _))
  have hrest : ∀ e ∈ (before ++ behind).map (Row.entry definition),
      ¬ KeyIndex.isEntry (definition.key row.record.entity) row.record.id e = true := by
    intro e he hentry
    obtain ⟨other, hother, rfl⟩ := List.mem_map.1 he
    rw [KeyIndex.isEntry, Bool.and_eq_true, beq_iff_eq, beq_iff_eq] at hentry
    exact hothers other hother hentry.2
  have hfirst : KeyIndex.isEntry (definition.key row.record.entity) row.record.id
      (row.entry definition) = true := by
    simp [KeyIndex.isEntry, Row.entry]
  have hpairwise : (row.entry definition ::
      (before ++ behind).map (Row.entry definition)).Pairwise fun a b =>
        KeyIndex.isEntry (definition.key row.record.entity) row.record.id a = true →
        KeyIndex.isEntry (definition.key row.record.entity) row.record.id b = true → False := by
    refine List.pairwise_cons.2 ⟨fun b hb _ => hrest b hb, ?_⟩
    exact List.pairwise_of_forall_mem_list fun a ha _ _ hentry _ => hrest a ha hentry
  have herased := List.Perm.eraseP _ hpairwise hperm.symm
  rw [List.eraseP_cons_of_pos hfirst] at herased
  exact herased.symm

theorem lists_rekey {definition : IndexDefinition α} {index : KeyIndex}
    {before behind : List (Row α)} {row : Row α}
    (h : index.Lists definition (before ++ row :: behind))
    (hothers : ∀ other ∈ before ++ behind, other.record.id ≠ row.record.id) (entity : α) :
    (rekey row entity definition index).Lists definition
      (before ++ { row with record := ⟨row.record.id, entity⟩ } :: behind) := by
  rw [rekey]
  split
  case isTrue hkey =>
    refine ⟨h.sorted, h.perm.trans (List.Perm.of_eq ?_)⟩
    rw [List.map_append, List.map_append, List.map_cons, List.map_cons, Row.entry, Row.entry, hkey]
  case isFalse =>
    have herased := lists_erase h hothers
    refine ⟨KeyIndex.sorted_insertEntry _ herased.sorted, ?_⟩
    refine (KeyIndex.perm_insertEntry _ _).trans ((herased.perm.cons _).trans ?_)
    exact (List.perm_middle (a := { row with record := ⟨row.record.id, entity⟩ }).map
      (Row.entry definition)).symm

/-- A change of the rows of an identity changes the one row that has it. -/
theorem map_rows {β : Type} {before behind : List (Row α)} {row : Row α}
    (hothers : ∀ other ∈ before ++ behind, other.record.id ≠ row.record.id)
    (f g : Row α → β) :
    ((before ++ row :: behind).map fun other =>
      if other.record.id = row.record.id then f other else g other) =
      before.map g ++ f row :: behind.map g := by
  have hkept : ∀ part : List (Row α), (∀ other ∈ part, other ∈ before ++ behind) →
      (part.map fun other => if other.record.id = row.record.id then f other else g other) =
        part.map g := by
    intro part hpart
    refine List.map_congr_left fun other hother => ?_
    rw [if_neg (hothers other (hpart other hother))]
  rw [List.map_append, List.map_cons, hkept before fun _ => List.mem_append_left _,
    hkept behind fun _ => List.mem_append_right _, if_pos rfl]

theorem Coherent.replace [Entity α] {c : Collection α} (h : c.Coherent)
    {before behind : List (Row α)} {row : Row α} (hsplit : c.rows = before ++ row :: behind)
    (hothers : ∀ other ∈ before ++ behind, other.record.id ≠ row.record.id) (entity : α) :
    ({ c with
      rows := before ++ { row with record := ⟨row.record.id, entity⟩ } :: behind
      indexes := onIndexes (rekey row entity) c.indexes } : Collection α).Coherent where
  distinct := by
    have hids := h.distinct
    rw [ids_eq_map_rows, hsplit, List.map_append, List.map_cons] at hids
    rw [ids_eq_map_rows, List.map_append, List.map_cons]
    exact hids
  ascending := by
    have hasc := h.ascending
    rw [hsplit, List.pairwise_append, List.pairwise_cons] at hasc
    rw [List.pairwise_append, List.pairwise_cons]
    refine ⟨hasc.1, hasc.2.1, fun a ha b hb => ?_⟩
    rcases List.mem_cons.1 hb with rfl | hb
    · exact hasc.2.2 a ha row List.mem_cons_self
    · exact hasc.2.2 a ha b (List.mem_cons_of_mem _ hb)
  bounded := by
    intro other hother
    rcases List.mem_append.1 hother with hother | hother
    · exact h.bounded other (hsplit ▸ List.mem_append_left _ hother)
    · rcases List.mem_cons.1 hother with rfl | hother
      · exact h.bounded row (hsplit ▸ List.mem_append_right _ List.mem_cons_self)
      · exact h.bounded other (hsplit ▸ List.mem_append_right _ (List.mem_cons_of_mem _ hother))
  indexed :=
    forall₂_onIndexes h.indexed fun _ _ hlists => lists_rekey (hsplit ▸ hlists) hothers entity

theorem update_eq_ok [Entity α] {c : Collection α} (h : c.Coherent) {id : Identity}
    (hid : id ∈ c.ids) (change : α → α) :
    ∃ c' : Collection α, c.update id change = .ok c' ∧ c'.Coherent ∧
      c'.all = c.all.map fun r => if r.id = id then ⟨id, change r.entity⟩ else r := by
  obtain ⟨before, row, behind, hsplit, hfound, rfl, hothers⟩ := exists_row h.distinct hid
  let changed : Row α := { row with record := ⟨row.record.id, change row.record.entity⟩ }
  have hrows : (c.rows.map fun other => if other.record.id == row.record.id then
      { other with record := ⟨row.record.id, change row.record.entity⟩ } else other) =
      before ++ changed :: behind := by
    simp only [beq_iff_eq]
    rw [hsplit, map_rows hothers _ fun other => other, List.map_id', List.map_id']
  have hall : (before ++ changed :: behind).map Row.record = c.all.map fun r =>
      if r.id = row.record.id then ⟨row.record.id, change r.entity⟩ else r := by
    rw [all, hsplit, List.map_map, List.map_append, List.map_cons]
    exact (map_rows hothers (fun other => ⟨row.record.id, change other.record.entity⟩)
      Row.record).symm
  refine ⟨{ c with rows := _, indexes := _ }, by rw [update, hfound], ?_, ?_⟩
  · rw [hrows]
    exact h.replace hsplit hothers _
  · rw [← hall, all, hrows]

/-- What a change of one record leaves alone is left alone in the whole list. -/
theorem map_replaced {β : Type} {c c' : Collection α} {id : Identity} {new : Record α → α}
    (hall : c'.all = c.all.map fun r => if r.id = id then ⟨id, new r⟩ else r)
    {f : Record α → β} (hf : ∀ r ∈ c.all, r.id = id → f ⟨id, new r⟩ = f r) :
    c'.all.map f = c.all.map f := by
  rw [hall, List.map_map]
  refine List.map_congr_left fun r hr => ?_
  rw [Function.comp_apply]
  split
  · next hid => exact hf r hr hid
  · rfl

theorem ids_replaced {c c' : Collection α} {id : Identity} {new : Record α → α}
    (hall : c'.all = c.all.map fun r => if r.id = id then ⟨id, new r⟩ else r) :
    c'.ids = c.ids := map_replaced hall fun _ _ hid => hid.symm

/-- A change of a record that is known. -/
theorem update_of_mem [Entity α] {c : Collection α} (h : c.Coherent) {r : Record α}
    (hr : r ∈ c.all) (change : α → α) :
    ∃ c' : Collection α, c.update r.id change = .ok c' ∧ c'.Coherent ∧
      c'.all = c.all.map fun other =>
        if other.id = r.id then ⟨r.id, change r.entity⟩ else other := by
  obtain ⟨c', hok, hc', hall⟩ := update_eq_ok h (mem_ids.2 ⟨r, hr, rfl⟩) change
  refine ⟨c', hok, hc', hall.trans (List.map_congr_left fun other hother => ?_)⟩
  by_cases hsame : other.id = r.id
  · rw [if_pos hsame, if_pos hsame, eq_of_id_eq h.distinct hother hr hsame]
  · rw [if_neg hsame, if_neg hsame]

theorem remove_eq_ok [Entity α] {c : Collection α} (h : c.Coherent) {id : Identity}
    (hid : id ∈ c.ids) :
    ∃ (r : Record α) (c' : Collection α), c.remove id = .ok (r, c') ∧ c'.Coherent ∧
      c'.all = c.all.filter fun r => r.id ≠ id := by
  obtain ⟨before, row, behind, hsplit, hfound, rfl, hothers⟩ := exists_row h.distinct hid
  have hkept : ∀ part : List (Row α), (∀ other ∈ part, other ∈ before ++ behind) →
      part.filter (fun other => other.record.id != row.record.id) = part := by
    intro part hpart
    refine List.filter_eq_self.2 fun other hother => ?_
    rw [bne_iff_ne]
    exact hothers other (hpart other hother)
  have hrows : c.rows.filter (fun other => other.record.id != row.record.id) =
      before ++ behind := by
    rw [hsplit, List.filter_append, List.filter_cons_of_neg, hkept before fun _ =>
      List.mem_append_left _, hkept behind fun _ => List.mem_append_right _]
    rw [bne_self_eq_false]
    decide
  have hsub : (before ++ behind).Sublist c.rows :=
    hsplit ▸ List.Sublist.append_left (List.sublist_cons_self _ _) _
  refine ⟨row.record, _, by rw [remove, hfound], ?_, ?_⟩
  · constructor
    · rw [ids_eq_map_rows, hrows]
      exact (ids_eq_map_rows c ▸ h.distinct).sublist (hsub.map _)
    · rw [hrows]
      exact h.ascending.sublist hsub
    · intro other hother
      rw [hrows] at hother
      exact h.bounded other (hsub.subset hother)
    · rw [hrows]
      refine forall₂_onIndexes h.indexed fun definition index hlists => ?_
      exact lists_erase (hsplit ▸ hlists) hothers
  · rw [all, all, List.filter_map]
    congr 1
    refine List.filter_congr fun other _ => ?_
    rw [Function.comp_apply, Bool.eq_iff_iff, bne_iff_ne, decide_eq_true_eq]

/-! ### Records by key -/

theorem index?_eq_some [Entity α] {c : Collection α} (h : c.Coherent) {name : String}
    {key : α → String}
    (hname : (Entity.indexes (α := α)).find? (fun d => d.name == name) = some ⟨name, key⟩) :
    ∃ index, c.index? name = some index ∧ index.Lists ⟨name, key⟩ c.rows := by
  have hindexed := h.indexed
  rw [index?]
  generalize Entity.indexes (α := α) = definitions at hname hindexed ⊢
  generalize c.indexes = indexes at hindexed ⊢
  induction hindexed with
  | nil => cases hname
  | @cons definition index definitions indexes hhead _ ih =>
    rw [List.zip_cons_cons]
    by_cases hd : (definition.name == name) = true
    · simp only [List.find?_cons, hd, Option.some.injEq] at hname
      simp only [List.find?_cons, hd, Option.map_some, Option.some.injEq, exists_eq_left']
      exact hname ▸ hhead
    · rw [Bool.not_eq_true] at hd
      simp only [List.find?_cons, hd] at hname
      simp only [List.find?_cons, hd]
      exact ih hname

/-- The records that a look-up by a key finds are those with this key. -/
theorem perm_equal [Entity α] {c : Collection α} {definition : IndexDefinition α}
    {index : KeyIndex} (h : index.Lists definition c.rows) (key : String) :
    (index.equal key).Perm
      ((c.all.filter fun r => definition.key r.entity == key).map Record.id) := by
  rw [KeyIndex.equal_eq_filter h.sorted]
  refine ((h.perm.filter _).map _).trans (List.Perm.of_eq ?_)
  rw [List.filter_map, List.map_map, all, List.filter_map, List.map_map]
  rfl

theorem findOnly_eq_none [Entity α] {c : Collection α} (h : c.Coherent) {name : String}
    {key : α → String}
    (hname : (Entity.indexes (α := α)).find? (fun d => d.name == name) = some ⟨name, key⟩)
    {wanted : String} (hnone : ∀ r ∈ c.all, key r.entity ≠ wanted) :
    c.findOnly name wanted = .ok none := by
  obtain ⟨index, hindex, hlists⟩ := index?_eq_some h hname
  have hfound := perm_equal hlists wanted
  have hfilter : (c.all.filter fun r => key r.entity == wanted) = [] := by
    refine List.filter_eq_nil_iff.2 fun r hr => ?_
    rw [beq_iff_eq]
    exact hnone r hr
  rw [hfilter, List.map_nil, List.perm_nil] at hfound
  rw [findOnly, lookup, hindex]
  simp only [KeyIndex.find, hfound]
  rfl

theorem findOnly_eq_some [Entity α] {c : Collection α} (h : c.Coherent) {name : String}
    {key : α → String}
    (hname : (Entity.indexes (α := α)).find? (fun d => d.name == name) = some ⟨name, key⟩)
    {r : Record α} (hr : r ∈ c.all)
    (hunique : ∀ other ∈ c.all, key other.entity = key r.entity → other = r) :
    c.findOnly name (key r.entity) = .ok (some r) := by
  obtain ⟨index, hindex, hlists⟩ := index?_eq_some h hname
  have hfound := perm_equal hlists (key r.entity)
  have hfilter : (c.all.filter fun other => key other.entity == key r.entity) = [r] := by
    have hnodup : (c.all.filter fun other => key other.entity == key r.entity).Nodup :=
      (List.Nodup.of_map _ h.distinct).filter _
    refine List.perm_singleton.1 ((List.perm_ext_iff_of_nodup hnodup
      (List.nodup_singleton r)).2 fun other => ?_)
    rw [List.mem_filter, List.mem_singleton, beq_iff_eq]
    exact ⟨fun hother => hunique other hother.1 hother.2, fun h => ⟨h ▸ hr, h ▸ rfl⟩⟩
  rw [hfilter, List.map_singleton, List.perm_singleton] at hfound
  rw [findOnly, lookup, hindex]
  simp only [KeyIndex.find, hfound]
  rw [List.mapM_cons, get_of_mem h.distinct hr]
  rfl

end Collection

end ResourceCatalog
