import Mathlib
import ResourceCatalog.Proofs.Graph.Lookup

/-!
# Collections over time

A collection is made, filled, changed and emptied by operations in any order, some of which are
refused. What it holds is told by the operations alone, as a list: a record comes in at the end, is
changed in its place and goes away. After any history a collection presents exactly this list, by
order, by identity and by every index. The invariant that carries this is `Holds`: the collection is
coherent, and a fresh identity is none of its own.
-/

namespace ResourceCatalog

variable {α : Type}

/-- An operation on a collection. -/
inductive CollectionStep (α : Type) where
  | new
  | ofRecords (records : List (Record α))
  | allocate (entity : α)
  | insert (record : Record α)
  | update (id : Identity) (change : α → α)
  | remove (id : Identity)
  /-- Other collections share the supply and move it past some identities. -/
  | elsewhere (ids : List Identity)

namespace CollectionStep

variable [Entity α]

/-- The collection and the supply after an operation. What is refused leaves the collection. -/
def apply (step : CollectionStep α) (state : Collection α × Supply) : Collection α × Supply :=
  match step, state with
  | new, (_, supply) => (Collection.empty, supply)
  | ofRecords records, (c, supply) =>
    match Collection.empty.insertAll supply records with
    | (.ok made, supply) => (made, supply)
    | (.error _, supply) => (c, supply)
  | allocate entity, (c, supply) => (c.allocate supply entity).2
  | insert record, (c, supply) =>
    match c.insert supply record with
    | .ok state => state
    | .error _ => (c, supply)
  | update id change, (c, supply) =>
    match c.update id change with
    | .ok c => (c, supply)
    | .error _ => (c, supply)
  | remove id, (c, supply) =>
    match c.remove id with
    | .ok (_, c) => (c, supply)
    | .error _ => (c, supply)
  | elsewhere ids, (c, supply) => (c, ids.foldl Supply.reserve supply)

def run (steps : List (CollectionStep α)) (state : Collection α × Supply) :
    Collection α × Supply :=
  steps.foldl (fun state step => step.apply state) state

omit [Entity α] in
/-- The live records after an operation, if `fresh` is the next identity of the supply. -/
def live (step : CollectionStep α) (fresh : Identity) (records : List (Record α)) :
    List (Record α) :=
  match step with
  | new => []
  | ofRecords given => if (given.map Record.id).Nodup then given else records
  | allocate entity => records ++ [⟨fresh, entity⟩]
  | insert record => if record.id ∈ records.map Record.id then records else records ++ [record]
  | update id change => records.map fun r => if r.id = id then ⟨id, change r.entity⟩ else r
  | remove id => records.filter fun r => r.id ≠ id
  | elsewhere _ => records

/-- The live records after operations one after the other. -/
def liveAfter (steps : List (CollectionStep α)) (state : Collection α × Supply)
    (records : List (Record α)) : List (Record α) :=
  match steps with
  | [] => records
  | step :: rest => liveAfter rest (step.apply state) (step.live ⟨state.2.next⟩ records)

end CollectionStep

namespace Collection

variable [Entity α]

/-- The collection shows exactly these records, in all the ways in which it can be asked. -/
structure Presents (c : Collection α) (records : List (Record α)) : Prop where
  distinct : (records.map Record.id).Nodup
  all : c.all = records
  size : c.size = records.length
  get_of_mem : ∀ r ∈ records, c.get r.id = .ok r
  get_of_not_mem : ∀ id ∉ records.map Record.id, c.get id = .error (notFound (α := α) id)
  lookup : ∀ name query,
    match (Entity.indexes (α := α)).find? fun d => d.name == name with
    | some definition => ∃ found,
        c.lookup name query = .ok ⟨Entity.collection α, s!"{name} {query.text}", found⟩ ∧
          definition.Answers records found query
    | none => c.lookup name query = .error (.noSuchIndex (Entity.collection α) name)

theorem Coherent.presents {c : Collection α} (h : c.Coherent) : c.Presents c.all where
  distinct := h.distinct
  all := rfl
  size := (List.length_map _).symm
  get_of_mem := fun _ hr => Collection.get_of_mem h.distinct hr
  get_of_not_mem := by
    intro id hid
    rw [get, row?_eq_none hid]
  lookup := by
    intro name query
    split
    · next hname => exact exists_lookup h hname query
    · next hname => exact lookup_eq_error hname query

theorem holds_update {c : Collection α} {supply : Supply} (h : c.Holds supply) {id : Identity}
    (change : α → α) {c' : Collection α} (hc' : c'.Coherent)
    (hall : c'.all = c.all.map fun r => if r.id = id then ⟨id, change r.entity⟩ else r) :
    c'.Holds supply := by
  have hids : c'.ids = c.ids := ids_replaced hall
  exact ⟨hc', hids ▸ h.taken⟩

end Collection

namespace CollectionStep

variable [Entity α] {c : Collection α} {supply : Supply}

theorem next_le_foldl_reserve (supply : Supply) (ids : List Identity) :
    supply.next ≤ (ids.foldl Supply.reserve supply).next := by
  induction ids generalizing supply with
  | nil => exact le_rfl
  | cons id rest ih => exact (le_max_left _ _).trans (ih _)

/-- What every operation keeps, and what it makes of the records. -/
theorem holds_apply (h : c.Holds supply) (step : CollectionStep α) :
    (step.apply (c, supply)).1.Holds (step.apply (c, supply)).2 ∧
      (step.apply (c, supply)).1.all = step.live ⟨supply.next⟩ c.all := by
  cases step with
  | new => exact ⟨Collection.holds_empty supply, rfl⟩
  | ofRecords records =>
    simp only [apply, live]
    by_cases hnodup : (records.map Record.id).Nodup
    · obtain ⟨made, left, hok, hmade, hall⟩ :=
        Collection.insertAll_of_nodup (Collection.holds_empty (α := α) supply) hnodup
      rw [hok, if_pos hnodup]
      exact ⟨hmade, hall⟩
    · obtain ⟨e, he⟩ : ∃ e, (Collection.empty.insertAll supply records).1 = .error e :=
        Collection.insertAll_of_not_nodup List.nodup_nil hnodup
      have hlater := Collection.next_le_insertAll (Collection.empty (α := α)) supply records
      revert he hlater
      rcases Collection.empty.insertAll supply records with ⟨result, left⟩
      rintro rfl hlater
      rw [if_neg hnodup]
      exact ⟨h.later hlater, rfl⟩
  | allocate entity =>
    refine ⟨h.append h.next_not_mem (Nat.le_succ _) (Nat.lt_succ_self _), ?_⟩
    exact Collection.all_append _ _
  | insert record =>
    rw [apply, live, ← Collection.ids]
    by_cases hmem : record.id ∈ c.ids
    · rw [Collection.insert_of_mem hmem, if_pos hmem]
      exact ⟨h, rfl⟩
    · rw [Collection.insert_of_not_mem hmem, if_neg hmem]
      exact ⟨h.insert hmem, Collection.all_append _ _⟩
  | update id change =>
    simp only [apply, live]
    by_cases hmem : id ∈ c.ids
    · obtain ⟨c', hok, hc', hall⟩ := Collection.update_eq_ok h.coherent hmem change
      rw [hok]
      exact ⟨Collection.holds_update h change hc' hall, hall⟩
    · rw [Collection.update, Collection.row?_eq_none hmem]
      have hall : (c.all.map fun r => if r.id = id then ⟨id, change r.entity⟩ else r) =
          c.all.map fun r => r := by
        refine List.map_congr_left fun r hr => ?_
        rw [if_neg fun hid => hmem (Collection.mem_ids.2 ⟨r, hr, hid⟩)]
      exact ⟨h, (hall.trans (List.map_id _)).symm⟩
  | remove id =>
    simp only [apply, live]
    by_cases hmem : id ∈ c.ids
    · obtain ⟨r, c', hok, hc', hall⟩ := Collection.remove_eq_ok h.coherent hmem
      rw [hok]
      refine ⟨⟨hc', fun other hother => h.taken other ?_⟩, hall⟩
      rw [Collection.ids, hall] at hother
      exact (List.filter_sublist.map _).subset hother
    · rw [Collection.remove, Collection.row?_eq_none hmem]
      refine ⟨h, (List.filter_eq_self.2 fun r hr => ?_).symm⟩
      rw [decide_eq_true_eq]
      exact fun hid => hmem (Collection.mem_ids.2 ⟨r, hr, hid⟩)
  | elsewhere ids => exact ⟨h.later (next_le_foldl_reserve supply ids), rfl⟩

/-- After any history of operations on a collection it presents the records that are live. -/
theorem presents_run (supply : Supply) (steps : List (CollectionStep α)) :
    (run steps (Collection.empty, supply)).1.Presents
      (liveAfter steps (Collection.empty, supply) []) := by
  suffices hrun : ∀ (c : Collection α) (supply : Supply), c.Holds supply →
      (run steps (c, supply)).1.Presents (liveAfter steps (c, supply) c.all) from
    hrun Collection.empty supply (Collection.holds_empty supply)
  intro c supply h
  induction steps generalizing c supply with
  | nil => exact h.coherent.presents
  | cons step rest ih =>
    obtain ⟨hholds, hall⟩ := holds_apply h step
    rw [liveAfter, ← hall]
    exact ih _ _ hholds

end CollectionStep

end ResourceCatalog
