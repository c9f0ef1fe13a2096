import Mathlib
import ResourceCatalog.Catalog.Snapshot
import ResourceCatalog.Proofs.Computation
import ResourceCatalog.Proofs.Graph.History

/-!
# Identities over time

All collections and databases share one supply of identities. The supply is moved past an identity
when it is handed out and when a record is taken in under it, also by a loading that fails later. So
an identity that is handed out is greater than all of these. Loading brings other identities along,
the ends of edges and the references inside of types, and it does not move the supply past them: of
an identity that is no record's it depends on the records alone whether a later entity gets it.
-/

namespace ResourceCatalog

namespace Collection

variable {α : Type}

/-- The identities of the records up to the first one that is refused because its identity has been
there before. -/
def accepted (taken : List Identity) : List (Record α) → List Identity
  | [] => []
  | record :: rest =>
    if record.id ∈ taken then [] else record.id :: accepted (taken ++ [record.id]) rest

/-- Taking in records moves the supply past those that are accepted. -/
theorem insertAll_snd [Entity α] (c : Collection α) (supply : Supply) (records : List (Record α)) :
    (c.insertAll supply records).2 = (accepted c.ids records).foldl Supply.reserve supply := by
  induction records generalizing c supply with
  | nil => rfl
  | cons record rest ih =>
    by_cases hmem : record.id ∈ c.ids
    · rw [insertAll, insert_of_mem hmem, accepted, if_pos hmem]
      rfl
    · rw [insertAll, insert_of_not_mem hmem, accepted, if_neg hmem, ← ids_append]
      exact ih _ _

theorem ids_of_insertAll [Entity α] {c made : Collection α} {supply left : Supply}
    {records : List (Record α)} (h : c.insertAll supply records = (.ok made, left)) :
    made.ids = c.ids ++ accepted c.ids records := by
  induction records generalizing c supply with
  | nil =>
    cases h
    exact (List.append_nil _).symm
  | cons record rest ih =>
    by_cases hmem : record.id ∈ c.ids
    · rw [insertAll, insert_of_mem hmem] at h
      cases h
    · rw [insertAll, insert_of_not_mem hmem] at h
      rw [ih h, accepted, if_neg hmem, ids_append, List.append_assoc, List.singleton_append]

/-- An empty collection takes in all the records or fails, by their identities. -/
theorem insertAll_empty [Entity α] (supply : Supply) (records : List (Record α)) :
    match Collection.empty.insertAll supply records with
    | (.ok made, left) => (records.map Record.id).Nodup ∧ made.ids = accepted [] records ∧
        left = (accepted [] records).foldl Supply.reserve supply
    | (.error _, left) => ¬ (records.map Record.id).Nodup ∧
        left = (accepted [] records).foldl Supply.reserve supply := by
  have hleft := insertAll_snd (empty (α := α)) supply records
  cases hrun : (empty (α := α)).insertAll supply records with
  | mk result left =>
    rw [hrun] at hleft
    cases result with
    | ok made =>
      refine ⟨by_contra fun htwice => ?_, ids_of_insertAll hrun, hleft⟩
      obtain ⟨e, he⟩ : ∃ e, ((empty (α := α)).insertAll supply records).1 = .error e :=
        insertAll_of_not_nodup List.nodup_nil htwice
      rw [hrun] at he
      cases he
    | error e =>
      refine ⟨fun hnodup => ?_, hleft⟩
      obtain ⟨made, left', hok, -⟩ := insertAll_of_nodup (holds_empty (α := α) supply) hnodup
      rw [hrun] at hok
      cases hok

end Collection

/-! ### What a loading takes in -/

namespace Snapshot

/-- The identities under which the records of a section are taken in, and whether the whole section
is. -/
def sectionIds (α : Type) [Entity α] [Readable α] (snapshot : Snapshot) : List Identity × Bool :=
  match Keyed.get? (Entity.collection α) snapshot.entities with
  | none => ([], true)
  | some value =>
    match recordsOfJson? (α := α) value with
    | none => ([], false)
    | some records =>
      (Collection.accepted [] records, decide (records.map Record.id).Nodup)

/-- The identities of sections up to the first one that is not taken in as a whole. -/
def untilFailure : List (List Identity × Bool) → List Identity
  | [] => []
  | (ids, complete) :: rest => ids ++ if complete then untilFailure rest else []

/-- The identities under which a loading takes in records. -/
def takenIn (snapshot : Snapshot) : List Identity :=
  match snapshot.verify with
  | .error _ => []
  | .ok () => untilFailure [snapshot.sectionIds Service, snapshot.sectionIds Resource,
      snapshot.sectionIds TypeDefinition, snapshot.sectionIds Region]

end Snapshot

namespace Database

/-- The identities of the entities of a database. -/
def recordIds (db : Database) : List Identity :=
  db.services.ids ++ db.resources.ids ++ db.typeDefinitions.ids ++ db.regions.ids

variable {snapshot : Snapshot}

theorem ends_loadCollection_ids {α : Type} [Entity α] [Readable α] (snapshot : Snapshot)
    (supply : Supply) :
    Ends (loadCollection (α := α) snapshot) supply
      (fun loaded left => snapshot.sectionIds α = (loaded.ids, true) ∧
        left = (snapshot.sectionIds α).1.foldl Supply.reserve supply)
      (fun _ left => (snapshot.sectionIds α).2 = false ∧
        left = (snapshot.sectionIds α).1.foldl Supply.reserve supply) := by
  rw [loadCollection, Snapshot.sectionIds]
  cases Keyed.get? (Entity.collection α) snapshot.entities with
  | none => exact ⟨rfl, rfl⟩
  | some value =>
    dsimp only
    cases recordsOfJson? (α := α) value with
    | none => exact ⟨rfl, rfl⟩
    | some records =>
      dsimp only
      rw [ends_bind, ends_get]
      have htaken := Collection.insertAll_empty (α := α) supply records
      revert htaken
      rcases (Collection.empty (α := α)).insertAll supply records with ⟨e | made, left⟩
      · rintro ⟨htwice, rfl⟩
        exact ⟨decide_eq_false htwice, rfl⟩
      · rintro ⟨hnodup, hids, rfl⟩
        exact ⟨by rw [hids, decide_eq_true hnodup], rfl⟩

/-- A section is loaded before others. -/
theorem ends_loadCollection_bind {α : Type} [Entity α] [Readable α] {snapshot : Snapshot}
    {later : List (List Identity × Bool)} {next : Collection α → Loading Database}
    {P : Database → List Identity → Prop}
    (hnext : ∀ (loaded : Collection α) (supply : Supply), Ends (next loaded) supply
      (fun db left => P db (loaded.ids ++ Snapshot.untilFailure later) ∧
        left = (Snapshot.untilFailure later).foldl Supply.reserve supply)
      (fun _ left => left = (Snapshot.untilFailure later).foldl Supply.reserve supply))
    (supply : Supply) :
    let all := Snapshot.untilFailure (snapshot.sectionIds α :: later)
    Ends (loadCollection snapshot >>= next) supply
      (fun db left => P db all ∧ left = all.foldl Supply.reserve supply)
      (fun _ left => left = all.foldl Supply.reserve supply) := by
  intro all
  have hall : all = (snapshot.sectionIds α).1 ++
      if (snapshot.sectionIds α).2 then Snapshot.untilFailure later else [] := rfl
  rw [hall, ends_bind]
  refine (ends_loadCollection_ids snapshot supply).mono ?_ ?_
  · rintro loaded left ⟨hsection, rfl⟩
    rw [hsection, if_pos rfl, List.foldl_append]
    exact hnext loaded _
  · rintro e left ⟨hsection, rfl⟩
    rw [hsection, if_neg (by decide), List.append_nil]

theorem ends_loadEdges_left {α : Type} [DecidableEq α] [Readable α] (snapshot : Snapshot)
    (relationship : Relationship) (supply : Supply) :
    Ends (loadEdges (α := α) snapshot relationship) supply (fun _ left => left = supply)
      (fun _ left => left = supply) := by
  rw [loadEdges]
  split
  · exact rfl
  · split
    · exact rfl
    · exact rfl

/-- Loading moves the supply past the records that it takes in, and past nothing else. -/
theorem ends_loadSections_ids (snapshot : Snapshot) (supply : Supply) :
    Ends (loadSections snapshot) supply
      (fun db left => snapshot.takenIn = db.recordIds ∧
        left = snapshot.takenIn.foldl Supply.reserve supply)
      (fun _ left => left = snapshot.takenIn.foldl Supply.reserve supply) := by
  rw [loadSections, Snapshot.takenIn]
  cases snapshot.verify with
  | error e => exact rfl
  | ok _ =>
    dsimp only
    refine ends_loadCollection_bind (P := fun db ids => ids = db.recordIds) ?_ supply
    intro services supply
    refine ends_loadCollection_bind
      (P := fun db ids => services.ids ++ ids = db.recordIds) ?_ supply
    intro resources supply
    refine ends_loadCollection_bind
      (P := fun db ids => services.ids ++ (resources.ids ++ ids) = db.recordIds) ?_ supply
    intro definitions supply
    refine ends_loadCollection_bind (P := fun db ids =>
      services.ids ++ (resources.ids ++ (definitions.ids ++ ids)) = db.recordIds) ?_ supply
    intro regions supply
    rw [ends_bind]
    refine (ends_loadEdges_left snapshot _ supply).mono ?_ fun _ _ h => h
    rintro hasResource _ rfl
    rw [ends_bind]
    refine (ends_loadEdges_left snapshot _ _).mono ?_ fun _ _ h => h
    rintro usesType _ rfl
    rw [ends_bind]
    refine (ends_loadEdges_left snapshot _ _).mono ?_ fun _ _ h => h
    rintro regionHasResource _ rfl
    refine ⟨?_, rfl⟩
    simp only [recordIds, Snapshot.untilFailure, List.append_nil, List.append_assoc]

theorem load_snd (snapshot : Snapshot) (supply : Supply) :
    (load snapshot supply).2 = snapshot.takenIn.foldl Supply.reserve supply :=
  Ends.of_left ((ends_loadSections_ids snapshot supply).mono (fun _ _ h => h.2) fun _ _ h => h)

theorem takenIn_of_load {supply : Supply} {db : Database}
    (h : (load snapshot supply).1 = .ok db) : snapshot.takenIn = db.recordIds := by
  have hrun : load snapshot supply = (.ok db, (load snapshot supply).2) := Prod.ext h rfl
  exact ((ends_loadSections_ids snapshot supply).of_run_ok hrun).1

end Database

/-! ### Runs -/

/-- What is done with the supply, on any collections and with any snapshots. -/
inductive SupplyStep : Type 1 where
  | fresh
  | allocate (α : Type) [Entity α] (c : Collection α) (entity : α)
  | insert (α : Type) [Entity α] (c : Collection α) (record : Record α)
  | load (snapshot : Snapshot)

namespace SupplyStep

/-- The supply after a step. -/
def apply (step : SupplyStep) (supply : Supply) : Supply :=
  match step with
  | fresh => supply.fresh.2
  | allocate _ c entity => (c.allocate supply entity).2.2
  | insert _ c record =>
    match c.insert supply record with
    | .ok (_, left) => left
    | .error _ => supply
  | load snapshot => (Database.load snapshot supply).2

/-- The identity that a step hands out. -/
def returned (step : SupplyStep) (supply : Supply) : Option Identity :=
  match step with
  | fresh => some supply.fresh.1
  | allocate _ c entity => some (c.allocate supply entity).1
  | insert _ _ _ | load _ => none

/-- The identities under which a step takes in records that have them already. -/
def inserted : SupplyStep → List Identity
  | fresh | allocate _ _ _ => []
  | insert _ c record => if record.id ∈ c.ids then [] else [record.id]
  | load snapshot => snapshot.takenIn

def run (steps : List SupplyStep) (supply : Supply) : Supply :=
  steps.foldl (fun supply step => step.apply supply) supply

/-- The identities that steps one after the other hand out or take in. -/
def used : List SupplyStep → Supply → List Identity
  | [], _ => []
  | step :: rest, supply =>
    (step.returned supply).toList ++ step.inserted ++ used rest (step.apply supply)

/-- Handing out an identity is moving the supply past it. -/
theorem apply_eq (step : SupplyStep) (supply : Supply) :
    step.apply supply =
      ((step.returned supply).toList ++ step.inserted).foldl Supply.reserve supply := by
  have hfresh : supply.fresh.2 = supply.reserve supply.fresh.1 :=
    congrArg Supply.mk (max_eq_right (Nat.le_succ _)).symm
  cases step with
  | fresh => exact hfresh
  | allocate α c entity => exact hfresh
  | insert α c record =>
    rw [apply, returned, inserted]
    by_cases hmem : record.id ∈ c.ids
    · rw [Collection.insert_of_mem hmem, if_pos hmem]
      rfl
    · rw [Collection.insert_of_not_mem hmem, if_neg hmem]
      rfl
  | load snapshot => exact Database.load_snd snapshot supply

theorem run_eq (steps : List SupplyStep) (supply : Supply) :
    run steps supply = (used steps supply).foldl Supply.reserve supply := by
  induction steps generalizing supply with
  | nil => rfl
  | cons step rest ih =>
    rw [used, List.foldl_append, ← apply_eq]
    exact ih _

/-- What is handed out is the next identity. -/
theorem eq_next_of_returned {step : SupplyStep} {supply : Supply} {id : Identity}
    (h : step.returned supply = some id) : id.value = supply.next := by
  cases step with
  | fresh =>
    cases h
    rfl
  | allocate α c entity =>
    cases h
    rfl
  | insert α c record => cases h
  | load snapshot => cases h

theorem lt_next_foldl_reserve (supply : Supply) {ids : List Identity} {n : Nat} :
    n < (ids.foldl Supply.reserve supply).next ↔ n < supply.next ∨ ∃ id ∈ ids, n ≤ id.value := by
  induction ids generalizing supply with
  | nil => simp
  | cons id rest ih =>
    rw [List.foldl_cons, ih, Supply.reserve, lt_max_iff, Nat.lt_succ_iff, List.exists_mem_cons_iff,
      or_assoc]

theorem next_run_replicate_fresh (n : Nat) (supply : Supply) :
    (run (List.replicate n fresh) supply).next = supply.next + n := by
  induction n generalizing supply with
  | zero => rfl
  | succ n ih => 
    rw [List.replicate_succ]
    refine (ih _).trans ?_
    show supply.next + 1 + n = supply.next + (n + 1)
    omega

end SupplyStep

/-! ### Identities that dangle -/

namespace CollectionStep

variable {α : Type}

/-- The identities of the records that an operation takes in under identities of their own. -/
def given : CollectionStep α → List Identity
  | insert record => [record.id]
  | ofRecords records => records.map Record.id
  | new | allocate _ | update _ _ | remove _ | elsewhere _ => []

/-- Only what is given to an operation or next in the supply becomes an identity of its
collection. -/
theorem mem_live {step : CollectionStep α} {id fresh : Identity} {records : List (Record α)}
    (h : id ∈ (step.live fresh records).map Record.id) :
    id ∈ records.map Record.id ∨ id ∈ step.given ∨ id = fresh := by
  cases step with
  | new => exact absurd h List.not_mem_nil
  | ofRecords new =>
    rw [live] at h
    split at h
    · exact Or.inr (Or.inl h)
    · exact Or.inl h
  | allocate entity =>
    rw [live, List.map_append, List.mem_append] at h
    exact h.imp_right fun hnew => Or.inr (List.mem_singleton.1 hnew)
  | insert record =>
    rw [live] at h
    split at h
    · exact Or.inl h
    · rw [List.map_append, List.mem_append] at h
      exact h.imp_right Or.inl
  | update other change =>
    refine Or.inl ?_
    rw [live, List.map_map] at h
    obtain ⟨r, hr, rfl⟩ := List.mem_map.1 h
    refine List.mem_map.2 ⟨r, hr, ?_⟩
    show r.id = (if r.id = other then (⟨other, change r.entity⟩ : Record α) else r).id
    split
    · assumption
    · rfl
  | remove other => exact Or.inl ((List.filter_sublist.map _).subset h)
  | elsewhere ids => exact Or.inl h

variable [Entity α] {c : Collection α} {supply : Supply} {id : Identity}

theorem next_le_apply (step : CollectionStep α) (state : Collection α × Supply) :
    state.2.next ≤ (step.apply state).2.next := by
  obtain ⟨c, supply⟩ := state
  cases step with
  | new => exact le_rfl
  | ofRecords records =>
    have hle := Collection.next_le_insertAll (Collection.empty (α := α)) supply records
    rw [apply]
    revert hle
    rcases (Collection.empty (α := α)).insertAll supply records with ⟨e | made, left⟩
    · exact fun hle => hle
    · exact fun hle => hle
  | allocate entity => exact Nat.le_succ _
  | insert record =>
    rw [apply]
    by_cases hmem : record.id ∈ c.ids
    · rw [Collection.insert_of_mem hmem]
    · rw [Collection.insert_of_not_mem hmem]
      exact le_max_left _ _
  | update other change =>
    rw [apply]
    cases c.update other change <;> exact le_rfl
  | remove other =>
    rw [apply]
    cases c.remove other <;> exact le_rfl
  | elsewhere ids => exact next_le_foldl_reserve supply ids

/-- An identity that the supply has left behind and that is no record's stays so, unless a record
comes in under it. -/
theorem get_run_eq_notFound (steps : List (CollectionStep α)) (h : c.Holds supply)
    (hid : id ∉ c.ids) (hleft : id.value < supply.next) (hgiven : ∀ step ∈ steps, id ∉ step.given) :
    (run steps (c, supply)).1.get id = .error (Collection.notFound (α := α) id) := by
  induction steps generalizing c supply with
  | nil =>
    show c.get id = _
    rw [Collection.get, Collection.row?_eq_none hid]
  | cons step rest ih =>
    obtain ⟨hholds, hall⟩ := holds_apply h step
    refine ih hholds (fun hmem => ?_) (lt_of_lt_of_le hleft (next_le_apply step (c, supply)))
      fun other hother => hgiven other (List.mem_cons_of_mem _ hother)
    have hlive : id ∈ (step.live ⟨supply.next⟩ c.all).map Record.id := by
      rw [← hall]
      exact hmem
    rcases mem_live hlive with hmem | hmem | rfl
    · exact hid hmem
    · exact hgiven step List.mem_cons_self hmem
    · exact lt_irrefl _ hleft

theorem run_replicate_allocate (n : Nat) (entity : α) (h : c.Holds supply) :
    (run (List.replicate n (allocate entity)) (c, supply)).1.Holds
        (run (List.replicate n (allocate entity)) (c, supply)).2 ∧
      (run (List.replicate n (allocate entity)) (c, supply)).2.next = supply.next + n := by
  induction n generalizing c supply with
  | zero => exact ⟨h, rfl⟩
  | succ n ih =>
    obtain ⟨hholds, hnext⟩ := ih (holds_apply h (allocate entity)).1
    refine ⟨hholds, hnext.trans ?_⟩
    show supply.next + 1 + n = supply.next + (n + 1)
    omega

/-- An identity that is still in the supply becomes that of another entity. -/
theorem get_run_eq_allocated (entity : α) (h : c.Holds supply) (hid : supply.next ≤ id.value) :
    (run (List.replicate (id.value - supply.next + 1) (allocate entity)) (c, supply)).1.get id =
      .ok ⟨id, entity⟩ := by
  have hlater : run (List.replicate (id.value - supply.next + 1) (allocate entity)) (c, supply) =
      (allocate entity).apply
        (run (List.replicate (id.value - supply.next) (allocate entity)) (c, supply)) := by
    rw [List.replicate_succ', run, List.foldl_append]
    rfl
  obtain ⟨hholds, hnext⟩ := run_replicate_allocate (id.value - supply.next) entity h
  rw [hlater]
  generalize run _ (c, supply) = state at hholds hnext ⊢
  obtain ⟨c', supply'⟩ := state
  obtain ⟨hlast, hall⟩ := holds_apply hholds (allocate entity)
  have hrecord : (⟨id, entity⟩ : Record α) ∈ ((allocate entity).apply (c', supply')).1.all := by
    have hvalue : supply'.next = id.value := hnext.trans (Nat.add_sub_cancel' hid)
    rw [hall, live, hvalue]
    exact List.mem_append_right _ List.mem_cons_self
  exact Collection.get_of_mem hlast.coherent.distinct hrecord

end CollectionStep

/-- What a run does to identities. The supply is moved past those that are handed out and those of
the records that are taken in, for a loaded database its entities, and past no others. So what is
handed out is greater than all of these, and any other identity, such as an end of an edge or a
reference in a type, is handed out later unless one of these is greater than it or the same. As long
as it can be handed out, a reference to it that dangles gets a target in the end; after that it
dangles in every collection until a record comes in under it. -/
theorem identities_of_run {α : Type} [Entity α] (supply : Supply) (steps : List SupplyStep)
    {c : Collection α} (hc : c.Holds (SupplyStep.run steps supply)) {id : Identity}
    (hid : id ∉ c.ids) :
    let used := SupplyStep.used steps supply
    let left := SupplyStep.run steps supply
    left = used.foldl Supply.reserve supply ∧
    (∀ snapshot db, (Database.load snapshot left).1 = .ok db →
      (SupplyStep.load snapshot).inserted = db.recordIds) ∧
    (∀ step other, SupplyStep.returned step left = some other →
      ∀ earlier ∈ used, earlier.value < other.value) ∧
    ((∃ later step, SupplyStep.returned step (SupplyStep.run later left) = some id) ↔
      supply.next ≤ id.value ∧ ∀ earlier ∈ used, earlier.value < id.value) ∧
    ((supply.next ≤ id.value ∧ ∀ earlier ∈ used, earlier.value < id.value) → ∀ entity,
      (CollectionStep.run (List.replicate (id.value - left.next + 1) (.allocate entity))
        (c, left)).1.get id = .ok ⟨id, entity⟩) ∧
    (¬ (supply.next ≤ id.value ∧ ∀ earlier ∈ used, earlier.value < id.value) → ∀ later,
      (∀ step ∈ later, id ∉ CollectionStep.given step) →
        (CollectionStep.run later (c, left)).1.get id =
          .error (Collection.notFound (α := α) id)) := by
  intro used left
  have hleft : left = used.foldl Supply.reserve supply := SupplyStep.run_eq steps supply
  have hpast : ∀ n, n < left.next ↔ n < supply.next ∨ ∃ earlier ∈ used, n ≤ earlier.value := by
    intro n
    rw [hleft]
    exact SupplyStep.lt_next_foldl_reserve supply
  have hahead : (supply.next ≤ id.value ∧ ∀ earlier ∈ used, earlier.value < id.value) ↔
      left.next ≤ id.value := by
    rw [← not_lt, ← not_lt, hpast, not_or, not_exists]
    simp only [not_and, not_le]
  refine ⟨hleft, fun snapshot db hdb => Database.takenIn_of_load hdb, ?_, ?_, ?_, ?_⟩
  · intro step other hother earlier hearlier
    rw [SupplyStep.eq_next_of_returned hother, hpast]
    exact Or.inr ⟨earlier, hearlier, le_rfl⟩
  · rw [hahead]
    constructor
    · rintro ⟨later, step, hreturned⟩
      rw [SupplyStep.eq_next_of_returned hreturned, SupplyStep.run_eq]
      exact CollectionStep.next_le_foldl_reserve left _
    · intro hle
      refine ⟨List.replicate (id.value - left.next) .fresh, .fresh, ?_⟩
      have hnext := SupplyStep.next_run_replicate_fresh (id.value - left.next) left
      rw [Nat.add_sub_cancel' hle] at hnext
      exact congrArg (fun n => some (Identity.mk n)) hnext
  · rw [hahead]
    exact fun hle entity => CollectionStep.get_run_eq_allocated entity hc hle
  · rw [hahead, not_le]
    exact fun hlt later hgiven => CollectionStep.get_run_eq_notFound later hc hid hlt hgiven

/-- A resource without a record, which uses a type without one. -/
def danglingUse : Snapshot where
  version := Version.current
  createdAt := ""
  checksum := none
  entities := []
  relationships := [("uses_type", .obj [("5", .arr [.obj
    [("$id", .num (.integer 7)), ("attrs", .obj [("via", .str "P")])]])])]

/-- The loaded use of a type gets the seventh type that is made after it as its target. -/
theorem identities_danglingUse :
    (∃ db, Database.load danglingUse Supply.full = (.ok db, ⟨1⟩) ∧
      db.typeDefinitions = Collection.empty ∧ db.usesType.outgoing ⟨5⟩ = [⟨⟨7⟩, ⟨"P"⟩⟩]) ∧
    (CollectionStep.run (List.replicate 7 (.allocate (TypeDefinition.ofName "T")))
      (Collection.empty, ⟨1⟩)).1.get ⟨7⟩ = .ok ⟨⟨7⟩, TypeDefinition.ofName "T"⟩ := by
  refine ⟨⟨_, rfl, rfl, rfl⟩, ?_⟩
  have hrun : SupplyStep.run [.load danglingUse] Supply.full = ⟨1⟩ := rfl
  have hused : SupplyStep.used [.load danglingUse] Supply.full = [] := rfl
  have hahead : Supply.full.next ≤ (⟨7⟩ : Identity).value ∧
      ∀ earlier ∈ SupplyStep.used [.load danglingUse] Supply.full, earlier.value < 7 := by
    rw [hused]
    exact ⟨by decide, fun _ hmem => absurd hmem List.not_mem_nil⟩
  have hid : (⟨7⟩ : Identity) ∉ (Collection.empty : Collection TypeDefinition).ids :=
    List.not_mem_nil
  exact (identities_of_run Supply.full [.load danglingUse]
    (hrun ▸ Collection.holds_empty ⟨1⟩) hid).2.2.2.2.1 hahead (TypeDefinition.ofName "T")

end ResourceCatalog
