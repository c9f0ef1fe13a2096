import Mathlib
import ResourceCatalog.Proofs.Import.Pruning
import ResourceCatalog.Proofs.Import.Typing

/-!
# A new generation of definitions

When a resource is imported again, it stops using its definitions, new ones are made, and its
properties remember the types they had. After that the database is consistent again, and the
definitions that the resource used before can be pruned: they mention and are mentioned by each
other only, and nobody but the resource remembers them.
-/

namespace ResourceCatalog

/-- A resource has been typed anew: its types mention definitions that have been made, and its
properties remember no types but those of the former properties, present and past. -/
def Resource.Renews (old new : Resource) (found : List Identity) : Prop :=
  ∀ p ∈ new.slots, p.type.references ⊆ found ∧
    ∀ type ∈ p.previousTypes, ∃ before ∈ old.slots, type = before.type ∨
      type ∈ before.previousTypes

theorem Resource.Renews.current {old new : Resource} {found : List Identity}
    (h : old.Renews new found) : new.currentReferences ⊆ found := by
  intro id hid
  obtain ⟨p, hp, hid⟩ := mem_currentReferences.1 hid
  exact (h p hp).1 hid

theorem Resource.Renews.previous {old new : Resource} {found : List Identity}
    (h : old.Renews new found) {id : Identity} (hid : id ∈ new.previousReferences) :
    id ∈ old.currentReferences ∨ id ∈ old.previousReferences := by
  obtain ⟨p, hp, type, htype, hid⟩ := mem_previousReferences.1 hid
  obtain ⟨before, hbefore, rfl | hprevious⟩ := (h p hp).2 type htype
  · exact Or.inl (mem_currentReferences.2 ⟨before, hbefore, hid⟩)
  · exact Or.inr (mem_previousReferences.2 ⟨before, hbefore, type, hprevious, hid⟩)

theorem Edges.joins_removeOutgoing {α : Type} [DecidableEq α] {edges : Edges α}
    (h : edges.Coherent) {start a b : Identity} :
    (edges.removeOutgoing start).2.Joins a b ↔ a ≠ start ∧ edges.Joins a b := by
  rw [Edges.Joins, Edges.outgoing_removeOutgoing h.forward]
  split
  · next hsame => simp [hsame]
  · next hne => exact ⟨fun hjoin => ⟨hne, hjoin⟩, fun hjoin => hjoin.2⟩

/-- The database from which a resource has taken back its uses of definitions. -/
def Database.withoutUses (db : Database) (resource : Identity) : Database :=
  { db with usesType := (db.usesType.removeOutgoing resource).2 }

namespace Typing

variable {db : Database} {supply : Supply}

theorem Progress.initial (h : db.Consistent supply) (resource : Identity) :
    Progress (db.withoutUses resource) supply resource
      ⟨db.withoutUses resource, supply, [], [], []⟩ :=
  Progress.of_unseen ⟨db.withoutUses resource, supply, [], [], []⟩ h.typeDefinitions
    (h.usesType.coherent.removeOutgoing resource) rfl resource

section Renewal

variable {r : Record Resource} {state : TypingState} (h : db.Consistent supply)
  (hr : r ∈ db.resources.all) (hp : Progress (db.withoutUses r.id) supply r.id state)

include hp

theorem Progress.ids_subset :
    db.typeDefinitions.ids ⊆ state.database.typeDefinitions.ids := by
  intro id hid
  obtain ⟨d, hd, rfl⟩ := Collection.mem_ids.1 hid
  exact Collection.mem_ids.2 ⟨d, hp.old d hd, rfl⟩

theorem Progress.not_found {id : Identity} (hid : id ∈ db.typeDefinitions.ids) :
    id ∉ state.found := fun hfound => hp.fresh id hfound hid

include h

theorem Progress.joins_iff {user id : Identity} :
    state.database.usesType.Joins user id ↔
      user ≠ r.id ∧ db.usesType.Joins user id ∨ user = r.id ∧ id ∈ state.found := by
  rw [hp.used, Database.withoutUses, Edges.joins_removeOutgoing h.usesType.coherent]

theorem Progress.joins_old_iff {user id : Identity} (hid : id ∈ db.typeDefinitions.ids) :
    state.database.usesType.Joins user id ↔ user ≠ r.id ∧ db.usesType.Joins user id := by
  rw [hp.joins_iff h]
  exact or_iff_left fun hnew => hp.not_found hid hnew.2

theorem Progress.joins_new_iff {user id : Identity} (hid : id ∈ state.found) :
    state.database.usesType.Joins user id ↔ user = r.id := by
  rw [hp.joins_iff h]
  constructor
  · rintro (⟨_, hjoin⟩ | ⟨huser, _⟩)
    · exact absurd hid (hp.not_found (h.usesType.ends _ _ hjoin).2)
    · exact huser
  · exact fun huser => Or.inr ⟨huser, hid⟩

/-- Nobody uses a definition any more that the resource used or did not use before. -/
theorem Progress.not_joins {id : Identity} (hid : id ∈ db.typeDefinitions.ids)
    (hfree : ∀ user, db.usesType.Joins user id → user = r.id) (user : Identity) :
    ¬ state.database.usesType.Joins user id := by
  rw [hp.joins_old_iff h hid]
  exact fun hjoin => hjoin.1 (hfree user hjoin.2)

include hr

theorem Progress.generations {c : Collection Resource} {new : Resource}
    (hall : c.all = db.resources.all.map fun other =>
      if other.id = r.id then ⟨r.id, new⟩ else other)
    (hnew : r.entity.Renews new state.found) :
    Generations c.all state.database.typeDefinitions.all state.database.usesType := by
  have hcases : ∀ other ∈ c.all, other.id = r.id ∧ other.entity = new ∨
      other.id ≠ r.id ∧ other ∈ db.resources.all := by
    intro other hother
    rw [hall, List.mem_map] at hother
    obtain ⟨before, hbefore, rfl⟩ := hother
    split
    · exact Or.inl ⟨rfl, rfl⟩
    · next hne => exact Or.inr ⟨hne, hbefore⟩
  have hfree : ∀ other ∈ db.resources.all, ∀ id ∈ other.entity.previousReferences,
      id ∈ db.typeDefinitions.ids ∧ ∀ user, ¬ state.database.usesType.Joins user id := by
    intro other hother id hid
    obtain ⟨hpresent, hunused⟩ := h.generations.previous other hother id hid
    exact ⟨hpresent, hp.not_joins h hpresent fun user hjoin => absurd hjoin (hunused user)⟩
  constructor
  case current =>
    intro other hother id hid
    rcases hcases other hother with ⟨hsame, hentity⟩ | ⟨hne, hold⟩
    · rw [hp.joins_new_iff h (hnew.current (hentity ▸ hid))]
      exact hsame
    · rw [hp.joins_iff h]
      exact Or.inl ⟨hne, h.generations.current other hold id hid⟩
  case previous =>
    intro other hother id hid
    rcases hcases other hother with ⟨_, hentity⟩ | ⟨_, hold⟩
    · rcases hnew.previous (hentity ▸ hid) with hid | hid
      · have hjoin := h.generations.current r hr id hid
        have hpresent := (h.usesType.ends _ _ hjoin).2
        exact ⟨hp.ids_subset hpresent, hp.not_joins h hpresent fun user huser =>
          h.generations.oneUser user r.id id huser hjoin⟩
      · exact ⟨hp.ids_subset (hfree r hr id hid).1, (hfree r hr id hid).2⟩
    · exact ⟨hp.ids_subset (hfree other hold id hid).1, (hfree other hold id hid).2⟩
  case together =>
    intro d hd id hid
    rcases hp.stored d hd with hold | ⟨hfound, hmentions⟩
    · obtain ⟨hpresent, hjoins⟩ := h.generations.together d hold id hid
      refine ⟨hp.ids_subset hpresent, fun user => ?_⟩
      rw [hp.joins_old_iff h (Collection.mem_ids.2 ⟨d, hold, rfl⟩), hp.joins_old_iff h hpresent,
        hjoins]
    · refine ⟨hp.present (hmentions hid), fun user => ?_⟩
      rw [hp.joins_new_iff h hfound, hp.joins_new_iff h (hmentions hid)]
  case oneUser =>
    intro a b id ha hb
    rcases (hp.joins_iff h).1 ha with ⟨_, ha⟩ | ⟨rfl, hfound⟩
    · have hpresent := (h.usesType.ends _ _ ha).2
      exact h.generations.oneUser a b id ha ((hp.joins_old_iff h hpresent).1 hb).2
    · exact ((hp.joins_new_iff h hfound).1 hb).symm

/-- Typing a resource anew keeps a database consistent. -/
theorem Progress.consistent {c : Collection Resource} {new : Resource} (hc : c.Coherent)
    (hall : c.all = db.resources.all.map fun other =>
      if other.id = r.id then ⟨r.id, new⟩ else other)
    (hname : new.typeName = r.entity.typeName) (hnew : r.entity.Renews new state.found)
    (harranged : new.Arranged) :
    ({ db with
      resources := c
      typeDefinitions := state.database.typeDefinitions
      usesType := state.database.usesType } : Database).Consistent state.supply := by
  have hids : c.ids = db.resources.ids := Collection.ids_replaced hall
  have hnames : (c.all.map fun other => other.entity.typeName) =
      db.resources.all.map fun other => other.entity.typeName := by
    refine Collection.map_replaced hall fun other hother hsame => ?_
    rw [Collection.eq_of_id_eq h.resources.coherent.distinct hother hr hsame]
    exact hname
  exact {
    services := h.services.later hp.later
    resources := by
      refine ⟨⟨hc, ?_⟩, ?_⟩
      · rw [hids]
        exact (h.resources.toHolds.later hp.later).taken
      · rw [hnames]
        exact h.resources.unique
    typeDefinitions := hp.definitions
    regions := h.regions.later hp.later
    hasResource := h.hasResource.mono (List.Subset.refl _) (hids ▸ List.Subset.refl _)
    usesType := by
      refine ⟨hp.uses, fun user id hjoin => ?_⟩
      rw [hids]
      rcases (hp.joins_iff h).1 hjoin with ⟨_, hjoin⟩ | ⟨rfl, hfound⟩
      · exact ⟨(h.usesType.ends _ _ hjoin).1, hp.ids_subset (h.usesType.ends _ _ hjoin).2⟩
      · exact ⟨Collection.mem_ids.2 ⟨r, hr, rfl⟩, hp.present hfound⟩
    regionHasResource := h.regionHasResource.mono (List.Subset.refl _) (hids ▸ List.Subset.refl _)
    generations := hp.generations h hr hall hnew
    arranged := by
      constructor
      · intro other hother
        change other ∈ c.all at hother
        rw [hall, List.mem_map] at hother
        obtain ⟨before, hbefore, rfl⟩ := hother
        split
        · exact harranged
        · exact h.arranged.resources before hbefore
      · intro d hd
        exact (hp.arranged d hd).elim (h.arranged.definitions d) id }

omit hr in
/-- The definitions that the resource used before can be pruned. -/
theorem Progress.prunable {c : Collection Resource} {new : Resource}
    (hall : c.all = db.resources.all.map fun other =>
      if other.id = r.id then ⟨r.id, new⟩ else other) :
    ({ db with
      resources := c
      typeDefinitions := state.database.typeDefinitions
      usesType := state.database.usesType } : Database).Prunable r.id
        ((db.usesType.removeOutgoing r.id).1.map Edge.id) := by
  have hcandidate : ∀ id, id ∈ (db.usesType.removeOutgoing r.id).1.map Edge.id ↔
      db.usesType.Joins r.id id := fun id => List.mem_map
  constructor
  case present =>
    intro id hid
    exact hp.ids_subset (h.usesType.ends _ _ ((hcandidate id).1 hid)).2
  case unused =>
    intro id hid user
    have hjoin := (hcandidate id).1 hid
    exact hp.not_joins h (h.usesType.ends _ _ hjoin).2 (fun user huser =>
      h.generations.oneUser user r.id id huser hjoin) user
  case enclosed =>
    intro d hd id hid hcand
    have hjoin := (hcandidate id).1 hcand
    rcases hp.stored d hd with hold | ⟨_, hmentions⟩
    · exact (hcandidate _).2 (((h.generations.together d hold id hid).2 r.id).2 hjoin)
    · exact absurd (hmentions hid) (hp.not_found (h.usesType.ends _ _ hjoin).2)
  case forgotten =>
    intro other hother hne id hid hcand
    change other ∈ c.all at hother
    rw [hall, List.mem_map] at hother
    obtain ⟨before, hbefore, rfl⟩ := hother
    split at hid
    · next hsame => exact hne (if_pos hsame ▸ rfl)
    · exact (h.generations.previous before hbefore id hid).2 r.id ((hcandidate id).1 hcand)

end Renewal

end Typing

end ResourceCatalog
