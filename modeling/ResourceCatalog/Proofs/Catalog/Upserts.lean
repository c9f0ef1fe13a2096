import Mathlib
import ResourceCatalog.Proofs.Catalog.Consistency
import ResourceCatalog.Proofs.Computation

/-!
# Finding or making entities

Services, resources and regions are looked up by their name before one is made, so names stay
unique. Neither this nor a new link between entities that are there touches what is said of type
definitions, and none of it fails in a consistent database.
-/

namespace ResourceCatalog

variable {α : Type} [Entity α]

theorem Collection.Registers.later {c : Collection α} {name : α → String} {supply more : Supply}
    (h : c.Registers name supply) (hmore : supply.next ≤ more.next) : c.Registers name more :=
  ⟨h.toHolds.later hmore, h.unique⟩

theorem Collection.Registers.append {c : Collection α} {name : α → String} {supply : Supply}
    (h : c.Registers name supply) {entity : α}
    (hnew : ∀ r ∈ c.all, name r.entity ≠ name entity) :
    (c.append ⟨⟨supply.next⟩, entity⟩).Registers name ⟨supply.next + 1⟩ where
  toHolds := h.toHolds.append h.next_not_mem (Nat.le_succ _) (Nat.lt_succ_self _)
  unique := by
    rw [all_append, List.map_append, List.nodup_append]
    refine ⟨h.unique, List.nodup_singleton _, fun a ha b hb hab => ?_⟩
    obtain ⟨r, hr, rfl⟩ := List.mem_map.1 ha
    exact hnew r hr (hab.trans (List.mem_singleton.1 hb))

namespace Database

/-- The entity of a name is found where there is one. -/
theorem findOrMake_of_mem {c : Collection α} {supply : Supply} {key : α → String}
    (h : c.Registers key supply) {index : String}
    (hindex : (Entity.indexes (α := α)).find? (fun d => d.name == index) = some ⟨index, key⟩)
    {entity : α} {r : Record α} (hr : r ∈ c.all) (hkey : key r.entity = key entity) :
    findOrMake c supply index (key entity) entity = .ok (r.id, c, supply) := by
  have hunique : ∀ other ∈ c.all, key other.entity = key r.entity → other = r :=
    fun other hother hsame => List.inj_on_of_nodup_map h.unique hother hr hsame
  rw [findOrMake, ← hkey, Collection.findOnly_eq_some h.coherent hindex hr hunique]
  rfl

/-- The entity of a name is found, or it is made and is the last one. -/
theorem findOrMake_ok {c : Collection α} {supply : Supply} {key : α → String}
    (h : c.Registers key supply) (index : String)
    (hindex : (Entity.indexes (α := α)).find? (fun d => d.name == index) = some ⟨index, key⟩)
    (entity : α) :
    ∃ r c' supply', findOrMake c supply index (key entity) entity = .ok (r.id, c', supply') ∧
      c'.Registers key supply' ∧ supply.next ≤ supply'.next ∧ r ∈ c'.all ∧
      key r.entity = key entity ∧ (c'.all = c.all ∨ c'.all = c.all ++ [⟨r.id, entity⟩]) := by
  by_cases hfound : ∃ r ∈ c.all, key r.entity = key entity
  · obtain ⟨r, hr, hkey⟩ := hfound
    exact ⟨r, c, supply, findOrMake_of_mem h hindex hr hkey, h, le_rfl, hr, hkey, Or.inl rfl⟩
  · rw [not_exists] at hfound
    have hnew : ∀ r ∈ c.all, key r.entity ≠ key entity := fun r hr hkey => hfound r ⟨hr, hkey⟩
    refine ⟨⟨⟨supply.next⟩, entity⟩, c.append ⟨⟨supply.next⟩, entity⟩, ⟨supply.next + 1⟩, ?_,
      h.append hnew, Nat.le_succ _, ?_, rfl, Or.inr (Collection.all_append _ _)⟩
    · rw [findOrMake, Collection.findOnly_eq_none h.coherent hindex hnew]
      rfl
    · rw [Collection.all_append]
      exact List.mem_append_right _ List.mem_cons_self

end Database

section Extended

omit [Entity α]

variable {c c' : Collection α} {new : Record α} (h : c'.all = c.all ∨ c'.all = c.all ++ [new])

include h

theorem Collection.subset_of_all : c.all ⊆ c'.all := by
  rcases h with h | h
  · exact h ▸ List.Subset.refl _
  · exact h ▸ List.subset_append_left _ _

theorem Collection.ids_subset_of_all : c.ids ⊆ c'.ids :=
  List.map_subset _ (Collection.subset_of_all h)

/-- A record under an identity from before was there before. -/
theorem Collection.mem_of_mem_ids (hdistinct : c'.ids.Nodup) {r : Record α} (hr : r ∈ c'.all)
    (hid : r.id ∈ c.ids) : r ∈ c.all := by
  obtain ⟨before, hbefore, hsame⟩ := Collection.mem_ids.1 hid
  exact Collection.eq_of_id_eq hdistinct (Collection.subset_of_all h hbefore) hr hsame ▸ hbefore

end Extended

theorem Edges.Links.mono {β : Type} {edges : Edges β} {starts targets starts' targets' :
    List Identity} (h : edges.Links starts targets) (hstarts : starts ⊆ starts')
    (htargets : targets ⊆ targets') : edges.Links starts' targets' :=
  ⟨h.coherent, fun start target hjoin =>
    ⟨hstarts (h.ends start target hjoin).1, htargets (h.ends start target hjoin).2⟩⟩

theorem Edges.joins_add {β : Type} [DecidableEq β] {edges : Edges β} (h : edges.Coherent)
    {start target : Identity} {attributes : β} {a b : Identity} :
    (edges.add start target attributes).Joins a b ↔
      edges.Joins a b ∨ a = start ∧ b = target := by
  simp only [Edges.Joins, Edges.mem_outgoing_add h.forward]
  constructor
  · rintro ⟨edge, hedge | ⟨rfl, rfl⟩, rfl⟩
    · exact Or.inl ⟨edge, hedge, rfl⟩
    · exact Or.inr ⟨rfl, rfl⟩
  · rintro (⟨edge, hedge, rfl⟩ | ⟨rfl, rfl⟩)
    · exact ⟨edge, Or.inl hedge, rfl⟩
    · exact ⟨_, Or.inr ⟨rfl, rfl⟩, rfl⟩

theorem Edges.Links.add {β : Type} [DecidableEq β] {edges : Edges β}
    {starts targets : List Identity} (h : edges.Links starts targets) {start target : Identity}
    (hstart : start ∈ starts) (htarget : target ∈ targets) (attributes : β) :
    (edges.add start target attributes).Links starts targets := by
  refine ⟨h.coherent.add _ _ _, fun a b hjoin => ?_⟩
  rcases (Edges.joins_add h.coherent).1 hjoin with hjoin | ⟨rfl, rfl⟩
  · exact h.ends a b hjoin
  · exact ⟨hstart, htarget⟩

namespace Database.Consistent

variable {db : Database} {supply : Supply}

/-- A resource that mentions nothing yet joins the others. -/
theorem upsertResource_ok (h : db.Consistent supply) (typeName : String) :
    ∃ r resources supply', db.upsertResource supply typeName =
        .ok (r.id, { db with resources }, supply') ∧
      ({ db with resources } : Database).Consistent supply' ∧ r ∈ resources.all ∧
      r.entity.typeName = typeName ∧ (resources.all = db.resources.all ∨
        resources.all = db.resources.all ++ [⟨r.id, Resource.ofTypeName typeName⟩]) := by
  obtain ⟨made, resources, supply', hok, hregisters, hlater, hmade, hname, hall⟩ :=
    findOrMake_ok h.resources "type_name" rfl (Resource.ofTypeName typeName)
  have hsub := Collection.ids_subset_of_all hall
  have hold : ∀ r ∈ resources.all, r ∈ db.resources.all ∨
      r.entity.currentReferences = [] ∧ r.entity.previousReferences = [] := by
    intro r hr
    rcases hall with hall | hall
    · exact Or.inl (hall ▸ hr)
    · rw [hall, List.mem_append, List.mem_singleton] at hr
      refine hr.imp_right fun hnew => ?_
      rw [hnew]
      exact ⟨rfl, rfl⟩
  refine ⟨made, resources, supply', ?_, ?_, hmade, hname, hall⟩
  · have hfound : findOrMake db.resources supply "type_name" typeName
        (Resource.ofTypeName typeName) = .ok (made.id, resources, supply') := hok
    rw [Database.upsertResource, hfound]
    rfl
  · exact {
      services := h.services.later hlater
      resources := hregisters
      typeDefinitions := h.typeDefinitions.later hlater
      regions := h.regions.later hlater
      hasResource := h.hasResource.mono (List.Subset.refl _) hsub
      usesType := h.usesType.mono hsub (List.Subset.refl _)
      regionHasResource := h.regionHasResource.mono (List.Subset.refl _) hsub
      generations :=
        { current := by
            intro r hr target htarget
            rcases hold r hr with hr | ⟨hnone, _⟩
            · exact h.generations.current r hr target htarget
            · rw [hnone] at htarget
              exact absurd htarget List.not_mem_nil
          previous := by
            intro r hr target htarget
            rcases hold r hr with hr | ⟨_, hnone⟩
            · exact h.generations.previous r hr target htarget
            · rw [hnone] at htarget
              exact absurd htarget List.not_mem_nil
          together := h.generations.together
          oneUser := h.generations.oneUser }
      arranged := by
        refine ⟨fun r hr => ?_, h.arranged.definitions⟩
        rcases hall with hall | hall
        · exact h.arranged.resources r (hall ▸ hr)
        · change r ∈ resources.all at hr
          rw [hall, List.mem_append, List.mem_singleton] at hr
          rcases hr with hr | rfl
          · exact h.arranged.resources r hr
          · exact ⟨List.Pairwise.nil, List.Pairwise.nil⟩ }

/-- A resource that is there is found. -/
theorem upsertResource_of_mem (h : db.Consistent supply) {r : Record Resource}
    (hr : r ∈ db.resources.all) :
    db.upsertResource supply r.entity.typeName = .ok (r.id, db, supply) := by
  have hfound : findOrMake db.resources supply "type_name" r.entity.typeName
      (Resource.ofTypeName r.entity.typeName) = .ok (r.id, db.resources, supply) := by
    have hname : r.entity.typeName = (Resource.ofTypeName r.entity.typeName).typeName := rfl
    exact findOrMake_of_mem h.resources rfl hr hname
  rw [Database.upsertResource, hfound]
  rfl

theorem upsertService_of_mem (h : db.Consistent supply) {s : Record Service}
    (hs : s ∈ db.services.all) {service : Service} (hname : s.entity.name = service.name) :
    db.upsertService supply service = .ok (s.id, db, supply) := by
  rw [Database.upsertService, findOrMake_of_mem h.services rfl hs hname]
  rfl

theorem upsertService_ok (h : db.Consistent supply) (service : Service) :
    ∃ s services supply', db.upsertService supply service =
        .ok (s.id, { db with services }, supply') ∧
      ({ db with services } : Database).Consistent supply' ∧ s ∈ services.all ∧
      s.entity.name = service.name ∧ (services.all = db.services.all ∨
        services.all = db.services.all ++ [⟨s.id, service⟩]) := by
  obtain ⟨made, services, supply', hok, hregisters, hlater, hmade, hname, hall⟩ :=
    findOrMake_ok h.services "name" rfl service
  refine ⟨made, services, supply', by rw [Database.upsertService, hok]; rfl, ?_, hmade, hname,
    hall⟩
  exact { h with
    services := hregisters
    resources := h.resources.later hlater
    typeDefinitions := h.typeDefinitions.later hlater
    regions := h.regions.later hlater
    hasResource := h.hasResource.mono (Collection.ids_subset_of_all hall) (List.Subset.refl _) }

theorem upsertRegion_ok (h : db.Consistent supply) (name : String) :
    ∃ id regions supply', db.upsertRegion supply name = .ok (id, { db with regions }, supply') ∧
      ({ db with regions } : Database).Consistent supply' ∧ id ∈ regions.ids := by
  obtain ⟨made, regions, supply', hok, hregisters, hlater, hmade, _, hall⟩ :=
    findOrMake_ok h.regions "name" rfl (⟨name⟩ : Region)
  refine ⟨made.id, regions, supply', by rw [Database.upsertRegion, hok]; rfl, ?_,
    Collection.mem_ids.2 ⟨made, hmade, rfl⟩⟩
  exact { h with
    services := h.services.later hlater
    resources := h.resources.later hlater
    typeDefinitions := h.typeDefinitions.later hlater
    regions := hregisters
    regionHasResource :=
      h.regionHasResource.mono (Collection.ids_subset_of_all hall) (List.Subset.refl _) }

end Database.Consistent

end ResourceCatalog
