import Mathlib
import ResourceCatalog.Import.Pruning
import ResourceCatalog.Proofs.Graph.Collection
import ResourceCatalog.Proofs.Graph.Edges
import ResourceCatalog.Proofs.Keyed

/-!
# Consistent databases

What is promised of a database speaks of identities: whatever mentions one finds an entity under it,
names are unique, and the definitions that a resource reaches are used by it and by no other. The
promise alone is not kept by an import, which takes the definitions of the last import away from a
resource and keeps those that only the history of its properties mentions. `Database.Consistent` is
what is kept. Definitions come in generations, one for each import of a resource: those that mention
each other have the same user, the types of today mention used definitions and the types of former
days unused ones. So a generation goes or stays as a whole, apart from its own history.
-/

namespace ResourceCatalog

/-! ### Mentions -/

/-- The properties and attributes of a resource. -/
def Resource.slots (r : Resource) : List Property :=
  Keyed.values r.properties ++ Keyed.values r.attributes

/-- The definitions that the types of a resource mention. -/
def Resource.currentReferences (r : Resource) : List Identity :=
  r.slots.flatMap fun p => p.type.references

/-- The definitions that the former types of a resource mention. -/
def Resource.previousReferences (r : Resource) : List Identity :=
  r.slots.flatMap fun p => p.previousTypes.flatMap PropertyType.references

theorem Resource.mem_currentReferences {r : Resource} {id : Identity} :
    id ∈ r.currentReferences ↔ ∃ p ∈ r.slots, id ∈ p.type.references := List.mem_flatMap

theorem Resource.mem_previousReferences {r : Resource} {id : Identity} :
    id ∈ r.previousReferences ↔
      ∃ p ∈ r.slots, ∃ type ∈ p.previousTypes, id ∈ type.references := by
  simp only [previousReferences, List.mem_flatMap]

theorem Resource.mem_references_slots {r : Resource} {id : Identity} :
    id ∈ PropertyMap.references r.properties ++ PropertyMap.references r.attributes ↔
      id ∈ r.currentReferences ∨ id ∈ r.previousReferences := by
  have hslots : PropertyMap.references r.properties ++ PropertyMap.references r.attributes =
      r.slots.flatMap Property.references := List.flatMap_append.symm
  rw [hslots, List.mem_flatMap, mem_currentReferences, mem_previousReferences]
  simp only [Property.references, List.mem_append, List.mem_flatMap, and_or_left, exists_or]

/-- There is an edge between two entities. -/
def Edges.Joins {α : Type} (edges : Edges α) (start target : Identity) : Prop :=
  ∃ edge ∈ edges.outgoing start, edge.id = target

/-! ### What is promised -/

/-- Both ends of every edge are found, as seen from either end. -/
def Edges.EndIn {α β γ : Type} (edges : Edges α) (starts : Collection β)
    (targets : Collection γ) : Prop :=
  (∀ entry ∈ edges.forward, starts.contains entry.1 = true ∧
    ∀ edge ∈ entry.2, targets.contains edge.id = true) ∧
  ∀ entry ∈ edges.backward, targets.contains entry.1 = true ∧
    ∀ edge ∈ entry.2, starts.contains edge.id = true

instance Edges.instDecidableEndIn {α β γ : Type} (edges : Edges α) (starts : Collection β)
    (targets : Collection γ) : Decidable (edges.EndIn starts targets) :=
  inferInstanceAs (Decidable (_ ∧ _))

namespace Database

/-- Every identity that the database mentions is found in its collection. -/
structure Resolves (db : Database) : Prop where
  hasResource : db.hasResource.EndIn db.services db.resources
  usesType : db.usesType.EndIn db.resources db.typeDefinitions
  regionHasResource : db.regionHasResource.EndIn db.regions db.resources
  resources : ∀ r ∈ db.resources.all, ∀ id ∈ PropertyMap.references r.entity.properties ++
    PropertyMap.references r.entity.attributes, db.typeDefinitions.contains id = true
  definitions : ∀ d ∈ db.typeDefinitions.all, ∀ id ∈ PropertyMap.references d.entity.properties,
    db.typeDefinitions.contains id = true

instance instDecidableResolves (db : Database) : Decidable db.Resolves :=
  decidable_of_iff (db.hasResource.EndIn db.services db.resources ∧
    db.usesType.EndIn db.resources db.typeDefinitions ∧
    db.regionHasResource.EndIn db.regions db.resources ∧
    (∀ r ∈ db.resources.all, ∀ id ∈ PropertyMap.references r.entity.properties ++
      PropertyMap.references r.entity.attributes, db.typeDefinitions.contains id = true) ∧
    ∀ d ∈ db.typeDefinitions.all, ∀ id ∈ PropertyMap.references d.entity.properties,
      db.typeDefinitions.contains id = true)
    ⟨fun ⟨h, h', h'', hr, hd⟩ => ⟨h, h', h'', hr, hd⟩,
      fun ⟨h, h', h'', hr, hd⟩ => ⟨h, h', h'', hr, hd⟩⟩

/-- No two resources, services or regions have the same name. -/
structure UniqueNames (db : Database) : Prop where
  resources : (db.resources.all.map fun r => r.entity.typeName).Nodup
  services : (db.services.all.map fun r => r.entity.name).Nodup
  regions : (db.regions.all.map fun r => r.entity.name).Nodup

/-- A definition that the types of a resource reach, by way of other definitions. -/
inductive Reaches (db : Database) (resource : Resource) : Identity → Prop
  | direct {id : Identity} (h : id ∈ resource.currentReferences) : Reaches db resource id
  | through {d : Record TypeDefinition} {id : Identity} (hd : d ∈ db.typeDefinitions.all)
    (hreach : Reaches db resource d.id)
    (h : id ∈ PropertyMap.references d.entity.properties) : Reaches db resource id

/-- The definitions that a resource reaches are its own. -/
structure OwnsReached (db : Database) : Prop where
  oneUser : ∀ a b definition, db.usesType.Joins a definition → db.usesType.Joins b definition →
    a = b
  reached : ∀ r ∈ db.resources.all, ∀ definition, db.Reaches r.entity definition →
    db.usesType.Joins r.id definition

end Database

/-! ### What is kept -/

/-- Besides, the names of its entities are unique. -/
structure Collection.Registers {α : Type} [Entity α] (c : Collection α) (name : α → String)
    (supply : Supply) : Prop extends c.Holds supply where
  unique : (c.all.map fun r => name r.entity).Nodup

/-- Coherent edges from some entities to some others. -/
structure Edges.Links {α : Type} (edges : Edges α) (starts targets : List Identity) : Prop where
  coherent : edges.Coherent
  ends : ∀ start target, edges.Joins start target → start ∈ starts ∧ target ∈ targets

/-- Each import of a resource has definitions of its own, and those of the last one are used. -/
structure Generations (resources : List (Record Resource))
    (definitions : List (Record TypeDefinition)) (uses : Edges Use) : Prop where
  current : ∀ r ∈ resources, ∀ id ∈ r.entity.currentReferences, uses.Joins r.id id
  previous : ∀ r ∈ resources, ∀ id ∈ r.entity.previousReferences,
    id ∈ definitions.map Record.id ∧ ∀ user, ¬ uses.Joins user id
  together : ∀ d ∈ definitions, ∀ id ∈ PropertyMap.references d.entity.properties,
    id ∈ definitions.map Record.id ∧ ∀ user, uses.Joins user d.id ↔ uses.Joins user id
  oneUser : ∀ a b id, uses.Joins a id → uses.Joins b id → a = b

/-- The properties are in the order of their names, and so are the attributes. Each name is there
once. -/
def Resource.Arranged (r : Resource) : Prop :=
  Keyed.Ascending r.properties ∧ Keyed.Ascending r.attributes

/-- All resources and definitions have their properties in that order. -/
structure Arranged (resources : List (Record Resource))
    (definitions : List (Record TypeDefinition)) : Prop where
  resources : ∀ r ∈ resources, r.entity.Arranged
  definitions : ∀ d ∈ definitions, Keyed.Ascending d.entity.properties

/-- What every step of a build keeps. -/
structure Database.Consistent (db : Database) (supply : Supply) : Prop where
  services : db.services.Registers Service.name supply
  resources : db.resources.Registers Resource.typeName supply
  typeDefinitions : db.typeDefinitions.Holds supply
  regions : db.regions.Registers Region.name supply
  hasResource : db.hasResource.Links db.services.ids db.resources.ids
  usesType : db.usesType.Links db.resources.ids db.typeDefinitions.ids
  regionHasResource : db.regionHasResource.Links db.regions.ids db.resources.ids
  generations : Generations db.resources.all db.typeDefinitions.all db.usesType
  arranged : Arranged db.resources.all db.typeDefinitions.all

theorem Edges.Coherent.mem_backward {α : Type} {edges : Edges α} (h : edges.Coherent)
    {entry : Identity × List (Edge α)} (hentry : entry ∈ edges.backward) {edge : Edge α}
    (hedge : edge ∈ entry.2) : edges.Joins edge.id entry.1 := by
  have hincoming : edge ∈ edges.incoming entry.1 := by
    rw [Edges.incoming, h.backward.get_eq_of_mem hentry]
    exact hedge
  exact ⟨⟨entry.1, edge.attributes⟩, (h.mirror edge.id entry.1 edge.attributes).1 hincoming, rfl⟩

theorem Edges.Coherent.mem_forward {α : Type} {edges : Edges α} (h : edges.Coherent)
    {entry : Identity × List (Edge α)} (hentry : entry ∈ edges.forward) {edge : Edge α}
    (hedge : edge ∈ entry.2) : edges.Joins entry.1 edge.id := by
  refine ⟨edge, ?_, rfl⟩
  rw [Edges.outgoing, h.forward.get_eq_of_mem hentry]
  exact hedge

theorem Edges.Links.endIn {α β γ : Type} {edges : Edges α} {starts : Collection β}
    {targets : Collection γ} (h : edges.Links starts.ids targets.ids) :
    edges.EndIn starts targets := by
  simp only [Edges.EndIn, Collection.contains_iff]
  constructor
  · intro entry hentry
    obtain ⟨edge, hedge⟩ := List.exists_mem_of_ne_nil _ (h.coherent.forward.nonempty entry hentry)
    exact ⟨(h.ends _ _ (h.coherent.mem_forward hentry hedge)).1, fun edge hedge =>
      (h.ends _ _ (h.coherent.mem_forward hentry hedge)).2⟩
  · intro entry hentry
    obtain ⟨edge, hedge⟩ := List.exists_mem_of_ne_nil _ (h.coherent.backward.nonempty entry hentry)
    exact ⟨(h.ends _ _ (h.coherent.mem_backward hentry hedge)).2, fun edge hedge =>
      (h.ends _ _ (h.coherent.mem_backward hentry hedge)).1⟩

theorem Edges.not_joins_empty {α : Type} (start target : Identity) :
    ¬ (Edges.empty : Edges α).Joins start target := fun ⟨_, hedge, _⟩ => List.not_mem_nil hedge

theorem Edges.links_empty {α : Type} (starts targets : List Identity) :
    (Edges.empty : Edges α).Links starts targets :=
  ⟨Edges.coherent_empty, fun start target h => absurd h (Edges.not_joins_empty start target)⟩

theorem Collection.registers_empty {α : Type} [Entity α] (name : α → String) (supply : Supply) :
    (Collection.empty : Collection α).Registers name supply where
  coherent := Collection.coherent_empty
  taken := fun _ h => absurd h List.not_mem_nil
  unique := List.nodup_nil

namespace Database

theorem consistent_empty (supply : Supply) : empty.Consistent supply where
  services := Collection.registers_empty _ _
  resources := Collection.registers_empty _ _
  typeDefinitions := ⟨Collection.coherent_empty, fun _ h => absurd h List.not_mem_nil⟩
  regions := Collection.registers_empty _ _
  hasResource := Edges.links_empty _ _
  usesType := Edges.links_empty _ _
  regionHasResource := Edges.links_empty _ _
  generations :=
    { current := fun _ h => absurd h List.not_mem_nil
      previous := fun _ h => absurd h List.not_mem_nil
      together := fun _ h => absurd h List.not_mem_nil
      oneUser := fun a _ id h => absurd h (Edges.not_joins_empty a id) }
  arranged :=
    { resources := fun _ h => absurd h List.not_mem_nil
      definitions := fun _ h => absurd h List.not_mem_nil }

namespace Consistent

variable {db : Database} {supply : Supply}

theorem mem_ids_of_mentioned (h : db.Consistent supply) {r : Record Resource}
    (hr : r ∈ db.resources.all) {id : Identity}
    (hid : id ∈ r.entity.currentReferences ∨ id ∈ r.entity.previousReferences) :
    id ∈ db.typeDefinitions.ids := by
  rcases hid with hid | hid
  · exact (h.usesType.ends _ _ (h.generations.current r hr id hid)).2
  · exact (h.generations.previous r hr id hid).1

theorem references_subset (h : db.Consistent supply) {r : Record Resource}
    (hr : r ∈ db.resources.all) : PropertyMap.references r.entity.properties ++
      PropertyMap.references r.entity.attributes ⊆ db.typeDefinitions.ids :=
  fun _ hid => h.mem_ids_of_mentioned hr (Resource.mem_references_slots.1 hid)

theorem resolves (h : db.Consistent supply) : db.Resolves where
  hasResource := h.hasResource.endIn
  usesType := h.usesType.endIn
  regionHasResource := h.regionHasResource.endIn
  resources := fun _ hr _ hid => Collection.contains_iff.2 (h.references_subset hr hid)
  definitions := fun d hd id hid => Collection.contains_iff.2
    (h.generations.together d hd id hid).1

theorem uniqueNames (h : db.Consistent supply) : db.UniqueNames :=
  ⟨h.resources.unique, h.services.unique, h.regions.unique⟩

theorem ownsReached (h : db.Consistent supply) : db.OwnsReached where
  oneUser := h.generations.oneUser
  reached := by
    intro r hr definition hreach
    induction hreach with
    | direct hid => exact h.generations.current r hr _ hid
    | through hd _ hid ih => exact ((h.generations.together _ hd _ hid).2 r.id).1 ih

end Consistent

end Database

/-! ### Texts of types -/

mutual

theorem PropertyType.render_ok {nameOf : Identity → Except GraphError String}
    (type : PropertyType) (h : ∀ id ∈ type.references, ∃ name, nameOf id = .ok name) :
    ∃ text, type.render nameOf = .ok text := by
  cases type with
  | ref definition => exact h definition List.mem_cons_self
  | array element =>
    obtain ⟨text, htext⟩ := PropertyType.render_ok element h
    exact ⟨_, by rw [PropertyType.render, htext]; rfl⟩
  | map element =>
    obtain ⟨text, htext⟩ := PropertyType.render_ok element h
    exact ⟨_, by rw [PropertyType.render, htext]; rfl⟩
  | union types =>
    obtain ⟨texts, htexts⟩ := PropertyType.renderAll_ok types h
    exact ⟨_, by rw [PropertyType.render, htexts]; rfl⟩
  | _ => exact ⟨_, rfl⟩

theorem PropertyType.renderAll_ok {nameOf : Identity → Except GraphError String}
    (types : List PropertyType)
    (h : ∀ id ∈ PropertyType.referencesOfAll types, ∃ name, nameOf id = .ok name) :
    ∃ texts, PropertyType.renderAll nameOf types = .ok texts := by
  cases types with
  | nil => exact ⟨[], rfl⟩
  | cons type rest =>
    rw [PropertyType.referencesOfAll] at h
    obtain ⟨text, htext⟩ := PropertyType.render_ok type fun id hid =>
      h id (List.mem_append_left _ hid)
    obtain ⟨texts, htexts⟩ := PropertyType.renderAll_ok rest fun id hid =>
      h id (List.mem_append_right _ hid)
    exact ⟨text :: texts, by rw [PropertyType.renderAll, htext, htexts]; rfl⟩

end

/-- A type has a text when the definitions it mentions are there. -/
theorem Database.render_ok {db : Database} (h : db.typeDefinitions.Coherent)
    {type : PropertyType} (htype : type.references ⊆ db.typeDefinitions.ids) :
    ∃ text, db.render type = .ok text := by
  refine PropertyType.render_ok type fun id hid => ?_
  obtain ⟨r, hr, rfl⟩ := Collection.mem_ids.1 (htype hid)
  exact ⟨r.entity.name, by rw [Database.typeName, Collection.get_of_mem h.distinct hr]; rfl⟩

end ResourceCatalog
