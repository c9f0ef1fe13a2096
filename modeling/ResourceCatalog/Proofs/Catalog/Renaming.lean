import Mathlib
import ResourceCatalog.Proofs.Catalog.Consistency

/-!
# Definitions under other identities

Identities tell definitions apart and say nothing else, so a database in which definitions have
other identities is the same catalog. `rename` gives the mentioned definitions of a type, a property
or an entity other identities, and `Database.Renamed` says that two databases differ in this only.
Then a type has the same text in both, a resource uses the same definitions by way of the same
paths, and there is as much of everything.
-/

namespace ResourceCatalog

variable {f g : Identity → Identity}

/-! ### Renaming what is mentioned -/

namespace PropertyType

mutual

/-- The type with other identities for the definitions it mentions. -/
def rename (f : Identity → Identity) : PropertyType → PropertyType
  | .string => .string
  | .number => .number
  | .boolean => .boolean
  | .dateTime => .dateTime
  | .json => .json
  | .null => .null
  | .ref definition => .ref (f definition)
  | .array element => .array (rename f element)
  | .map element => .map (rename f element)
  | .union types => .union (renameAll f types)

def renameAll (f : Identity → Identity) : List PropertyType → List PropertyType
  | [] => []
  | type :: rest => rename f type :: renameAll f rest

end

mutual

theorem rename_rename (type : PropertyType) : (type.rename f).rename g = type.rename (g ∘ f) := by
  cases type with
  | array element => exact congrArg array (rename_rename element)
  | map element => exact congrArg map (rename_rename element)
  | union types => exact congrArg union (renameAll_renameAll types)
  | _ => rfl

theorem renameAll_renameAll (types : List PropertyType) :
    renameAll g (renameAll f types) = renameAll (g ∘ f) types := by
  cases types with
  | nil => rfl
  | cons type rest => exact congrArg₂ List.cons (rename_rename type) (renameAll_renameAll rest)

end

mutual

theorem rename_eq_self (type : PropertyType) (h : ∀ id ∈ type.references, f id = id) :
    type.rename f = type := by
  cases type with
  | ref definition => exact congrArg ref (h definition List.mem_cons_self)
  | array element => exact congrArg array (rename_eq_self element h)
  | map element => exact congrArg map (rename_eq_self element h)
  | union types => exact congrArg union (renameAll_eq_self types h)
  | _ => rfl

theorem renameAll_eq_self (types : List PropertyType)
    (h : ∀ id ∈ referencesOfAll types, f id = id) : renameAll f types = types := by
  cases types with
  | nil => rfl
  | cons type rest =>
    rw [referencesOfAll] at h
    exact congrArg₂ List.cons
      (rename_eq_self type fun id hid => h id (List.mem_append_left _ hid))
      (renameAll_eq_self rest fun id hid => h id (List.mem_append_right _ hid))

end

mutual

theorem references_rename (type : PropertyType) :
    (type.rename f).references = type.references.map f := by
  cases type with
  | array element => exact references_rename element
  | map element => exact references_rename element
  | union types => exact referencesOfAll_renameAll types
  | _ => rfl

theorem referencesOfAll_renameAll (types : List PropertyType) :
    referencesOfAll (renameAll f types) = (referencesOfAll types).map f := by
  cases types with
  | nil => rfl
  | cons type rest =>
    rw [renameAll, referencesOfAll, referencesOfAll, List.map_append, references_rename type,
      referencesOfAll_renameAll rest]

end

mutual

/-- A renamed type has the text that the type has where each definition has the name of the one it
is renamed to. -/
theorem render_rename {nameOf : Identity → Except GraphError String} (type : PropertyType) :
    (type.rename f).render nameOf = type.render (nameOf ∘ f) := by
  cases type with
  | array element => exact congrArg (Except.map _) (render_rename element)
  | map element => exact congrArg (Except.map _) (render_rename element)
  | union types => exact congrArg (Except.map _) (renderAll_renameAll types)
  | _ => rfl

theorem renderAll_renameAll {nameOf : Identity → Except GraphError String}
    (types : List PropertyType) :
    renderAll nameOf (renameAll f types) = renderAll (nameOf ∘ f) types := by
  cases types with
  | nil => rfl
  | cons type rest =>
    rw [renameAll, renderAll, renderAll, render_rename type, renderAll_renameAll rest]

end

mutual

theorem render_congr {nameOf other : Identity → Except GraphError String} (type : PropertyType)
    (h : ∀ id ∈ type.references, nameOf id = other id) :
    type.render nameOf = type.render other := by
  cases type with
  | ref definition => exact h definition List.mem_cons_self
  | array element => exact congrArg (Except.map _) (render_congr element h)
  | map element => exact congrArg (Except.map _) (render_congr element h)
  | union types => exact congrArg (Except.map _) (renderAll_congr types h)
  | _ => rfl

theorem renderAll_congr {nameOf other : Identity → Except GraphError String}
    (types : List PropertyType) (h : ∀ id ∈ referencesOfAll types, nameOf id = other id) :
    renderAll nameOf types = renderAll other types := by
  cases types with
  | nil => rfl
  | cons type rest =>
    rw [referencesOfAll] at h
    rw [renderAll, renderAll, render_congr type fun id hid => h id (List.mem_append_left _ hid),
      renderAll_congr rest fun id hid => h id (List.mem_append_right _ hid)]

end

end PropertyType

def Property.rename (f : Identity → Identity) (p : Property) : Property :=
  { p with
    type := p.type.rename f
    previousTypes := p.previousTypes.map (PropertyType.rename f) }

def PropertyMap.rename (f : Identity → Identity) (properties : PropertyMap) : PropertyMap :=
  Keyed.mapValues (Property.rename f) properties

def TypeDefinition.rename (f : Identity → Identity) (definition : TypeDefinition) :
    TypeDefinition :=
  { definition with properties := definition.properties.rename f }

def Resource.rename (f : Identity → Identity) (resource : Resource) : Resource :=
  { resource with
    properties := resource.properties.rename f
    attributes := resource.attributes.rename f }

/-- A definition under another identity. -/
def Record.rename (f : Identity → Identity) (d : Record TypeDefinition) : Record TypeDefinition :=
  ⟨f d.id, d.entity.rename f⟩

/-- An edge to what is found under another identity. -/
def Edge.rename {α : Type} (f : Identity → Identity) (edge : Edge α) : Edge α :=
  ⟨f edge.id, edge.attributes⟩

theorem Edge.rename_injective {α : Type} (h : Function.Injective f) :
    Function.Injective (Edge.rename (α := α) f) := by
  rintro ⟨x, u⟩ ⟨y, v⟩ hsame
  obtain ⟨hid, rfl⟩ := Edge.mk.inj hsame
  exact congrArg (Edge.mk · u) (h hid)

theorem Property.rename_rename (p : Property) : (p.rename f).rename g = p.rename (g ∘ f) := by
  rw [rename, rename, rename, PropertyType.rename_rename, List.map_map]
  congr 2
  exact funext PropertyType.rename_rename

theorem PropertyMap.rename_rename (properties : PropertyMap) :
    (properties.rename f).rename g = properties.rename (g ∘ f) := by
  rw [rename, rename, rename, Keyed.mapValues, Keyed.mapValues, Keyed.mapValues, List.map_map]
  exact List.map_congr_left fun entry _ => congrArg (Prod.mk entry.1) entry.2.rename_rename

theorem Resource.rename_rename (resource : Resource) :
    (resource.rename f).rename g = resource.rename (g ∘ f) := by
  rw [rename, rename, rename, PropertyMap.rename_rename, PropertyMap.rename_rename]

theorem Record.rename_rename (d : Record TypeDefinition) :
    (d.rename f).rename g = d.rename (g ∘ f) := by
  rw [rename, rename, rename, TypeDefinition.rename, TypeDefinition.rename, TypeDefinition.rename,
    PropertyMap.rename_rename]
  rfl

theorem Property.rename_eq_self {p : Property} (h : ∀ id ∈ p.references, f id = id) :
    p.rename f = p := by
  have htypes : p.previousTypes.map (PropertyType.rename f) = p.previousTypes := by
    refine (List.map_congr_left fun type htype => ?_).trans (List.map_id _)
    refine type.rename_eq_self fun id hid => h id (List.mem_append_right _ ?_)
    exact List.mem_flatMap.2 ⟨type, htype, hid⟩
  rw [rename, htypes, p.type.rename_eq_self fun id hid => h id (List.mem_append_left _ hid)]

theorem PropertyMap.rename_eq_self {properties : PropertyMap}
    (h : ∀ id ∈ properties.references, f id = id) : properties.rename f = properties := by
  refine (List.map_congr_left fun entry hentry => ?_).trans (List.map_id _)
  have hsame : entry.2.rename f = entry.2 := Property.rename_eq_self fun id hid =>
    h id (List.mem_flatMap.2 ⟨entry.2, List.mem_map_of_mem hentry, hid⟩)
  exact congrArg (Prod.mk entry.1) hsame

theorem Property.references_rename (p : Property) :
    (p.rename f).references = p.references.map f := by
  rw [references, references, rename, List.map_append, List.map_flatMap, List.flatMap_map,
    PropertyType.references_rename]
  exact congrArg _ (List.flatMap_congr fun type _ => type.references_rename)

theorem PropertyMap.references_rename (properties : PropertyMap) :
    PropertyMap.references (properties.rename f) = (PropertyMap.references properties).map f := by
  rw [references, references, Keyed.values, Keyed.values, rename, Keyed.mapValues, List.map_flatMap,
    List.map_map, List.flatMap_map, List.flatMap_map]
  exact List.flatMap_congr fun entry _ => entry.2.references_rename

theorem Resource.rename_eq_self {resource : Resource}
    (h : ∀ id ∈ PropertyMap.references resource.properties ++
      PropertyMap.references resource.attributes, f id = id) : resource.rename f = resource := by
  rw [rename, PropertyMap.rename_eq_self fun id hid => h id (List.mem_append_left _ hid),
    PropertyMap.rename_eq_self fun id hid => h id (List.mem_append_right _ hid)]

theorem Record.rename_eq_self {d : Record TypeDefinition} (hid : f d.id = d.id)
    (h : ∀ id ∈ PropertyMap.references d.entity.properties, f id = id) : d.rename f = d := by
  rw [rename, TypeDefinition.rename, hid, PropertyMap.rename_eq_self h]

theorem Resource.rename_id (resource : Resource) : resource.rename id = resource :=
  rename_eq_self fun _ _ => rfl

theorem rename_id_record (d : Record TypeDefinition) : d.rename id = d :=
  Record.rename_eq_self rfl fun _ _ => rfl

/-! ### Definitions found under other identities -/

namespace Database

variable {a b : Database}

/-- A definition of one database is found in another under its other identity. -/
def Carried (f : Identity → Identity) (a b : Database) (id : Identity) : Prop :=
  ∃ d, a.typeDefinitions.get id = .ok d ∧ b.typeDefinitions.get (f id) = .ok (d.rename f)

/-- A type has the same text where the definitions it mentions are found. -/
theorem render_rename {type : PropertyType} (h : ∀ id ∈ type.references, Carried f a b id) :
    b.render (type.rename f) = a.render type := by
  rw [render, render, PropertyType.render_rename]
  refine PropertyType.render_congr type fun id hid => ?_
  obtain ⟨d, hd, hd'⟩ := h id hid
  rw [Function.comp_apply, typeName, typeName, hd, hd']
  rfl

/-- A resource uses the same definitions where these are found. -/
theorem typesOf_rename {resource other : Identity}
    (huses : b.usesType.outgoing other = (a.usesType.outgoing resource).map (Edge.rename f))
    (h : ∀ edge ∈ a.usesType.outgoing resource, Carried f a b edge.id) :
    b.typesOf other =
      (a.typesOf resource).map fun found => found.map fun use => (use.1.rename f, use.2) := by
  rw [typesOf, typesOf, Edges.follow, Edges.follow, huses]
  generalize a.usesType.outgoing resource = edges at h
  rw [Edges.dereference, Edges.dereference]
  induction edges with
  | nil => rfl
  | cons edge rest ih =>
    obtain ⟨⟨d, hd, hd'⟩, hrest⟩ := List.forall_mem_cons.1 h
    rw [List.map_cons, List.mapM_cons, List.mapM_cons, ih hrest, Edge.rename, hd, hd']
    cases rest.mapM fun edge =>
      (a.typeDefinitions.get edge.id).map fun record => (record, edge.attributes) <;> rfl

end Database

/-! ### Renamed databases -/

/-- The second database has what the first one has, with other identities for definitions. -/
structure Database.Renamed (f : Identity → Identity) (a b : Database) : Prop where
  services : b.services.all = a.services.all
  resources : b.resources.all = a.resources.all.map fun r => ⟨r.id, r.entity.rename f⟩
  typeDefinitions : b.typeDefinitions.all = a.typeDefinitions.all.map (Record.rename f)
  regions : b.regions.all = a.regions.all
  hasResource : b.hasResource = a.hasResource
  usesType : ∀ start, b.usesType.outgoing start =
    (a.usesType.outgoing start).map (Edge.rename f)
  regionHasResource : b.regionHasResource = a.regionHasResource

namespace Database

theorem Renamed.refl (db : Database) : Renamed id db db where
  services := rfl
  resources := ((List.map_congr_left fun r _ =>
    congrArg (Record.mk r.id) r.entity.rename_id).trans (List.map_id _)).symm
  typeDefinitions := ((List.map_congr_left fun d _ => rename_id_record d).trans (List.map_id _)).symm
  regions := rfl
  hasResource := rfl
  usesType _ := (List.map_id _).symm
  regionHasResource := rfl

/-- What was renamed can be renamed back. -/
theorem Renamed.symm {a b : Database} (h : Renamed f a b) (hg : Function.LeftInverse g f) :
    Renamed g b a where
  services := h.services.symm
  resources := by
    rw [h.resources, List.map_map]
    refine ((List.map_congr_left fun r _ => ?_).trans (List.map_id _)).symm
    rw [Function.comp_apply, Resource.rename_rename, hg.comp_eq_id, Resource.rename_id]
    rfl
  typeDefinitions := by
    rw [h.typeDefinitions, List.map_map]
    refine ((List.map_congr_left fun d _ => ?_).trans (List.map_id _)).symm
    rw [Function.comp_apply, Record.rename_rename, hg.comp_eq_id, rename_id_record]
    rfl
  regions := h.regions.symm
  hasResource := h.hasResource.symm
  usesType start := by
    rw [h.usesType, List.map_map]
    refine ((List.map_congr_left fun edge _ => ?_).trans (List.map_id _)).symm
    rw [Function.comp_apply, Edge.rename, Edge.rename, hg]
    rfl
  regionHasResource := h.regionHasResource.symm

namespace Renamed

variable {a b : Database} (h : Renamed f a b)

include h

/-- Every definition is found under its other identity. -/
theorem carried (ha : a.typeDefinitions.ids.Nodup) (hb : b.typeDefinitions.ids.Nodup)
    {id : Identity} (hid : id ∈ a.typeDefinitions.ids) : Carried f a b id := by
  obtain ⟨d, hd, rfl⟩ := Collection.mem_ids.1 hid
  have hmem : d.rename f ∈ b.typeDefinitions.all := by
    rw [h.typeDefinitions]
    exact List.mem_map_of_mem hd
  exact ⟨d, Collection.get_of_mem ha hd, Collection.get_of_mem hb hmem⟩

/-- There is as much of everything in both databases. -/
theorem stats (huses : a.usesType.Coherent) (huses' : b.usesType.Coherent) :
    b.stats = a.stats := by
  simp only [Database.stats, Collection.size_eq]
  rw [h.services, h.resources, h.typeDefinitions, h.regions, h.hasResource, h.regionHasResource,
    List.length_map, List.length_map, Edges.size, Edges.size, Edges.size, Edges.size,
    huses.count_eq_of_map huses' h.usesType]

end Renamed

end Database

end ResourceCatalog
