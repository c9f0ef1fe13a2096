import Mathlib
import ResourceCatalog.Proofs.Comparison.Unchanged

/-!
# Comparisons and identities

A comparison of two resources asks their databases for the texts of types and for the definitions
that are used, and for nothing else. So a resource can be replaced by a `Counterpart` in another
database, which says the same with other identities, on either side. `resource?_counterparts` is
this fact, and a comparison of whole databases follows resource by resource.
-/

namespace ResourceCatalog

namespace Comparison

variable {f g : Identity → Identity}

section Keyed

variable {α β γ : Type} {compare : String → α → α → Except GraphError (Option γ)}
  {compare' : String → β → β → Except GraphError (Option γ)} {change change' : α → β}

theorem updates_mapValues {old new : Keyed α}
    (h : ∀ key before after, (key, before) ∈ old → (key, after) ∈ new →
      compare' key (change before) (change' after) = compare key before after) :
    updates compare' (Keyed.mapValues change' new) (Keyed.mapValues change old) =
      updates compare new old := by
  induction old with
  | nil => rfl
  | cons entry rest ih =>
    have hrest := ih fun key before after hbefore => h key before after
      (List.mem_cons_of_mem _ hbefore)
    change updates compare' _ ((entry.1, change entry.2) :: Keyed.mapValues change rest) = _
    rw [updates, updates, hrest, Keyed.get?_mapValues]
    cases hafter : Keyed.get? entry.1 new with
    | none => rfl
    | some after =>
      rw [Option.map_some]
      dsimp only
      rw [h _ _ _ List.mem_cons_self (Keyed.mem_of_get? hafter)]

/-- Values can be replaced by others that are compared alike. -/
theorem keyed_mapValues {old new : Keyed α}
    (h : ∀ key before after, (key, before) ∈ old → (key, after) ∈ new →
      compare' key (change before) (change' after) = compare key before after) :
    keyed compare' (Keyed.mapValues change old) (Keyed.mapValues change' new) =
      keyed compare old new := by
  rw [keyed, keyed, updates_mapValues h]
  simp only [Keyed.keys_mapValues, Keyed.contains_mapValues]

end Keyed

/-! ### Counterparts -/

theorem foldl_takeFirst_rename (f : Identity → Identity)
    (found : List (Record TypeDefinition × Use)) (definitions : Keyed TypeDefinition) :
    (found.map fun use => (use.1.rename f, use.2)).foldl takeFirst
        (Keyed.mapValues (TypeDefinition.rename f) definitions) =
      Keyed.mapValues (TypeDefinition.rename f) (found.foldl takeFirst definitions) := by
  induction found generalizing definitions with
  | nil => rfl
  | cons use rest ih =>
    have hstep : takeFirst (Keyed.mapValues (TypeDefinition.rename f) definitions)
        (use.1.rename f, use.2) =
        Keyed.mapValues (TypeDefinition.rename f) (takeFirst definitions use) := by
      rw [takeFirst, takeFirst, Keyed.contains_mapValues]
      change (if definitions.contains use.1.entity.name = true then _ else _) = _
      split
      · rfl
      · exact Keyed.insert_mapValues (TypeDefinition.rename f) use.1.entity.name use.1.entity
          definitions
    rw [List.map_cons, List.foldl_cons, List.foldl_cons, hstep]
    exact ih _

/-- The types of the properties have the same texts in another database. -/
def SameTexts (f : Identity → Identity) (a a' : Database) (properties : PropertyMap) : Prop :=
  ∀ entry ∈ properties, a'.render (entry.2.type.rename f) = a.render entry.2.type

/-- A resource of one database says what a resource of another one says, with other identities. -/
structure Counterpart (f : Identity → Identity) (a a' : Database) (r r' : Record Resource) :
    Prop where
  entity : r'.entity = r.entity.rename f
  properties : SameTexts f a a' r.entity.properties
  attributes : SameTexts f a a' r.entity.attributes
  typesOf : a'.typesOf r'.id =
    (a.typesOf r.id).map fun found => found.map fun use => (use.1.rename f, use.2)
  definitions : ∀ found, usedDefinitions a r.id = .ok found → ∀ entry ∈ found,
    SameTexts f a a' entry.2.properties

section Counterparts

variable {a a' b b' : Database} {r r' s s' : Record Resource}

/-- The definitions to be found under their other identities are those that the types of the resource
mention, those that it uses, and those that the types of the latter mention. -/
theorem counterpart_of_carried (hentity : r'.entity = r.entity.rename f)
    (huses : a'.usesType.outgoing r'.id = (a.usesType.outgoing r.id).map (Edge.rename f))
    (hmentioned : ∀ id ∈ r.entity.currentReferences, Database.Carried f a a' id)
    (hused : ∀ edge ∈ a.usesType.outgoing r.id, Database.Carried f a a' edge.id)
    (hinside : ∀ edge ∈ a.usesType.outgoing r.id, ∀ d, a.typeDefinitions.get edge.id = .ok d →
      ∀ p ∈ Keyed.values d.entity.properties, ∀ id ∈ p.type.references,
        Database.Carried f a a' id) :
    Counterpart f a a' r r' where
  entity := hentity
  properties entry hentry := Database.render_rename fun id hid =>
    hmentioned id (Resource.mem_currentReferences.2
      ⟨entry.2, List.mem_append_left _ (List.mem_map_of_mem hentry), hid⟩)
  attributes entry hentry := Database.render_rename fun id hid =>
    hmentioned id (Resource.mem_currentReferences.2
      ⟨entry.2, List.mem_append_right _ (List.mem_map_of_mem hentry), hid⟩)
  typesOf := Database.typesOf_rename huses hused
  definitions found hfound entry hentry := by
    obtain ⟨edge, hedge, d, hd, rfl⟩ := (ascending_usedDefinitions hfound).2 entry hentry
    exact fun property hproperty => Database.render_rename
      (hinside edge hedge d hd property.2 (List.mem_map_of_mem hproperty))

/-- In a consistent database only the definitions that the resource uses are to be found. -/
theorem counterpart_of_used {supply : Supply} (ha : a.Consistent supply)
    (hr : r ∈ a.resources.all) (hentity : r'.entity = r.entity.rename f)
    (huses : a'.usesType.outgoing r'.id = (a.usesType.outgoing r.id).map (Edge.rename f))
    (hused : ∀ id, a.usesType.Joins r.id id → Database.Carried f a a' id) :
    Counterpart f a a' r r' := by
  refine counterpart_of_carried hentity huses
    (fun id hid => hused id (ha.generations.current r hr id hid))
    (fun edge hedge => hused edge.id ⟨edge, hedge, rfl⟩) fun edge hedge d hd p hp id hid => ?_
  have hmentioned : id ∈ PropertyMap.references d.entity.properties :=
    List.mem_flatMap.2 ⟨p, hp, List.mem_append_left _ hid⟩
  have htogether := (ha.generations.together d (Collection.mem_all_of_get hd) id hmentioned).2
  exact hused id ((htogether r.id).1 ⟨edge, hedge, (Collection.id_eq_of_get hd).symm⟩)

theorem properties_sameTexts {before after : PropertyMap} (hbefore : SameTexts f a a' before)
    (hafter : SameTexts g b b' after) :
    properties a' b' (before.rename f) (after.rename g) = properties a b before after := by
  refine keyed_mapValues fun key p q hp hq => ?_
  have hp' : a'.render (p.rename f).type = a.render p.type := hbefore _ hp
  have hq' : b'.render (q.rename g).type = b.render q.type := hafter _ hq
  rw [propertyFields_eq, propertyFields_eq, propertyFields_eq, propertyFields_eq, hp', hq']
  rfl

theorem Counterpart.usedDefinitions (h : Counterpart f a a' r r') :
    Comparison.usedDefinitions a' r'.id =
      (Comparison.usedDefinitions a r.id).map (Keyed.mapValues (TypeDefinition.rename f)) := by
  rw [usedDefinitions_eq, usedDefinitions_eq, h.typesOf]
  cases a.typesOf r.id with
  | error e => rfl
  | ok found => exact congrArg Except.ok (foldl_takeFirst_rename f found [])

/-- Two resources are compared like their counterparts. -/
theorem resource?_counterparts (h : Counterpart f a a' r r') (k : Counterpart g b b' s s')
    (name : String) : resource? a' b' name r' s' = resource? a b name r s := by
  have hdefinitions : definitions a' b' r'.id s'.id = definitions a b r.id s.id := by
    rw [definitions, definitions, h.usedDefinitions, k.usedDefinitions]
    cases hfound : Comparison.usedDefinitions a r.id with
    | error e => rfl
    | ok found =>
      cases hfound' : Comparison.usedDefinitions b s.id with
      | error e => rfl
      | ok found' =>
        refine keyed_mapValues fun key d e hd he => ?_
        have hproperties : Comparison.properties a' b' (d.rename f).properties
            (e.rename g).properties = Comparison.properties a b d.properties e.properties :=
          properties_sameTexts (h.definitions found hfound _ hd) (k.definitions found' hfound' _ he)
        rw [hproperties]
        rfl
  have hproperties : Comparison.properties a' b' r'.entity.properties s'.entity.properties =
      Comparison.properties a b r.entity.properties s.entity.properties := by
    rw [h.entity, k.entity]
    exact properties_sameTexts h.properties k.properties
  have hattributes : Comparison.properties a' b' r'.entity.attributes s'.entity.attributes =
      Comparison.properties a b r.entity.attributes s.entity.attributes := by
    rw [h.entity, k.entity]
    exact properties_sameTexts h.attributes k.attributes
  rw [resource?, resource?, hproperties, hattributes, hdefinitions, h.entity, k.entity]
  rfl

theorem sameTexts_id (db : Database) (properties : PropertyMap) : SameTexts id db db properties :=
  fun entry _ => congrArg db.render (entry.2.type.rename_eq_self fun _ _ => rfl)

theorem Counterpart.refl (db : Database) (r : Record Resource) : Counterpart id db db r r where
  entity := r.entity.rename_id.symm
  properties := sameTexts_id db _
  attributes := sameTexts_id db _
  typesOf := by
    have hsame : (fun use : Record TypeDefinition × Use => (use.1.rename id, use.2)) = id :=
      funext fun use => congrArg (·, use.2) (rename_id_record use.1)
    rw [hsame]
    cases db.typesOf r.id with
    | error e => rfl
    | ok found => exact congrArg Except.ok (List.map_id found).symm
  definitions _ _ _ _ := sameTexts_id db _

/-- The services and resources of a database are counterparts of those of another, in the same
order. -/
structure Counterparts (e f : Identity → Identity) (a a' : Database) : Prop where
  services : a'.services.all = a.services.all.map fun s => ⟨e s.id, s.entity⟩
  resources : a'.resources.all = a.resources.all.map fun r => ⟨e r.id, r.entity.rename f⟩
  counterpart : ∀ r ∈ a.resources.all, Counterpart f a a' r ⟨e r.id, r.entity.rename f⟩

theorem Counterparts.refl (db : Database) : Counterparts id id db db where
  services := (List.map_id _).symm
  resources := ((List.map_congr_left fun r _ =>
    congrArg (Record.mk r.id) r.entity.rename_id).trans (List.map_id _)).symm
  counterpart r _ := by
    rw [Resource.rename_id]
    exact Counterpart.refl db r

theorem byName_map {α : Type} {c c' : Collection α} {move : Record α → Record α}
    (h : c'.all = c.all.map move) {name : α → String}
    (hname : ∀ r : Record α, name (move r).entity = name r.entity) :
    byName c' name = Keyed.mapValues move (byName c name) := by
  rw [byName_eq, byName_eq, h, ← Keyed.ofList_mapValues, Keyed.mapValues, List.map_map,
    List.map_map]
  exact congrArg Keyed.ofList (List.map_congr_left fun r _ =>
    congrArg (Prod.mk · (move r)) (hname r))

/-- Two databases are compared like their counterparts. -/
theorem databases_counterparts {e e' : Identity → Identity} (h : Counterparts e f a a')
    (k : Counterparts e' g b b') : databases a' b' = databases a b := by
  have hservices : keyed (fun name r s => .ok (service? name r s))
      (byName a'.services Service.name) (byName b'.services Service.name) =
      keyed (fun name r s => .ok (service? name r s))
        (byName a.services Service.name) (byName b.services Service.name) := by
    rw [byName_map h.services fun _ => rfl, byName_map k.services fun _ => rfl]
    exact keyed_mapValues fun _ _ _ _ _ => rfl
  have hresources : keyed (resource? a' b') (byName a'.resources Resource.typeName)
      (byName b'.resources Resource.typeName) =
      keyed (resource? a b) (byName a.resources Resource.typeName)
        (byName b.resources Resource.typeName) := by
    rw [byName_map h.resources fun _ => rfl, byName_map k.resources fun _ => rfl]
    exact keyed_mapValues fun name r s hr hs => resource?_counterparts
      (h.counterpart r (mem_all_of_mem_byName hr)) (k.counterpart s (mem_all_of_mem_byName hs)) name
  rw [databases, databases, hservices, hresources]

end Counterparts

/-! ### Definitions under other identities -/

section Renamed

variable {a b : Database} {supply : Supply} (h : a.Renamed f b) (ha : a.Consistent supply)
  (hb : b.typeDefinitions.ids.Nodup)

include h ha hb

/-- A type has a text, and it is the same in both databases. -/
theorem exists_text_renamed {type : PropertyType}
    (htype : type.references ⊆ a.typeDefinitions.ids) :
    ∃ text, a.render type = .ok text ∧ b.render (type.rename f) = .ok text := by
  obtain ⟨text, htext⟩ := Database.render_ok ha.typeDefinitions.coherent htype
  exact ⟨text, htext, (Database.render_rename fun id hid =>
    h.carried ha.typeDefinitions.coherent.distinct hb (htype hid)).trans htext⟩

theorem counterparts_renamed : Counterparts id f a b where
  services := h.services.trans (List.map_id _).symm
  resources := h.resources
  counterpart r hr := counterpart_of_used ha hr rfl (h.usesType r.id) fun id hid =>
    h.carried ha.typeDefinitions.coherent.distinct hb (ha.usesType.ends r.id id hid).2

/-- Nothing is different where only the identities of definitions are. -/
theorem databases_renamed : databases a b = .ok ⟨unchanged, unchanged⟩ :=
  (databases_counterparts (.refl a) (counterparts_renamed h ha hb)).trans
    (databases_self ha.resolves ha.arranged)

end Renamed

end Comparison

end ResourceCatalog
