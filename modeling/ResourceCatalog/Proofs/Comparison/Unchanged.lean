import Mathlib
import ResourceCatalog.Comparison.Basic
import ResourceCatalog.Proofs.Catalog.Renaming

/-!
# Comparisons that find nothing

A comparison looks at the records of a database, at their order and at the edges from resources to
definitions. Databases that are alike in this are the same to it, whatever their indexes are. And
nothing is different between a database and itself, as long as what it mentions is found.
-/

namespace ResourceCatalog

namespace Comparison

/-! ### What a comparison looks at -/

/-- Two databases have the same records, and their resources use the same definitions. -/
structure Alike (a b : Database) : Prop where
  services : a.services.all = b.services.all
  resources : a.resources.all = b.resources.all
  typeDefinitions : a.typeDefinitions.all = b.typeDefinitions.all
  usesType : a.usesType.forward = b.usesType.forward

theorem Alike.refl (db : Database) : Alike db db := ⟨rfl, rfl, rfl, rfl⟩

section Congruence

variable {a b a' b' : Database}

theorem Alike.render (h : Alike a b) : a.render = b.render := by
  have hname : a.typeName = b.typeName := by
    funext id
    rw [Database.typeName, Database.typeName, Collection.get_congr h.typeDefinitions]
  funext type
  rw [Database.render, Database.render, hname]

theorem Alike.propertyFields (h : Alike a b) : propertyFields a = propertyFields b := by
  funext p
  rw [Comparison.propertyFields, Comparison.propertyFields, h.render]

theorem Alike.properties (h : Alike a b) (h' : Alike a' b') : properties a a' = properties b b' := by
  funext before after
  rw [Comparison.properties, Comparison.properties, h.propertyFields, h'.propertyFields]

theorem Alike.usedDefinitions (h : Alike a b) : usedDefinitions a = usedDefinitions b := by
  funext resource
  have hfollow : a.typesOf resource = b.typesOf resource := by
    rw [Database.typesOf, Database.typesOf, Edges.follow, Edges.follow, Edges.dereference,
      Edges.dereference, Edges.outgoing, Edges.outgoing, h.usesType]
    refine congrArg (fun read => List.mapM read _) (funext fun edge => ?_)
    rw [Collection.get_congr h.typeDefinitions]
  rw [Comparison.usedDefinitions, Comparison.usedDefinitions, hfollow]

theorem Alike.definitions (h : Alike a b) (h' : Alike a' b') :
    definitions a a' = definitions b b' := by
  funext before after
  rw [Comparison.definitions, Comparison.definitions, h.usedDefinitions, h'.usedDefinitions,
    h.properties h']

theorem Alike.resource? (h : Alike a b) (h' : Alike a' b') : resource? a a' = resource? b b' := by
  funext name before after
  rw [Comparison.resource?, Comparison.resource?, h.properties h', h.definitions h']

theorem byName_eq {α : Type} (c : Collection α) (name : α → String) :
    byName c name = Keyed.ofList (c.all.map fun r => (name r.entity, r)) := by
  rw [byName, Collection.all, List.map_map]
  rfl

theorem mem_all_of_mem_byName {α : Type} {c : Collection α} {name : α → String}
    {entry : String × Record α} (h : entry ∈ byName c name) : entry.2 ∈ c.all := by
  rw [byName_eq] at h
  obtain ⟨r, hr, rfl⟩ := List.mem_map.1 (Keyed.mem_ofList h)
  exact hr

theorem byName_congr {α : Type} {c d : Collection α} (h : c.all = d.all) (name : α → String) :
    byName c name = byName d name := by
  rw [byName_eq, byName_eq, h]

/-- Databases that are alike are compared with the same outcome. -/
theorem Alike.databases (h : Alike a b) (h' : Alike a' b') : databases a a' = databases b b' := by
  rw [Comparison.databases, Comparison.databases, h.resource? h', byName_congr h.services,
    byName_congr h'.services, byName_congr h.resources, byName_congr h'.resources]

end Congruence

/-! ### Nothing is different -/

/-- Nothing was added, removed or changed. -/
def unchanged {α : Type} : KeyedChange α := ⟨[], [], []⟩

theorem fields_cons (before after : String × String) (old new : List (String × String)) :
    fields (before :: old) (after :: new) =
      (if before.2 = after.2 then [] else [⟨before.1, before.2, after.2⟩]) ++ fields old new := by
  rw [fields, List.zip_cons_cons, List.filterMap_cons]
  dsimp only
  by_cases hsame : before.2 = after.2
  · rw [if_pos hsame, if_pos hsame]
    rfl
  · rw [if_neg hsame, if_neg hsame]
    rfl

theorem fields_self (texts : List (String × String)) : fields texts texts = [] := by
  induction texts with
  | nil => rfl
  | cons text rest ih => rw [fields_cons, if_pos rfl, ih, List.append_nil]

/-- The texts of a property's fields, given the text of its type. -/
def propertyTexts (p : Property) (type : String) : List (String × String) := [
  ("type", type),
  ("required", boolText p.required),
  ("documentation", p.documentation.getD ""),
  ("default", (p.default.map Json.compact).getD ""),
  ("deprecated", boolText p.deprecated),
  ("causes_replacement", boolText p.causesReplacement)]

theorem propertyFields_eq (db : Database) (p : Property) :
    propertyFields db p = (db.render p.type).map (propertyTexts p) := by
  rw [propertyFields]
  cases db.render p.type <;> rfl

section Keyed

variable {α β : Type} {compare : String → α → α → Except GraphError (Option β)}

theorem updates_eq_nil {old new : Keyed α}
    (h : ∀ entry ∈ old, ∃ after, Keyed.get? entry.1 new = some after ∧
      compare entry.1 entry.2 after = .ok none) : updates compare new old = .ok [] := by
  induction old with
  | nil => rfl
  | cons entry rest ih =>
    obtain ⟨⟨after, hafter, hsame⟩, hrest⟩ := List.forall_mem_cons.1 h
    rw [updates, hafter]
    dsimp only
    rw [hsame, ih hrest]
    rfl

/-- What is the same under each key has not changed. -/
theorem keyed_self {entries : Keyed α} (hentries : Keyed.Ascending entries)
    (hsame : ∀ entry ∈ entries, compare entry.1 entry.2 entry.2 = .ok none) :
    keyed compare entries entries = .ok unchanged := by
  have hupdates : updates compare entries entries = .ok [] :=
    updates_eq_nil fun entry hentry =>
      ⟨entry.2, hentries.get?_of_mem hentry, hsame entry hentry⟩
  have hkeys : (Keyed.keys entries).filter (fun key => !Keyed.contains entries key) = [] := by
    rw [List.filter_eq_nil_iff]
    intro key hkey
    obtain ⟨entry, hentry, rfl⟩ := List.mem_map.1 hkey
    rw [Keyed.contains, hentries.get?_of_mem hentry]
    exact Bool.false_ne_true
  rw [keyed, hupdates]
  change Except.ok _ = _
  rw [hkeys]
  rfl

end Keyed

theorem get_of_contains {β : Type} [Entity β] {c : Collection β} {id : Identity}
    (h : c.contains id = true) : ∃ r, c.get id = .ok r := by
  obtain ⟨row, hrow⟩ := Option.isSome_iff_exists.1 h
  exact ⟨row.record, by rw [Collection.get, hrow]⟩

theorem dereference_ok {α β : Type} [Entity β] {edges : List (Edge α)} {c : Collection β}
    (h : ∀ edge ∈ edges, c.contains edge.id = true) :
    ∃ found, Edges.dereference edges c = .ok found := by
  rw [Edges.dereference]
  induction edges with
  | nil => exact ⟨[], rfl⟩
  | cons edge rest ih =>
    obtain ⟨hedge, hrest⟩ := List.forall_mem_cons.1 h
    obtain ⟨found, hfound⟩ := ih hrest
    obtain ⟨r, hr⟩ := get_of_contains hedge
    exact ⟨(r, edge.attributes) :: found, by rw [List.mapM_cons, hr, hfound]; rfl⟩

/-- Each edge has been followed to what is found at its end. -/
theorem forall₂_dereference {α β : Type} [Entity β] {edges : List (Edge α)} {c : Collection β}
    {found : List (Record β × α)} (h : Edges.dereference edges c = .ok found) :
    List.Forall₂ (fun edge use => c.get edge.id = .ok use.1) edges found := by
  rw [Edges.dereference] at h
  induction edges generalizing found with
  | nil =>
    cases h
    exact .nil
  | cons edge rest ih =>
    rw [List.mapM_cons] at h
    cases hget : c.get edge.id with
    | error e =>
      rw [hget] at h
      cases h
    | ok r =>
      rw [hget] at h
      cases hrest : rest.mapM fun edge => (c.get edge.id).map fun r => (r, edge.attributes) with
      | error e =>
        rw [hrest] at h
        cases h
      | ok others =>
        rw [hrest] at h
        cases h
        exact .cons hget (ih hrest)

theorem exists_edge_of_dereference {α β : Type} [Entity β] {edges : List (Edge α)}
    {c : Collection β} {found : List (Record β × α)} (h : Edges.dereference edges c = .ok found) :
    ∀ use ∈ found, ∃ edge ∈ edges, c.get edge.id = .ok use.1 := by
  have hpairs := forall₂_dereference h
  clear h
  induction hpairs with
  | nil => exact fun _ huse => absurd huse List.not_mem_nil
  | cons hget _ ih =>
    refine List.forall_mem_cons.2 ⟨⟨_, List.mem_cons_self, hget⟩, fun use huse => ?_⟩
    obtain ⟨edge, hedge, hother⟩ := ih use huse
    exact ⟨edge, List.mem_cons_of_mem _ hedge, hother⟩

theorem exists_use_of_dereference {α β : Type} [Entity β] {edges : List (Edge α)}
    {c : Collection β} {found : List (Record β × α)} (h : Edges.dereference edges c = .ok found) :
    ∀ edge ∈ edges, ∃ use ∈ found, c.get edge.id = .ok use.1 := by
  have hpairs := forall₂_dereference h
  clear h
  induction hpairs with
  | nil => exact fun _ hedge => absurd hedge List.not_mem_nil
  | cons hget _ ih =>
    refine List.forall_mem_cons.2 ⟨⟨_, List.mem_cons_self, hget⟩, fun edge hedge => ?_⟩
    obtain ⟨use, huse, hother⟩ := ih edge hedge
    exact ⟨use, List.mem_cons_of_mem _ huse, hother⟩

/-- Takes a definition in unless there is one of its name. -/
def takeFirst (definitions : Keyed TypeDefinition) (use : Record TypeDefinition × Use) :
    Keyed TypeDefinition :=
  if definitions.contains use.1.entity.name then definitions
  else Keyed.insert use.1.entity.name use.1.entity definitions

theorem usedDefinitions_eq (db : Database) (resource : Identity) :
    usedDefinitions db resource = (db.typesOf resource).map fun found => found.foldl takeFirst [] := by
  rw [usedDefinitions]
  cases db.typesOf resource <;> rfl

/-- The definitions that a resource uses are in the order of their names. -/
theorem ascending_usedDefinitions {db : Database} {resource : Identity}
    {definitions : Keyed TypeDefinition} (h : usedDefinitions db resource = .ok definitions) :
    Keyed.Ascending definitions ∧
      ∀ entry ∈ definitions, ∃ edge ∈ db.usesType.outgoing resource, ∃ d,
        db.typeDefinitions.get edge.id = .ok d ∧ (d.entity.name, d.entity) = entry := by
  rw [usedDefinitions_eq] at h
  cases hfound : db.typesOf resource with
  | error e =>
    rw [hfound] at h
    cases h
  | ok found =>
    rw [hfound] at h
    cases h
    refine List.foldlRecOn (motive := fun definitions => Keyed.Ascending definitions ∧
      ∀ entry ∈ definitions, ∃ edge ∈ db.usesType.outgoing resource, ∃ d,
        db.typeDefinitions.get edge.id = .ok d ∧ (d.entity.name, d.entity) = entry) found _
      ⟨List.Pairwise.nil, fun _ hentry => absurd hentry List.not_mem_nil⟩
      fun definitions hdefinitions use huse => ?_
    rw [takeFirst]
    split
    · exact hdefinitions
    · refine ⟨Keyed.ascending_insert hdefinitions.1 _ _, fun entry hentry => ?_⟩
      rcases Keyed.mem_insert hentry with rfl | hentry
      · obtain ⟨edge, hedge, hget⟩ := exists_edge_of_dereference hfound use huse
        exact ⟨edge, hedge, use.1, hget, rfl⟩
      · exact hdefinitions.2 entry hentry

/-- They are definitions of the database. -/
theorem mem_all_of_mem_usedDefinitions {db : Database} {resource : Identity}
    {definitions : Keyed TypeDefinition} (h : usedDefinitions db resource = .ok definitions)
    {entry : String × TypeDefinition} (hentry : entry ∈ definitions) :
    ∃ d ∈ db.typeDefinitions.all, d.entity = entry.2 := by
  obtain ⟨_, _, d, hget, rfl⟩ := (ascending_usedDefinitions h).2 entry hentry
  exact ⟨d, Collection.mem_all_of_get hget, rfl⟩

/-- A type has a text where the definitions it mentions are found. -/
theorem exists_text {db : Database} (type : PropertyType)
    (htype : ∀ id ∈ type.references, db.typeDefinitions.contains id = true) :
    ∃ text, db.render type = .ok text := by
  refine PropertyType.render_ok type fun id hid => ?_
  obtain ⟨d, hd⟩ := get_of_contains (htype id hid)
  exact ⟨d.entity.name, by rw [Database.typeName, hd]; rfl⟩

section Resolving

variable {db : Database} (h : db.Resolves)

include h

/-- The definitions that a resource uses are found. -/
theorem contains_of_mem_outgoing {resource : Identity} {edge : Edge Use}
    (hedge : edge ∈ db.usesType.outgoing resource) :
    db.typeDefinitions.contains edge.id = true := by
  have hentry := Adjacency.mem_of_get_ne_nil (List.ne_nil_of_mem hedge)
  exact (h.usesType.1 _ hentry).2 edge hedge

theorem usedDefinitions_ok (resource : Identity) :
    ∃ definitions, usedDefinitions db resource = .ok definitions := by
  have hcontains : ∀ edge ∈ db.usesType.outgoing resource,
      db.typeDefinitions.contains edge.id = true := fun edge hedge =>
    contains_of_mem_outgoing h hedge
  obtain ⟨found, hfound⟩ := dereference_ok hcontains
  have htypes : db.typesOf resource = .ok found := hfound
  exact ⟨found.foldl takeFirst [], by rw [usedDefinitions_eq, htypes]; rfl⟩

omit h in
theorem properties_self {properties : PropertyMap} (hproperties : Keyed.Ascending properties)
    (hmentions : ∀ id ∈ PropertyMap.references properties,
      db.typeDefinitions.contains id = true) :
    Comparison.properties db db properties properties = .ok unchanged := by
  refine keyed_self hproperties fun entry hentry => ?_
  obtain ⟨text, htext⟩ := exists_text entry.2.type fun id hid =>
    hmentions id (List.mem_flatMap.2
      ⟨entry.2, List.mem_map_of_mem hentry, List.mem_append_left _ hid⟩)
  rw [propertyFields_eq, htext]
  change Except.ok (fieldChanges? _ (fields _ _)) = _
  rw [fields_self]
  rfl

variable (harranged : Arranged db.resources.all db.typeDefinitions.all)

include harranged

theorem definitions_self (resource : Identity) :
    definitions db db resource resource = .ok unchanged := by
  obtain ⟨found, hfound⟩ := usedDefinitions_ok h resource
  rw [definitions, hfound]
  refine keyed_self (ascending_usedDefinitions hfound).1 fun entry hentry => ?_
  obtain ⟨d, hd, hentity⟩ := mem_all_of_mem_usedDefinitions hfound hentry
  have hproperties : Comparison.properties db db entry.2.properties entry.2.properties =
      .ok unchanged := by
    rw [← hentity]
    exact properties_self (harranged.definitions d hd) (h.definitions d hd)
  rw [hproperties, fields_self]
  rfl

theorem resource?_self (name : String) {r : Record Resource} (hr : r ∈ db.resources.all) :
    resource? db db name r r = .ok none := by
  obtain ⟨hproperties, hattributes⟩ := harranged.resources r hr
  have hmentions := h.resources r hr
  have hsame : Comparison.properties db db r.entity.properties r.entity.properties =
      .ok unchanged :=
    properties_self hproperties fun id hid => hmentions id (List.mem_append_left _ hid)
  have hsame' : Comparison.properties db db r.entity.attributes r.entity.attributes =
      .ok unchanged :=
    properties_self hattributes fun id hid => hmentions id (List.mem_append_right _ hid)
  rw [resource?, hsame, hsame', definitions_self h harranged r.id]
  change Except.ok (if _ then _ else _) = _
  rw [fields_self]
  rfl

/-- Nothing is different between a database and itself. -/
theorem databases_self : databases db db = .ok ⟨unchanged, unchanged⟩ := by
  have hservices : keyed (fun name r s => .ok (service? name r s))
      (byName db.services Service.name) (byName db.services Service.name) = .ok unchanged := by
    refine keyed_self (Keyed.ascending_ofList _) fun entry _ => ?_
    rw [service?, fields_self]
    rfl
  have hresources : keyed (resource? db db) (byName db.resources Resource.typeName)
      (byName db.resources Resource.typeName) = .ok unchanged :=
    keyed_self (Keyed.ascending_ofList _) fun entry hentry =>
      resource?_self h harranged entry.1 (mem_all_of_mem_byName hentry)
  rw [databases, hservices, hresources]
  rfl

end Resolving

end Comparison

end ResourceCatalog
