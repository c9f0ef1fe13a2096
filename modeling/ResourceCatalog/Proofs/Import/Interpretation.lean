import Mathlib
import ResourceCatalog.Proofs.Catalog.Names
import ResourceCatalog.Proofs.Import.Generations

/-!
# What an import makes of a database

An import of a document finds or makes its resource, takes back the uses of the resource, types the
document, lets the new properties remember the types of the old ones, and prunes what is not
reached any more. None of these steps fails, and `Interpreted` says what they leave: the resource is
the one that typing and its history make of it, the definitions are those that typing has added
together with the old ones, and of these only what was used before and is not reached is gone. A
database that was consistent is so again.
-/

namespace ResourceCatalog

namespace Typing

variable {base : Database} {first : Supply} {state : Builder}

/-- The properties that a document declares, and its attributes. -/
def documentTypes (subject : Subject) (names : List String) :
    Typing (PropertyMap × PropertyMap) := do
  let properties ← Typing.properties subject "" subject.document
    (names.filter fun name => !name.toList.contains '.')
  return (properties, ← attributesOf subject names)

theorem keeps_documentTypes (known : List Identity) (subject : Subject) (names : List String) :
    Keeps base first subject.resource NoError known (documentTypes subject names)
      (fun result found => PropertiesWithin result.1 found ∧ PropertiesWithin result.2 found) := by
  refine (keeps_declaredProperties (fun path hint resolved known =>
    keeps_typeWithin subject _ path hint resolved known) known _ _ _).bind
      fun properties found _ hproperties => ?_
  refine (keeps_attributesOf found subject names).bind fun attributes found' hsub hattributes => ?_
  exact Keeps.pure fun found'' hsub' =>
    ⟨hproperties.mono (List.Subset.trans hsub hsub'), hattributes.mono hsub'⟩

theorem ends_typeDocument_iff {subject : Subject} {names : List String}
    {ok : PropertyMap × PropertyMap × List TypingFailure → Builder → Prop}
    {err : BuildError → Builder → Prop} :
    Ends (Building.typeDocument subject names) state ok err ↔
      Ends (documentTypes subject names) ⟨state.database, state.supply, [], [], []⟩
        (fun result typed => ok (result.1, result.2, typed.failures.reverse)
          { state with database := typed.database, supply := typed.supply })
        fun e typed => err (.typing e)
          { state with database := typed.database, supply := typed.supply } := by
  rw [Building.typeDocument, ends_bind, ends_get, documentTypes]
  dsimp only
  conv_rhs => rw [Ends]
  generalize StateT.run (ExceptT.run _) _ = outcome
  obtain ⟨result, typed⟩ := outcome
  cases result <;> rfl

theorem ends_typeDocument (subject : Subject) (names : List String)
    (h : Progress base first subject.resource ⟨state.database, state.supply, [], [], []⟩) :
    Ends (Building.typeDocument subject names) state
      (fun result left => ∃ typed : TypingState,
        (documentTypes subject names).run.run ⟨state.database, state.supply, [], [], []⟩ =
          (.ok (result.1, result.2.1), typed) ∧
        left = { state with database := typed.database, supply := typed.supply } ∧
        result.2.2 = typed.failures.reverse ∧ Progress base first subject.resource typed ∧
        PropertiesWithin result.1 typed.found ∧ PropertiesWithin result.2.1 typed.found)
      (fun _ _ => False) := by
  have htyped := keeps_documentTypes [] subject names _ h (List.nil_subset _)
  rw [ends_typeDocument_iff]
  rw [Ends] at htyped ⊢
  generalize StateT.run (ExceptT.run _) _ = outcome at htyped ⊢
  obtain ⟨result, typed⟩ := outcome
  cases result with
  | ok result => exact ⟨typed, rfl, rfl, rfl, htyped.1, htyped.2.2⟩
  | error e => exact htyped.2.2.elim

end Typing

namespace Building

theorem ends_ofGraph_ok {α : Type} {a : α} {state : Builder} {ok : α → Builder → Prop}
    {err : BuildError → Builder → Prop} :
    Ends (ofGraph (.ok a)) state ok err ↔ ok a state := Iff.rfl

/-! ### The resource and its service -/

/-- There is a resource of the name, and it is linked to its service if it has one. -/
structure Started (db : Database) (typeName : String) (r : Record Resource) : Prop where
  resource : r ∈ db.resources.all
  name : r.entity.typeName = typeName
  service : ∀ service, Service.ofTypeName? typeName = some service →
    ∃ s ∈ db.services.all, s.entity.name = service.name ∧ ⟨r.id, ()⟩ ∈ db.hasResource.outgoing s.id

/-- A resource and its service have been found or made and linked. Nothing else is different. -/
structure Opened (before : Database) (typeName : String) (r : Record Resource)
    (after : Database) : Prop where
  resources : after.resources.all = before.resources.all ∨
    after.resources.all = before.resources.all ++ [⟨r.id, Resource.ofTypeName typeName⟩]
  services : after.services.all = before.services.all ∨
    ∃ id service, Service.ofTypeName? typeName = some service ∧
      after.services.all = before.services.all ++ [⟨id, service⟩]
  links : ∀ start target, after.hasResource.Joins start target ↔
    before.hasResource.Joins start target ∨ target = r.id ∧
      ∃ service, Service.ofTypeName? typeName = some service ∧
        ∃ s ∈ after.services.all, s.entity.name = service.name ∧ s.id = start
  kept : after = { before with
    resources := after.resources
    services := after.services
    hasResource := after.hasResource }

theorem ends_startResource {state : Builder} (h : state.database.Consistent state.supply)
    (typeName : String) :
    Ends (startResource typeName) state
      (fun id left => ∃ r, id = r.id ∧
        (left = { state with database := left.database, supply := left.supply } ∧
          Opened state.database typeName r left.database) ∧
        Started left.database typeName r ∧ left.database.Consistent left.supply)
      (fun _ _ => False) := by
  obtain ⟨r, resources, supply, hresource, hdb, hr, hname, hall⟩ := h.upsertResource_ok typeName
  rw [startResource, ends_bind, ends_get, ends_bind, hresource, ends_ofGraph_ok]
  dsimp only
  rw [ends_bind, ends_set]
  split
  · next hservice =>
    have hnone : ∀ service, Service.ofTypeName? typeName ≠ some service :=
      fun _ hsome => nomatch hservice.symm.trans hsome
    refine ⟨r, rfl, ⟨rfl, hall, Or.inl rfl, fun start target => ?_, rfl⟩,
      ⟨hr, hname, fun _ hsome => absurd hsome (hnone _)⟩, hdb⟩
    exact (or_iff_left fun ⟨_, service, hsome, _⟩ => hnone service hsome).symm
  · next service hservice =>
    obtain ⟨s, services, supply', hservices, hdb', hs, hsname, hall'⟩ :=
      hdb.upsertService_ok service
    rw [ends_bind, hservices, ends_ofGraph_ok]
    dsimp only
    rw [ends_bind, ends_set]
    refine ⟨r, rfl, ⟨rfl, hall, ?_, fun start target => ?_, rfl⟩,
      ⟨hr, hname, fun other hother => ?_⟩, ?_⟩
    · exact hall'.imp_right fun happend => ⟨s.id, service, hservice, happend⟩
    · refine (Edges.joins_add h.hasResource.coherent).trans (or_congr_right ?_)
      constructor
      · rintro ⟨rfl, rfl⟩
        exact ⟨rfl, service, hservice, s, hs, hsname, rfl⟩
      · rintro ⟨rfl, other, hother, s', hs', hsname', rfl⟩
        obtain rfl := Option.some.inj (hservice.symm.trans hother)
        obtain rfl := List.inj_on_of_nodup_map hdb'.services.unique hs' hs
          (hsname'.trans hsname.symm)
        exact ⟨rfl, rfl⟩
    · obtain rfl := Option.some.inj (hservice.symm.trans hother)
      exact ⟨s, hs, hsname,
        (Edges.mem_outgoing_add h.hasResource.coherent.forward).2 (Or.inr ⟨rfl, rfl⟩)⟩
    · exact { hdb' with
        hasResource := hdb'.hasResource.add (Collection.mem_ids.2 ⟨s, hs, rfl⟩)
          (Collection.mem_ids.2 ⟨r, hr, rfl⟩) () }

/-- Where the resource is there and linked to its service, nothing is left to do. -/
theorem ends_startResource_of_started {state : Builder}
    (h : state.database.Consistent state.supply) {typeName : String} {r : Record Resource}
    (hr : Started state.database typeName r) :
    Ends (startResource typeName) state
      (fun id left => ∃ r', id = r'.id ∧ (r' = r ∧ left = state) ∧
        Started left.database typeName r' ∧ left.database.Consistent left.supply)
      (fun _ _ => False) := by
  obtain ⟨hmem, rfl, hservice⟩ := hr
  rw [startResource, ends_bind, ends_get, ends_bind, h.upsertResource_of_mem hmem, ends_ofGraph_ok]
  dsimp only
  rw [ends_bind, ends_set]
  split
  · exact ⟨r, rfl, ⟨rfl, rfl⟩, ⟨hmem, rfl, hservice⟩, h⟩
  · next service hsome =>
    obtain ⟨s, hs, hname, hlink⟩ := hservice service hsome
    rw [ends_bind, h.upsertService_of_mem hs hname, ends_ofGraph_ok]
    dsimp only
    rw [ends_bind, ends_set, Edges.add_of_mem hlink]
    exact ⟨r, rfl, ⟨rfl, rfl⟩, ⟨hmem, rfl, hservice⟩, h⟩

/-! ### Types from before -/

/-- A property with the history of the old property of its name, if there is one. -/
def remember (db : Database) (old : PropertyMap) (name : String) (p : Property) : Property :=
  match Keyed.get? name old with
  | some before =>
    match before.updateType db p.type with
    | .ok (_, merged) => { p with previousTypes := merged.previousTypes }
    | .error _ => p
  | none => p

def remembering (db : Database) (old properties : PropertyMap) : PropertyMap :=
  properties.map fun entry => (entry.1, remember db old entry.1 entry.2)

theorem keys_remembering (db : Database) (old properties : PropertyMap) :
    Keyed.keys (remembering db old properties) = Keyed.keys properties := by
  rw [Keyed.keys, remembering, List.map_map]
  rfl

theorem updateType_ok {db : Database} (hdb : db.typeDefinitions.Coherent) {p : Property}
    (hp : p.type.references ⊆ db.typeDefinitions.ids) {type : PropertyType}
    (htype : type.references ⊆ db.typeDefinitions.ids) :
    ∃ changed merged, p.updateType db type = .ok (changed, merged) := by
  obtain ⟨before, hbefore⟩ := Database.render_ok hdb hp
  obtain ⟨after, hafter⟩ := Database.render_ok hdb htype
  rw [Property.updateType, hbefore, hafter]
  by_cases hsame : before = after
  · exact ⟨_, _, if_pos hsame⟩
  · exact ⟨_, _, if_neg hsame⟩

/-- A property of which the type has the same text is as before. -/
theorem updateType_of_render_eq {db : Database} {p : Property} {type : PropertyType}
    {text : String} (hp : db.render p.type = .ok text) (htype : db.render type = .ok text) :
    p.updateType db type = .ok (false, p) := by
  rw [Property.updateType, hp, htype]
  exact if_pos rfl

theorem mem_previousTypes_of_updateType {db : Database} {p merged : Property}
    {type : PropertyType} {changed : Bool} (h : p.updateType db type = .ok (changed, merged)) :
    ∀ before ∈ merged.previousTypes, before = p.type ∨ before ∈ p.previousTypes := by
  rw [Property.updateType] at h
  cases hbefore : db.render p.type with
  | error e =>
    rw [hbefore] at h
    cases h
  | ok before =>
    cases hafter : db.render type with
    | error e =>
      rw [hbefore, hafter] at h
      cases h
    | ok after =>
      rw [hbefore, hafter] at h
      change (if before = after then _ else _) = _ at h
      split at h
      · obtain ⟨-, rfl⟩ := Prod.mk.inj (Except.ok.inj h)
        exact fun _ hold => Or.inr hold
      · obtain ⟨-, rfl⟩ := Prod.mk.inj (Except.ok.inj h)
        exact fun _ hold => (List.mem_append.1 hold).symm.imp_left List.mem_singleton.1

/-- A property has kept its type, and it remembers only types that an old property had. -/
def KeepsTypes (old : PropertyMap) (typed kept : Property) : Prop :=
  kept.type = typed.type ∧ (kept.previousTypes = typed.previousTypes ∨
    ∃ before ∈ Keyed.values old, ∀ type ∈ kept.previousTypes,
      type = before.type ∨ type ∈ before.previousTypes)

theorem keepsTypes_remember (db : Database) (old : PropertyMap) (name : String) (p : Property) :
    KeepsTypes old p (remember db old name p) := by
  rw [remember]
  split
  · next before hbefore =>
    split
    · next changed merged hmerged =>
      exact ⟨rfl, Or.inr ⟨before, List.mem_map_of_mem (Keyed.mem_of_get? hbefore),
        fun type htype => mem_previousTypes_of_updateType hmerged type htype⟩⟩
    · exact ⟨rfl, Or.inl rfl⟩
  · exact ⟨rfl, Or.inl rfl⟩

theorem ends_keepHistory {db : Database} (hdb : db.typeDefinitions.Coherent) {old : PropertyMap}
    (hold : ∀ p ∈ Keyed.values old, p.type.references ⊆ db.typeDefinitions.ids)
    {properties : PropertyMap}
    (hnew : ∀ entry ∈ properties, entry.2.type.references ⊆ db.typeDefinitions.ids)
    (state : Builder) :
    Ends (keepHistory db old properties) state
      (fun kept left => left = state ∧ kept = remembering db old properties)
      (fun _ _ => False) := by
  induction properties with
  | nil => exact ⟨rfl, rfl⟩
  | cons entry rest ih =>
    obtain ⟨name, property⟩ := entry
    have hjoin : Ends
        (do return (name, remember db old name property) :: (← keepHistory db old rest)) state
        (fun kept left => left = state ∧
          kept = remembering db old ((name, property) :: rest)) (fun _ _ => False) := by
      refine ends_bind.2 ((ih fun e he => hnew e (List.mem_cons_of_mem _ he)).mono ?_
        fun _ _ h => h)
      rintro others left ⟨rfl, rfl⟩
      exact ⟨rfl, rfl⟩
    rw [keepHistory]
    rw [remember] at hjoin
    split
    · next before hbefore =>
      obtain ⟨changed, merged, hok⟩ := updateType_ok hdb
        (hold before (List.mem_map_of_mem (Keyed.mem_of_get? hbefore)))
        (hnew (name, property) List.mem_cons_self)
      rw [ends_bind, hok, ends_ofGraph_ok]
      simp only [hbefore, hok] at hjoin
      exact hjoin
    · next hnone =>
      simp only [hnone] at hjoin
      exact hjoin

/-! ### The resource anew -/

def deprecating (p : Property) : Property := { p with deprecated := true }

def replacing (p : Property) : Property := { p with causesReplacement := true }

/-- The properties with the marks that a document gives them. -/
def marked (document : Json) (properties : PropertyMap) : PropertyMap :=
  mark deprecating (listedPaths document "/deprecatedProperties")
    (mark replacing (listedPaths document "/createOnlyProperties") properties)

theorem mem_values_mark {change : Property → Property} {names : List String}
    {properties : PropertyMap} {p : Property}
    (hp : p ∈ Keyed.values (mark change names properties))
    (hchange : ∀ p, (change p).type = p.type ∧ (change p).previousTypes = p.previousTypes) :
    ∃ before ∈ Keyed.values properties, p.type = before.type ∧
      p.previousTypes = before.previousTypes := by
  rw [Keyed.values, mark, List.map_map] at hp
  obtain ⟨⟨name, q⟩, hq, rfl⟩ := List.mem_map.1 hp
  refine ⟨q, List.mem_map_of_mem hq, ?_⟩
  dsimp only [Function.comp_apply]
  split
  · exact hchange q
  · exact ⟨rfl, rfl⟩

theorem keys_mark (change : Property → Property) (names : List String) (properties : PropertyMap) :
    Keyed.keys (mark change names properties) = Keyed.keys properties := by
  rw [Keyed.keys, mark, List.map_map]
  rfl

theorem mem_values_marked {document : Json} {properties : PropertyMap} {p : Property}
    (hp : p ∈ Keyed.values (marked document properties)) :
    ∃ before ∈ Keyed.values properties, p.type = before.type ∧
      p.previousTypes = before.previousTypes := by
  obtain ⟨deprecated, hdeprecated, htype, hprevious⟩ := mem_values_mark hp fun _ => ⟨rfl, rfl⟩
  obtain ⟨created, hcreated, htype', hprevious'⟩ := mem_values_mark hdeprecated fun _ => ⟨rfl, rfl⟩
  exact ⟨created, hcreated, htype.trans htype', hprevious.trans hprevious'⟩

theorem keys_marked (document : Json) (properties : PropertyMap) :
    Keyed.keys (marked document properties) = Keyed.keys properties :=
  (keys_mark _ _ _).trans (keys_mark _ _ _)

/-- What a document makes of a resource whose properties and attributes have been typed. -/
def renewed (typeName : String) (legacy : Option LegacySpec) (document : Json) (db : Database)
    (old : Resource) (properties attributes : PropertyMap) : Resource :=
  let properties := marked document (remembering db old.properties properties)
  { old with
    documentation := documentation? document typeName legacy
    properties := properties
    attributes := remembering db old.attributes attributes
    primaryIdentifier := listedPaths document "/primaryIdentifier"
    tagProperty := tagProperty? document properties }

section Renewed

variable {typeName : String} {legacy : Option LegacySpec} {document : Json} {db : Database}
  {old : Resource} {properties attributes : PropertyMap} {found : List Identity}
  (hproperties : Typing.PropertiesWithin properties found)
  (hattributes : Typing.PropertiesWithin attributes found)

include hproperties hattributes

theorem arranged_renewed :
    (renewed typeName legacy document db old properties attributes).Arranged :=
  ⟨Keyed.ascending_of_keys_eq ((keys_marked _ _).trans (keys_remembering _ _ _))
      hproperties.ascending,
    Keyed.ascending_of_keys_eq (keys_remembering _ _ _) hattributes.ascending⟩

/-- The properties of a document, typed and with their history, renew those of a resource. -/
theorem renews_renewed :
    old.Renews (renewed typeName legacy document db old properties attributes) found := by
  have hkept : ∀ {before typed : PropertyMap}, Typing.PropertiesWithin typed found →
      ∀ p ∈ Keyed.values (remembering db before typed), p.type.references ⊆ found ∧
        ∀ type ∈ p.previousTypes,
          ∃ q ∈ Keyed.values before, type = q.type ∨ type ∈ q.previousTypes := by
    intro before typed htyped p hp
    rw [Keyed.values, remembering, List.map_map] at hp
    obtain ⟨entry, hentry, rfl⟩ := List.mem_map.1 hp
    obtain ⟨hwithin, hnone⟩ := htyped.within entry hentry
    obtain ⟨htype, hprevious⟩ := keepsTypes_remember db before entry.1 entry.2
    rw [Function.comp_apply]
    refine ⟨htype ▸ hwithin, fun type hmem => ?_⟩
    rcases hprevious with hprevious | ⟨q, hq, hprevious⟩
    · rw [hprevious, hnone] at hmem
      exact absurd hmem List.not_mem_nil
    · exact ⟨q, hq, hprevious type hmem⟩
  intro p hslot
  rcases List.mem_append.1 hslot with hslot | hslot
  · obtain ⟨q, hq, htype, hprevious⟩ := mem_values_marked hslot
    obtain ⟨hwithin, hold⟩ := hkept hproperties q hq
    rw [htype, hprevious]
    refine ⟨hwithin, fun type hmem => ?_⟩
    obtain ⟨before, hbefore, hsame⟩ := hold type hmem
    exact ⟨before, List.mem_append_left _ hbefore, hsame⟩
  · obtain ⟨hwithin, hold⟩ := hkept hattributes p hslot
    refine ⟨hwithin, fun type hmem => ?_⟩
    obtain ⟨before, hbefore, hsame⟩ := hold type hmem
    exact ⟨before, List.mem_append_right _ hbefore, hsame⟩

end Renewed

/-! ### An import -/

theorem ends_ofGraph_update {α β : Type} [Entity α] {c : Collection α} (hc : c.Coherent)
    {r : Record α} (hr : r ∈ c.all) {change : α → α} {rest : Collection α → Building β}
    {state : Builder} {ok : β → Builder → Prop} {err : BuildError → Builder → Prop}
    (h : ∀ c' : Collection α, c'.Coherent → (c'.all = c.all.map fun other =>
      if other.id = r.id then ⟨r.id, change r.entity⟩ else other) →
      Ends (rest c') state ok err) :
    Ends (ofGraph (c.update r.id change) >>= rest) state ok err := by
  obtain ⟨c', hok, hc', hall⟩ := Collection.update_of_mem hc hr change
  rw [ends_bind, hok, ends_ofGraph_ok]
  exact h c' hc' hall

/-- The definitions that were used before are pruned if there are any. -/
theorem pruned_ok {db : Database} {supply : Supply} (h : db.Consistent supply)
    {r : Record Resource} (hr : r ∈ db.resources.all) {replaced : List (Edge Use)}
    (hprunable : db.Prunable r.id (replaced.map Edge.id)) :
    ∃ live c, (if replaced.isEmpty then (.ok (), db)
        else (prune r.id (replaced.map Edge.id)).run.run db :
          Except GraphError Unit × Database) = (.ok (), { db with typeDefinitions := c }) ∧
      db.Live r live ∧ ({ db with typeDefinitions := c } : Database).Consistent supply ∧
      c.all = db.typeDefinitions.all.filter fun d => d.id ∈ replaced.map Edge.id → d.id ∈ live := by
  obtain ⟨live, hreach, hlive⟩ := h.live_ok hr
  split
  · next hempty =>
    refine ⟨live, db.typeDefinitions, rfl, hlive, h, (List.filter_eq_self.2 fun d _ => ?_).symm⟩
    rw [List.isEmpty_iff.1 hempty, decide_eq_true_eq]
    exact fun hid => absurd hid List.not_mem_nil
  · obtain ⟨_, left, hrun, hleft, hcoherent, hall⟩ :=
      (ends_prune h hr hreach hprunable.present).exists_run_ok
    exact ⟨live, left.typeDefinitions, hrun.trans (congrArg (Prod.mk _) hleft), hlive,
      h.pruned hr hlive hprunable hcoherent hall, hall⟩

/-- What typing finds in a document, and the definitions that the resource reaches then. -/
structure Findings where
  properties : PropertyMap
  attributes : PropertyMap
  typed : TypingState
  live : List Identity

/-- The resource that the findings make of an old one. -/
def Findings.resource (findings : Findings) (typeName : String) (legacy : Option LegacySpec)
    (document : Json) (old : Resource) : Resource :=
  renewed typeName legacy document findings.typed.database old findings.properties
    findings.attributes

/-- What an import leaves of a builder whose resource has been found or made. -/
structure Interpreted (typeName : String) (legacy : Option LegacySpec) (document : Json)
    (started : Builder) (r : Record Resource) (findings : Findings) (left : Builder) : Prop where
  typing : (Typing.documentTypes ⟨r.id, document⟩
      (attributeNames document started.attributePointer
        ((legacy.map fun spec => spec.attributeNames typeName).getD []))).run.run
      ⟨started.database.withoutUses r.id, started.supply, [], [], []⟩ =
    (.ok (findings.properties, findings.attributes), findings.typed)
  progress : Typing.Progress (started.database.withoutUses r.id) started.supply r.id findings.typed
  properties : Typing.PropertiesWithin findings.properties findings.typed.found
  attributes : Typing.PropertiesWithin findings.attributes findings.typed.found
  resources : left.database.resources.all = started.database.resources.all.map fun other =>
    if other.id = r.id then ⟨r.id, findings.resource typeName legacy document r.entity⟩ else other
  live : ({ left.database with
      typeDefinitions := findings.typed.database.typeDefinitions } : Database).Live
    ⟨r.id, findings.resource typeName legacy document r.entity⟩ findings.live
  definitions : left.database.typeDefinitions.all =
    findings.typed.database.typeDefinitions.all.filter fun d =>
      d.id ∈ (started.database.usesType.outgoing r.id).map Edge.id → d.id ∈ findings.live
  kept : left.database = { started.database with
    resources := left.database.resources
    typeDefinitions := left.database.typeDefinitions
    usesType := findings.typed.database.usesType }
  supply : left.supply = findings.typed.supply
  rules : left.rules = started.rules
  attributePointer : left.attributePointer = started.attributePointer
  consistent : left.database.Consistent left.supply

/-- The report with the properties that have no type. -/
def reportingFailures (typeName : String) (failures : List TypingFailure) (report : BuildReport) :
    BuildReport :=
  failures.foldl (fun report failure => report.addFailure .interpreting typeName
    (some failure.path) failure.error.message) report

/-- An import gives what `Interpreted` says, and it reports the failures of typing. -/
theorem ends_interpret_reporting {state : Builder} {typeName : String} {legacy : Option LegacySpec}
    {document : Json} {starts : Record Resource → Builder → Prop}
    (hstart : Ends (startResource typeName) state
      (fun id left => ∃ r, id = r.id ∧ starts r left ∧ Started left.database typeName r ∧
        left.database.Consistent left.supply) (fun _ _ => False)) :
    Ends (interpret typeName legacy document) state
      (fun id left => ∃ started r findings, id = r.id ∧ starts r started ∧
        Started started.database typeName r ∧ started.database.Consistent started.supply ∧
        Interpreted typeName legacy document started r findings left ∧
        left.report = reportingFailures typeName findings.typed.failures.reverse started.report)
      (fun _ _ => False) := by
  rw [interpret, ends_bind]
  refine hstart.mono ?_ fun _ _ h => h
  rintro _ started ⟨r, rfl, hstarts, hstarted, hdb⟩
  have hr := hstarted.resource
  rw [ends_bind, ends_get, ends_bind, ends_get]
  dsimp only
  rw [ends_bind, ends_modify, ends_bind]
  refine (Typing.ends_typeDocument _ _ (Typing.Progress.initial hdb r.id)).mono ?_ fun _ _ h => h
  rintro ⟨properties, attributes, failures⟩ left
    ⟨typed, hrun, rfl, hfailures, hp, hproperties, hattributes⟩
  have hdatabase : typed.database = { started.database with
      typeDefinitions := typed.database.typeDefinitions
      usesType := typed.database.usesType } := hp.kept
  have hresources : typed.database.resources = started.database.resources := by rw [hdatabase]
  have hcoherent : typed.database.resources.Coherent := hresources ▸ hdb.resources.coherent
  have hr' : r ∈ typed.database.resources.all := hresources ▸ hr
  have hold : ∀ p ∈ r.entity.slots, p.type.references ⊆ typed.database.typeDefinitions.ids := by
    intro p hslot id hid
    exact hp.ids_subset (hdb.mem_ids_of_mentioned hr (Or.inl
      (Resource.mem_currentReferences.2 ⟨p, hslot, hid⟩)))
  rw [ends_bind, ends_get, ends_bind]
  dsimp only
  rw [Collection.get_of_mem hcoherent.distinct hr', ends_ofGraph_ok, ends_bind]
  refine (ends_keepHistory hp.definitions.coherent
    (fun p hslot => hold p (List.mem_append_left _ hslot))
    (fun entry hentry => List.Subset.trans (hproperties.within entry hentry).1 hp.present) _).mono
      ?_ fun _ _ h => h
  rintro _ _ ⟨rfl, rfl⟩
  rw [ends_bind]
  refine (ends_keepHistory hp.definitions.coherent
    (fun p hslot => hold p (List.mem_append_right _ hslot))
    (fun entry hentry => List.Subset.trans (hattributes.within entry hentry).1 hp.present) _).mono
      ?_ fun _ _ h => h
  rintro _ _ ⟨rfl, rfl⟩
  refine ends_ofGraph_update hcoherent hr' fun resources hc hall => ?_
  rw [hresources] at hall
  have hconsistent := hp.consistent hdb hr hc hall rfl
    (renews_renewed hproperties hattributes) (arranged_renewed hproperties hattributes)
  have hrenewed : ⟨r.id, renewed typeName legacy document typed.database r.entity properties
      attributes⟩ ∈ resources.all := by
    rw [hall]
    exact List.mem_map.2 ⟨r, hr, if_pos rfl⟩
  obtain ⟨live, c, hpruned, hlive, hconsistent', hdefinitions⟩ :=
    pruned_ok hconsistent hrenewed (hp.prunable hdb hall)
  rw [ends_bind, ends_modify, hdatabase]
  dsimp only
  rw [hpruned, ends_bind, ends_ofGraph_ok, ends_bind, ends_modify]
  exact ⟨started, r, ⟨properties, attributes, typed, live⟩, rfl, hstarts, hstarted, hdb, {
    typing := hrun
    progress := hp
    properties := hproperties
    attributes := hattributes
    resources := hall
    live := hlive
    definitions := hdefinitions
    kept := rfl
    supply := rfl
    rules := rfl
    attributePointer := rfl
    consistent := hconsistent' }, congrArg (reportingFailures typeName · started.report) hfailures⟩

theorem ends_interpret {state : Builder} {typeName : String} {legacy : Option LegacySpec}
    {document : Json} {starts : Record Resource → Builder → Prop}
    (hstart : Ends (startResource typeName) state
      (fun id left => ∃ r, id = r.id ∧ starts r left ∧ Started left.database typeName r ∧
        left.database.Consistent left.supply) (fun _ _ => False)) :
    Ends (interpret typeName legacy document) state
      (fun id left => ∃ started r findings, id = r.id ∧ starts r started ∧
        Started started.database typeName r ∧ started.database.Consistent started.supply ∧
        Interpreted typeName legacy document started r findings left) (fun _ _ => False) := by
  refine (ends_interpret_reporting hstart).mono ?_ fun _ _ h => h
  rintro id left ⟨started, r, findings, hid, hstarts, hstarted, hdb, hleft, -⟩
  exact ⟨started, r, findings, hid, hstarts, hstarted, hdb, hleft⟩

/-! ### Names -/

theorem Opened.typeName_eq {before after : Database} {typeName : String} {r : Record Resource}
    (h : Opened before typeName r after) : after.typeName = before.typeName :=
  Database.typeName_congr (by rw [h.kept])

section Names

variable {started left : Builder} {typeName : String} {legacy : Option LegacySpec}
  {document : Json} {r : Record Resource} {findings : Findings}
  (h : Interpreted typeName legacy document started r findings left)

include h

/-- Typing keeps the names of the definitions there were. -/
theorem Interpreted.extends_typed (hstarted : started.database.typeDefinitions.Coherent) :
    Naming.Extends started.database.typeName findings.typed.database.typeName :=
  Database.extends_typeName hstarted
    h.progress.definitions.coherent fun d hd => ⟨d, h.progress.old d hd, rfl, rfl⟩

/-- Pruning keeps the names of the definitions that are left. -/
theorem Interpreted.keepsNames_typed : findings.typed.database.KeepsNames left.database := by
  intro id hid name hname
  obtain ⟨d, hd, rfl⟩ := Collection.mem_ids.1 hid
  have htyped := h.progress.definitions.coherent
  refine (Database.typeName_eq_ok_iff h.consistent.typeDefinitions.coherent).2 ⟨d, hd, rfl, ?_⟩
  rw [h.definitions] at hd
  obtain ⟨d', hd', hsame, rfl⟩ := (Database.typeName_eq_ok_iff htyped).1 hname
  rw [Collection.eq_of_id_eq htyped.distinct hd' (List.mem_of_mem_filter hd) hsame]

end Names

end Building

end ResourceCatalog
