import Mathlib
import ResourceCatalog.Proofs.Import.Repetition

/-!
# A document that is imported twice

An import that follows on one of the same document changes nothing that can be told from outside.
`Database.Preserved` says what can be told: comparisons, counts, the texts of former types, and
everything about other resources. The definitions of the resource are made again under other
identities, and those alone are new.
-/

namespace ResourceCatalog

namespace Database

/-- The same names, each with former types of the same texts in the same order. -/
def SameHistory (a b : Database) (before after : PropertyMap) : Prop :=
  List.Forall₂ (fun p q => q.1 = p.1 ∧ ∃ texts, p.2.previousTypes.mapM a.render = .ok texts ∧
    q.2.previousTypes.mapM b.render = .ok texts) before after

/-- The second database is what the first one was, as far as can be told without the identities of
the definitions that one resource uses. -/
structure Preserved (resource? : Option Identity) (a b : Database) : Prop where
  forth : Comparison.databases a b = .ok ⟨Comparison.unchanged, Comparison.unchanged⟩
  back : Comparison.databases b a = .ok ⟨Comparison.unchanged, Comparison.unchanged⟩
  stats : b.stats = a.stats
  services : b.services.all = a.services.all
  regions : b.regions.all = a.regions.all
  hasResource : b.hasResource = a.hasResource
  regionHasResource : b.regionHasResource = a.regionHasResource
  histories : List.Forall₂ (fun r s : Record Resource => s.id = r.id ∧
      SameHistory a b r.entity.properties s.entity.properties ∧
      SameHistory a b r.entity.attributes s.entity.attributes) a.resources.all b.resources.all
  definitionHistories : List.Forall₂ (fun d e : Record TypeDefinition =>
      e.entity.name = d.entity.name ∧ SameHistory a b d.entity.properties e.entity.properties)
    a.typeDefinitions.all b.typeDefinitions.all
  /-- Other resources have the records that they had. -/
  resources : ∀ r : Record Resource, some r.id ≠ resource? →
    (r ∈ b.resources.all ↔ r ∈ a.resources.all)
  /-- They use the definitions that they used, by way of the same paths. -/
  typesOf : ∀ other, some other ≠ resource? →
    ∃ found, a.typesOf other = .ok found ∧ b.typesOf other = .ok found
  /-- A definition that the resource does not use is left alone, also if nobody uses it. -/
  definitions : ∀ d : Record TypeDefinition, (∀ resource, resource? = some resource →
      ¬ a.usesType.Joins resource d.id ∧ ¬ b.usesType.Joins resource d.id) →
    (d ∈ b.typeDefinitions.all ↔ d ∈ a.typeDefinitions.all)

/-! ### What other identities do not change -/

section Renamed

variable {f g : Identity → Identity} {a b : Database} {supply supply' : Supply}
  (h : a.Renamed f b) (ha : a.Consistent supply) (hb : b.Consistent supply')

include h ha hb

theorem Renamed.texts {types : List PropertyType}
    (htypes : ∀ type ∈ types, type.references ⊆ a.typeDefinitions.ids) :
    ∃ texts, types.mapM a.render = .ok texts ∧
      (types.map (PropertyType.rename f)).mapM b.render = .ok texts := by
  induction types with
  | nil => exact ⟨[], rfl, rfl⟩
  | cons type rest ih =>
    obtain ⟨htype, hrest⟩ := List.forall_mem_cons.1 htypes
    obtain ⟨text, htext, htext'⟩ :=
      Comparison.exists_text_renamed h ha hb.typeDefinitions.coherent.distinct htype
    obtain ⟨texts, htexts, htexts'⟩ := ih hrest
    refine ⟨text :: texts, ?_, ?_⟩
    · rw [List.mapM_cons, htext, htexts]
      rfl
    · rw [List.map_cons, List.mapM_cons, htext', htexts']
      rfl

theorem Renamed.sameHistory {properties : PropertyMap}
    (hmentions : PropertyMap.references properties ⊆ a.typeDefinitions.ids) :
    SameHistory a b properties (properties.rename f) := by
  rw [SameHistory, PropertyMap.rename, Keyed.mapValues, List.forall₂_map_right_iff,
    List.forall₂_same]
  refine fun entry hentry => ⟨rfl, h.texts ha hb fun type htype id hid => hmentions ?_⟩
  exact List.mem_flatMap.2 ⟨entry.2, List.mem_map_of_mem hentry,
    List.mem_append_right _ (List.mem_flatMap.2 ⟨type, htype, hid⟩)⟩

/-- Where only identities differ, it is to be shown that they do so for one resource alone. -/
theorem Renamed.preserved (hg : Function.LeftInverse g f) {resource? : Option Identity}
    (hresources : ∀ r : Record Resource, some r.id ≠ resource? →
      (r ∈ b.resources.all ↔ r ∈ a.resources.all))
    (htypesOf : ∀ other, some other ≠ resource? → b.typesOf other = a.typesOf other)
    (hdefinitions : ∀ d : Record TypeDefinition, (∀ resource, resource? = some resource →
        ¬ a.usesType.Joins resource d.id ∧ ¬ b.usesType.Joins resource d.id) →
      (d ∈ b.typeDefinitions.all ↔ d ∈ a.typeDefinitions.all)) :
    Preserved resource? a b where
  forth := Comparison.databases_renamed h ha hb.typeDefinitions.coherent.distinct
  back := Comparison.databases_renamed (h.symm hg) hb ha.typeDefinitions.coherent.distinct
  stats := h.stats ha.usesType.coherent hb.usesType.coherent
  services := h.services
  regions := h.regions
  hasResource := h.hasResource
  regionHasResource := h.regionHasResource
  histories := by
    rw [h.resources, List.forall₂_map_right_iff, List.forall₂_same]
    intro r hr
    obtain ⟨hproperties, hattributes⟩ := List.append_subset.1 (ha.references_subset hr)
    exact ⟨rfl, h.sameHistory ha hb hproperties, h.sameHistory ha hb hattributes⟩
  definitionHistories := by
    rw [h.typeDefinitions, List.forall₂_map_right_iff, List.forall₂_same]
    exact fun d hd => ⟨rfl, h.sameHistory ha hb fun id hid =>
      (ha.generations.together d hd id hid).1⟩
  resources := hresources
  typesOf other hother := by
    obtain ⟨found, hfound⟩ := Comparison.dereference_ok fun edge hedge =>
      Collection.contains_iff.2 (ha.usesType.ends other edge.id ⟨edge, hedge, rfl⟩).2
    exact ⟨found, hfound, (htypesOf other hother).trans hfound⟩
  definitions := hdefinitions

end Renamed

theorem Consistent.preserved_self {db : Database} {supply : Supply} (h : db.Consistent supply)
    (resource? : Option Identity) : Preserved resource? db db :=
  (Renamed.refl db).preserved h h (g := id) (fun _ => rfl) (fun _ _ => Iff.rfl) (fun _ _ => rfl)
    fun _ _ => Iff.rfl

end Database

namespace Building

open Typing

section Twofold

variable {typeName : String} {legacy : Option LegacySpec} {document : Json}
  {started once twice : Builder} {r : Record Resource} {first again : Findings}
  (h : Twofold typeName legacy document started r first once again twice) {sketch : Sketch}
  (hs : SameSketch (start started r.id) (start once r.id) first again sketch)

include h hs

/-- Other resources use the definitions that they did, and these are what they were. -/
theorem Twofold.typesOf_of_ne {other : Identity} (hother : other ≠ r.id) :
    twice.database.typesOf other = once.database.typesOf other := by
  obtain ⟨honce, htwice⟩ := h.outgoing_of_ne hs hother
  rw [Database.typesOf, Database.typesOf, Edges.follow, Edges.follow, htwice]
  refine Edges.dereference_congr fun edge hedge => ?_
  have hstarted := (h.consistent.usesType.ends other edge.id ⟨edge, honce ▸ hedge, rfl⟩).2
  obtain ⟨d, hd, hid⟩ := Collection.mem_ids.1
    (h.before.consistent.usesType.ends other edge.id ⟨edge, hedge, rfl⟩).2
  -- the definition is one from before the first import, as its identity tells
  have hkept : d ∈ keptDefinitions started r.id first := by
    have hmem := hd
    rw [(h.sketched hs).typeDefinitions, List.mem_append] at hmem
    refine hmem.resolve_right fun hsketched => ?_
    obtain ⟨sketched, -, rfl⟩ := List.mem_map.1 hsketched
    exact hs.before.not_older (hid ▸ hstarted)
  have hd' : d ∈ twice.database.typeDefinitions.all := by
    rw [h.definitions_twice hs]
    exact List.mem_append_left _ hkept
  rw [← hid, Collection.get_of_mem h.before.consistent.typeDefinitions.coherent.distinct hd,
    Collection.get_of_mem h.after.consistent.typeDefinitions.coherent.distinct hd']

omit hs in
theorem Twofold.mem_resources_iff {other : Record Resource} (hother : other.id ≠ r.id) :
    other ∈ twice.database.resources.all ↔ other ∈ once.database.resources.all := by
  rw [h.after.resources, List.mem_map]
  constructor
  · rintro ⟨before, hbefore, rfl⟩
    split at hother
    · exact absurd rfl hother
    · next hne => rwa [if_neg hne]
  · exact fun hmem => ⟨other, hmem, if_neg hother⟩

/-- What the resource does not use was there before the first import. -/
theorem Twofold.mem_definitions_iff {d : Record TypeDefinition}
    (honce : ¬ once.database.usesType.Joins r.id d.id)
    (htwice : ¬ twice.database.usesType.Joins r.id d.id) :
    d ∈ twice.database.typeDefinitions.all ↔ d ∈ once.database.typeDefinitions.all := by
  have hfirst : d ∉ sketch.definitions.map (Record.rename started.supply.place) := by
    intro hd
    obtain ⟨sketched, hsketched, rfl⟩ := List.mem_map.1 hd
    exact honce (List.mem_map.1 ((h.mem_uses_iff hs).2 ⟨sketched, hsketched, rfl⟩))
  have hsecond : d ∉ sketch.definitions.map (Record.rename once.supply.place) := by
    intro hd
    obtain ⟨sketched, hsketched, rfl⟩ := List.mem_map.1 hd
    exact htwice ((h.sketched_again hs).joins_self_iff.2 ⟨sketched, hsketched, rfl⟩)
  rw [h.definitions_twice hs, (h.sketched hs).typeDefinitions, List.mem_append, List.mem_append,
    or_iff_left hsecond, or_iff_left hfirst]

omit hs in
theorem Twofold.preserved : Database.Preserved (some r.id) once.database twice.database := by
  obtain ⟨sketch, hs⟩ := h.exists_sketch
  refine (h.renamed hs).preserved h.before.consistent h.after.consistent
    (Supply.leftInverse_unshift h.next_le) ?_ ?_ ?_
  · exact fun other hother => h.mem_resources_iff fun hsame => hother (congrArg some hsame)
  · exact fun other hother => h.typesOf_of_ne hs fun hsame => hother (congrArg some hsame)
  · exact fun d hunused => h.mem_definitions_iff hs (hunused r.id rfl).1 (hunused r.id rfl).2

end Twofold

/-! ### The import that follows -/

variable {state : Builder} {typeName : String} {document : Json} {legacy : Option LegacySpec}

/-- The resource is still there after an import, linked to its service. -/
theorem Interpreted.started {started left : Builder} {r : Record Resource} {findings : Findings}
    (h : Interpreted typeName legacy document started r findings left)
    (hstarted : Started started.database typeName r) :
    Started left.database typeName
      ⟨r.id, findings.resource typeName legacy document r.entity⟩ where
  resource := by
    rw [h.resources]
    exact List.mem_map.2 ⟨r, hstarted.resource, if_pos rfl⟩
  name := hstarted.name
  service service hservice := by
    rw [h.kept]
    exact hstarted.service service hservice

/-- What is in the report makes no difference. -/
theorem Interpreted.of_reporting {left : Builder} {r : Record Resource} {findings : Findings}
    {settled : Settled}
    (h : Interpreted typeName legacy document (reporting settled state) r findings left) :
    Interpreted typeName legacy document state r findings left where
  typing := h.typing
  progress := h.progress
  properties := h.properties
  attributes := h.attributes
  resources := h.resources
  live := h.live
  definitions := h.definitions
  kept := h.kept
  supply := h.supply
  rules := h.rules
  attributePointer := h.attributePointer
  consistent := h.consistent

/-- An import that follows on the same import succeeds, and nothing can be told from it. -/
theorem exists_importResource_again (h : state.database.Consistent state.supply)
    {resource? : Option Identity} {once : Builder}
    (hrun : (importResource typeName document legacy).run.run state = (.ok resource?, once)) :
    ∃ twice, (importResource typeName document legacy).run.run once = (.ok resource?, twice) ∧
      Database.Preserved resource? once.database twice.database := by
  cases hobject : document.isObject with
  | false =>
    have hskip : ∀ builder : Builder,
        Ends (importResource typeName document legacy) builder
          (fun resource? left => resource? = none ∧ left.database = builder.database)
          (fun _ _ => False) := by
      intro builder
      rw [ends_importResource_iff, hobject]
      exact ⟨rfl, rfl⟩
    obtain ⟨rfl, honce⟩ := (hskip state).of_run_ok hrun
    obtain ⟨_, twice, hagain, rfl, htwice⟩ := (hskip once).exists_run_ok
    refine ⟨twice, hagain, ?_⟩
    rw [htwice, honce]
    exact h.preserved_self none
  | true =>
    cases hsettle : settle (state.rules.ruleFor typeName) typeName document with
    | error unsettled =>
      have hfails : Ends (importResource typeName document legacy) state (fun _ _ => False)
          (fun _ _ => True) := by
        rw [ends_importResource_iff, if_pos hobject, hsettle]
        trivial
      exact (hfails.of_run_ok hrun).elim
    | ok settled =>
      have hreported :
          (reporting settled state).database.Consistent (reporting settled state).supply := h
      obtain ⟨started, r, first, rfl, hstarts, hstarted, hconsistent, honce⟩ :=
        (ends_importResource_of_settles hobject hsettle
          (ends_startResource hreported typeName)).of_run_ok hrun
      have hrules : once.rules = state.rules := by
        rw [honce.rules, hstarts.1]
        rfl
      have hsettled : settle (once.rules.ruleFor typeName) typeName document = .ok settled :=
        hrules ▸ hsettle
      have honceReported :
          (reporting settled once).database.Consistent (reporting settled once).supply :=
        honce.consistent
      obtain ⟨_, twice, hagain, _, _, again, rfl, ⟨rfl, rfl⟩, -, -, htwice⟩ :=
        (ends_importResource_of_settles hobject hsettled
          (ends_startResource_of_started honceReported
            (honce.started hstarted))).exists_run_ok
      exact ⟨twice, hagain, Twofold.preserved
        ⟨hconsistent, hstarted.resource, honce, htwice.of_reporting⟩⟩

end Building

namespace BuildStep

/-- After any steps from the empty database, a document that can be imported can be imported once
more, and then everything is as it was after the first time, apart from the identities of the
definitions that its resource uses. -/
theorem preserved_runAll_empty (supply : Supply) (rules : RuleBook) (attributePointer : String)
    (report : BuildReport) (imported : Nat) (steps : List BuildStep) (typeName : String)
    (document : Json) (legacy : Option LegacySpec) :
    let built := runAll ⟨Database.empty, supply, rules, attributePointer, report, imported⟩ steps
    ∀ resource? once,
      (Building.importResource typeName document legacy).run.run built = (.ok resource?, once) →
        ∃ twice,
          (Building.importResource typeName document legacy).run.run once = (.ok resource?, twice) ∧
            Database.Preserved resource? once.database twice.database := by
  intro built resource? once hrun
  exact Building.exists_importResource_again
    (consistent_runAll (Database.consistent_empty supply) steps) hrun

/-- A record of one number. -/
def expiryRecord : Json :=
  .obj [("properties", .obj [("Days", .obj [("type", .str "integer")])]), ("type", .str "object")]

def expiryList : Json := .obj [("items", expiryRecord), ("type", .str "array")]

def expiryDocument (expiry : Json) : Json := .obj [("properties", .obj [("Expiry", expiry)])]

/-- A property that was a record becomes a list of such records. -/
theorem preserved_expiryList :
    ∃ resource once twice,
      (Building.importResource "AWS::S3::Bucket" (expiryDocument expiryList) none).run.run
          (runAll bareBuilder
            [.importDocument "AWS::S3::Bucket" (expiryDocument expiryRecord) none]) =
        (.ok (some resource), once) ∧
      (Building.importResource "AWS::S3::Bucket" (expiryDocument expiryList) none).run.run once =
        (.ok (some resource), twice) ∧
      Database.Preserved (some resource) once.database twice.database := by
  let steps : List BuildStep :=
    [.importDocument "AWS::S3::Bucket" (expiryDocument expiryRecord) none]
  have hempty : bareBuilder.database.Consistent bareBuilder.supply :=
    Database.consistent_empty Supply.full
  have hconsistent := consistent_runAll hempty steps
  have hrules : (runAll bareBuilder steps).rules = RuleBook.empty := rules_runAll hempty steps
  have hsettles : (settle (RuleBook.empty.ruleFor "AWS::S3::Bucket") "AWS::S3::Bucket"
      (expiryDocument expiryList)).isOk = true := by
    decide +kernel
  have hagain : ∀ resource? once,
      (Building.importResource "AWS::S3::Bucket" (expiryDocument expiryList) none).run.run
          (runAll bareBuilder steps) = (.ok resource?, once) → ∃ twice,
        (Building.importResource "AWS::S3::Bucket" (expiryDocument expiryList) none).run.run once =
          (.ok resource?, twice) ∧ Database.Preserved resource? once.database twice.database :=
    preserved_runAll_empty Supply.full RuleBook.empty defaultAttributePointer BuildReport.empty 0
      steps "AWS::S3::Bucket" (expiryDocument expiryList) none
  cases hsettle : settle (RuleBook.empty.ruleFor "AWS::S3::Bucket") "AWS::S3::Bucket"
      (expiryDocument expiryList) with
  | error unsettled =>
    rw [hsettle] at hsettles
    cases hsettles
  | ok settled =>
    change ∃ resource once twice, StateT.run (ExceptT.run _) (runAll bareBuilder steps) = _ ∧ _
    generalize runAll bareBuilder steps = built at hconsistent hrules hagain ⊢
    rw [← hrules] at hsettle
    have hreported : (Building.reporting settled built).database.Consistent
        (Building.reporting settled built).supply := hconsistent
    obtain ⟨_, once, hfirst, _, r, _, rfl, -⟩ :=
      (Building.ends_importResource_of_settles rfl hsettle
        (Building.ends_startResource hreported "AWS::S3::Bucket")).exists_run_ok
    obtain ⟨twice, hsecond, hpreserved⟩ := hagain (some r.id) once hfirst
    exact ⟨r.id, once, twice, hfirst, hsecond, hpreserved⟩

end BuildStep

end ResourceCatalog
