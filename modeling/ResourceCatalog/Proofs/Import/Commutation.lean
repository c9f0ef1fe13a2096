import Mathlib
import ResourceCatalog.Proofs.Import.Independence
import ResourceCatalog.Proofs.Import.Reimport

/-!
# Imports of different resources commute

Two documents are imported for resources of different names, in one order and in the other. Neither
of the two touches the resource of the other, and each depends on its own resource only. So for every
name there is a database in which both outcomes have their counterpart: for the resource of one of
the documents the database after this document alone, and for all the others the one before both.
Hence a comparison finds nothing, and there is as much of everything. The identities may differ, as
may the order of what is new.
-/

namespace ResourceCatalog

namespace Building

open Comparison

/-- One document is imported in two builders that have kept the resource. It makes the same of the
resource in both, and as many definitions and uses come and go. -/
theorem Imported.counterpart {typeName : String} {legacy : Option LegacySpec}
    {a b left right : Builder} {document? : Option Json}
    (h : Imported typeName legacy a left document?)
    (h' : Imported typeName legacy b right document?)
    (ha : a.database.Consistent a.supply) (hb : b.database.Consistent b.supply)
    (hmatched : Matched typeName (Keeps a.database b.database) a.database b.database)
    (hpointer : b.attributePointer = a.attributePointer) :
    Matched typeName (fun r s => ∃ f, Counterpart f left.database right.database r s)
        left.database right.database ∧
      left.database.typeDefinitions.size + b.database.typeDefinitions.size =
        right.database.typeDefinitions.size + a.database.typeDefinitions.size ∧
      left.database.usesType.size + b.database.usesType.size =
        right.database.usesType.size + a.database.usesType.size := by
  cases h with
  | ignored h =>
    cases h' with
    | ignored h' =>
      rw [h, h']
      refine ⟨hmatched.imp fun r hr s hkept => ⟨id, ?_⟩, Nat.add_comm _ _, Nat.add_comm _ _⟩
      exact counterpart_of_keeps hkept ha hb.typeDefinitions.coherent.distinct hr
  | @interpreted document started r x sketch hopened hstarted hstart hsketch =>
    cases h' with
    | @interpreted _ started' s y sketch' hopened' hstarted' hstart' hsketch' =>
      have hkeeps := hopened.keeps hopened' hstarted hstarted' ha hb hsketch.consistent
        hsketch'.consistent hmatched
      obtain ⟨shared, halong⟩ := hsketch.exists_alongside hsketch' hkeeps
        (hstart'.trans (hpointer.trans hstart.symm))
      refine ⟨⟨?_, fun one hone two htwo hname hname' =>
        ⟨started.supply.shift started'.supply, ?_⟩⟩, ?_, ?_⟩
      · refine iff_of_true ?_ ?_
        · exact (hsketch.exists_resource_iff fun _ name => name = typeName).2
            ⟨r, hstarted.resource, hstarted.name⟩
        · exact (hsketch'.exists_resource_iff fun _ name => name = typeName).2
            ⟨s, hstarted'.resource, hstarted'.name⟩
      · rw [hsketch.eq_of_typeName hstarted.name hone hname,
          hsketch'.eq_of_typeName hstarted'.name htwo hname']
        exact halong.counterpart
      · have hsize := halong.size_typeDefinitions
        rw [hopened.kept, hopened'.kept] at hsize
        exact hsize
      · have hsize := halong.size_usesType
        rw [hopened.kept, hopened'.kept] at hsize
        exact hsize

/-! ### Either order -/

/-- Two documents are imported in either order. -/
structure EitherOrder (first second : String) (legacy legacy' : Option LegacySpec)
    (document? document'? : Option Json) (built one both other both' : Builder) : Prop where
  importOne : Imported first legacy built one document?
  importBoth : Imported second legacy' one both document'?
  importOther : Imported second legacy' built other document'?
  importBoth' : Imported first legacy other both' document?
  consistent : built.database.Consistent built.supply
  consistentOne : one.database.Consistent one.supply
  consistentBoth : both.database.Consistent both.supply
  consistentOther : other.database.Consistent other.supply
  consistentBoth' : both'.database.Consistent both'.supply
  pointer : one.attributePointer = built.attributePointer
  pointer' : other.attributePointer = built.attributePointer
  ne : first ≠ second

/-- Two databases have, for a name, counterparts of the same resource of some third one. -/
def Kindred (typeName : String) (a b : Database) : Prop :=
  ∃ (c : Database) (supply : Supply), c.Consistent supply ∧
    Matched typeName (fun r s => ∃ f, Counterpart f c a r s) c a ∧
    Matched typeName (fun r s => ∃ f, Counterpart f c b r s) c b

theorem Kindred.symm {typeName : String} {a b : Database} (h : Kindred typeName a b) :
    Kindred typeName b a := by
  obtain ⟨c, supply, hc, ha, hb⟩ := h
  exact ⟨c, supply, hc, hb, ha⟩

/-- A comparison finds nothing in resources that are kindred. -/
theorem Kindred.unchanged {typeName : String} {a b : Database} (h : Kindred typeName a b) :
    Matched typeName (fun r s => resource? a b r.entity.typeName r s = .ok none) a b := by
  obtain ⟨c, supply, hc, ha, hb⟩ := h
  refine ⟨ha.there.symm.trans hb.there, fun r hr s hs hname hname' => ?_⟩
  obtain ⟨t, ht, hname''⟩ := ha.there.2 ⟨r, hr, hname⟩
  obtain ⟨f, hf⟩ := ha.agree t ht r hr hname'' hname
  obtain ⟨g, hg⟩ := hb.agree t ht s hs hname'' hname'
  rw [resource?_counterparts hf hg]
  exact resource?_self hc.resolves hc.arranged _ ht

section EitherOrder

variable {first second : String} {legacy legacy' : Option LegacySpec}
  {document? document'? : Option Json} {built one both other both' : Builder}
  (h : EitherOrder first second legacy legacy' document? document'? built one both other both')

include h

theorem EitherOrder.symm :
    EitherOrder second first legacy' legacy document'? document? built other both' one both where
  importOne := h.importOther
  importBoth := h.importBoth'
  importOther := h.importOne
  importBoth' := h.importBoth
  consistent := h.consistent
  consistentOne := h.consistentOther
  consistentBoth := h.consistentBoth'
  consistentOther := h.consistentOne
  consistentBoth' := h.consistentBoth
  pointer := h.pointer'
  pointer' := h.pointer
  ne := h.ne.symm

/-- The resource that is imported first says the same as when it is imported second. -/
theorem EitherOrder.kindred_first : Kindred first both.database both'.database := by
  refine ⟨one.database, one.supply, h.consistentOne, ?_, ?_⟩
  · refine (h.importBoth.matched h.consistentOne h.ne).imp fun r hr s hkept => ⟨id, ?_⟩
    exact counterpart_of_keeps hkept h.consistentOne
      h.consistentBoth.typeDefinitions.coherent.distinct hr
  · exact (h.importOne.counterpart h.importBoth' h.consistent h.consistentOther
      (h.importOther.matched h.consistent h.ne) h.pointer').1

/-- A resource of another name is kept in either order. -/
theorem EitherOrder.matched_of_ne {typeName : String} (hfirst : typeName ≠ first)
    (hsecond : typeName ≠ second) :
    Matched typeName (fun r s => ∃ f, Counterpart f built.database both.database r s)
      built.database both.database := by
  refine ((h.importOne.matched h.consistent hfirst).trans
    (h.importBoth.matched h.consistentOne hsecond)).imp ?_
  rintro r hr s ⟨_, -, hkept, hkept'⟩
  exact ⟨id, counterpart_of_keeps (hkept.trans hkept') h.consistent
    h.consistentBoth.typeDefinitions.coherent.distinct hr⟩

theorem EitherOrder.kindred (typeName : String) :
    Kindred typeName both.database both'.database := by
  by_cases hfirst : typeName = first
  · exact hfirst ▸ h.kindred_first
  · by_cases hsecond : typeName = second
    · exact hsecond ▸ h.symm.kindred_first.symm
    · exact ⟨built.database, built.supply, h.consistent, h.matched_of_ne hfirst hsecond,
        h.symm.matched_of_ne hsecond hfirst⟩

theorem EitherOrder.perm_services : (both.database.services.all.map Record.entity).Perm
    (both'.database.services.all.map Record.entity) := by
  rw [h.importBoth.serviceEntities, h.importOne.serviceEntities, h.importBoth'.serviceEntities,
    h.importOther.serviceEntities]
  refine perm_foldl_withMissing_comm fun s hs s' hs' hname => ?_
  obtain ⟨-, -, hs⟩ := Option.bind_eq_some_iff.1 hs
  obtain ⟨-, -, hs'⟩ := Option.bind_eq_some_iff.1 hs'
  exact Service.eq_of_name_eq hs hs' hname

theorem EitherOrder.perm_typeNames :
    (both.database.resources.all.map fun r => r.entity.typeName).Perm
      (both'.database.resources.all.map fun r => r.entity.typeName) := by
  rw [h.importBoth.typeNames, h.importOne.typeNames, h.importBoth'.typeNames, h.importOther.typeNames]
  exact perm_foldl_withMissing_comm fun _ _ _ _ hname => hname

theorem EitherOrder.linked_iff {service typeName : String} :
    both.database.Linked service typeName ↔ both'.database.Linked service typeName := by
  rw [h.importBoth.linked_iff h.consistentOne, h.importOne.linked_iff h.consistent,
    h.importBoth'.linked_iff h.consistentOther, h.importOther.linked_iff h.consistent]
  exact or_right_comm

/-- A comparison finds nothing. -/
theorem EitherOrder.databases :
    Comparison.databases both.database both'.database = .ok ⟨unchanged, unchanged⟩ := by
  refine (databases_eq_unchanged_iff_paired h.consistentBoth h.consistentBoth').2
    ⟨⟨fun key => ?_, fun r s hr hs hname => ?_⟩, ⟨fun key => (h.kindred key).unchanged.there, ?_⟩⟩
  · have hnames := (h.perm_services.map Service.name).mem_iff (a := key)
    simp only [List.mem_map, exists_exists_and_eq_and] at hnames
    exact hnames
  · obtain ⟨s', hs', hsame⟩ := List.mem_map.1 (h.perm_services.mem_iff.1 (List.mem_map_of_mem hr))
    rw [List.inj_on_of_nodup_map h.consistentBoth'.services.unique hs hs'
      (hname.symm.trans (congrArg Service.name hsame.symm)), hsame]
  · intro r s hr hs hname
    exact (h.kindred r.entity.typeName).unchanged.agree r hr s hs rfl hname.symm

/-- There is as much of everything. -/
theorem EitherOrder.stats : both.database.stats = both'.database.stats := by
  have hservices := h.perm_services.length_eq
  have hresources := h.perm_typeNames.length_eq
  obtain ⟨-, hdefinitions, huses⟩ := h.importOne.counterpart h.importBoth' h.consistent h.consistentOther
    (h.importOther.matched h.consistent h.ne) h.pointer'
  obtain ⟨-, hdefinitions', huses'⟩ := h.importOther.counterpart h.importBoth h.consistent h.consistentOne
    (h.importOne.matched h.consistent h.ne.symm) h.pointer
  have hlinks : both.database.hasResource.size = both'.database.hasResource.size :=
    le_antisymm
      (h.consistentBoth.size_hasResource_le h.consistentBoth' fun _ _ => h.linked_iff.1)
      (h.consistentBoth'.size_hasResource_le h.consistentBoth fun _ _ => h.linked_iff.2)
  rw [List.length_map, List.length_map, ← Collection.size_eq, ← Collection.size_eq]
    at hservices hresources
  have htypes : both.database.typeDefinitions.size = both'.database.typeDefinitions.size := by
    omega
  have hused : both.database.usesType.size = both'.database.usesType.size := by omega
  rw [Database.stats, Database.stats, hservices, hresources, htypes, hlinks, hused,
    h.importBoth.regions.1, h.importBoth.regions.2, h.importOne.regions.1, h.importOne.regions.2, h.importBoth'.regions.1,
    h.importBoth'.regions.2, h.importOther.regions.1, h.importOther.regions.2]

end EitherOrder

end Building

namespace BuildStep

/-- Two runs of the same two steps are in either order. -/
theorem eitherOrder_run {builder : Builder} (h : builder.database.Consistent builder.supply)
    {first second : String} (hne : first ≠ second) (document document' : Json)
    (legacy legacy' : Option LegacySpec) :
    let one := run builder (.importDocument first document legacy)
    let other := run builder (.importDocument second document' legacy')
    Building.EitherOrder first second legacy legacy'
      (Building.interpretable? builder.rules first document)
      (Building.interpretable? builder.rules second document') builder one
      (run one (.importDocument second document' legacy')) other
      (run other (.importDocument first document legacy)) := by
  intro one other
  obtain ⟨hone, hrules⟩ := consistent_run h (.importDocument first document legacy)
  obtain ⟨hother, hrules'⟩ := consistent_run h (.importDocument second document' legacy')
  obtain ⟨himport, hpointer⟩ := Building.imported_importResource h first document legacy
  obtain ⟨himport', hpointer'⟩ := Building.imported_importResource h second document' legacy'
  exact {
    importOne := himport
    importBoth := hrules ▸ (Building.imported_importResource hone second document' legacy').1
    importOther := himport'
    importBoth' := hrules' ▸ (Building.imported_importResource hother first document legacy).1
    consistent := h
    consistentOne := hone
    consistentBoth := (consistent_run hone _).1
    consistentOther := hother
    consistentBoth' := (consistent_run hother _).1
    pointer := hpointer
    pointer' := hpointer'
    ne := hne }

/-- After any steps from the empty database, two documents are imported for two resources. Each of
them succeeds or fails in the second place as it does in the first, and after both the order cannot
be told, neither by the counts nor by a comparison. -/
theorem commute_runAll_empty (builder : Builder) (steps : List BuildStep)
    {first second : String} (hne : first ≠ second) (document document' : Json)
    (legacy legacy' : Option LegacySpec) :
    let built := runAll { builder with database := Database.empty } steps
    let one := run built (.importDocument first document legacy)
    let other := run built (.importDocument second document' legacy')
    let both := run one (.importDocument second document' legacy')
    let both' := run other (.importDocument first document legacy)
    ((Building.importResource first document legacy).run.run built).1.map Option.isSome =
        ((Building.importResource first document legacy).run.run other).1.map Option.isSome ∧
      ((Building.importResource second document' legacy').run.run one).1.map Option.isSome =
        ((Building.importResource second document' legacy').run.run built).1.map Option.isSome ∧
      both.database.stats = both'.database.stats ∧
      Comparison.databases both.database both'.database =
        .ok ⟨Comparison.unchanged, Comparison.unchanged⟩ ∧
      Comparison.databases both'.database both.database =
        .ok ⟨Comparison.unchanged, Comparison.unchanged⟩ := by
  intro built one other both both'
  have hbuilt : built.database.Consistent built.supply :=
    consistent_runAll (Database.consistent_empty builder.supply) steps
  have horder := eitherOrder_run hbuilt hne document document' legacy legacy'
  obtain ⟨hone, hrules⟩ := consistent_run hbuilt (.importDocument first document legacy)
  obtain ⟨hother, hrules'⟩ := consistent_run hbuilt (.importDocument second document' legacy')
  refine ⟨?_, ?_, horder.stats, horder.databases, horder.symm.databases⟩
  · rw [Building.outcome_importResource hbuilt, Building.outcome_importResource hother, hrules']
  · rw [Building.outcome_importResource hone, Building.outcome_importResource hbuilt, hrules]

/-- A bucket and an object, in either order. They share a service, and each has a definition, both of
one name. -/
theorem commute_bucket_object :
    let built := runAll bareBuilder []
    let bucket := BuildStep.importDocument "AWS::S3::Bucket" (expiryDocument expiryRecord) none
    let object := BuildStep.importDocument "AWS::S3::Object" (expiryDocument expiryRecord) none
    let both := run (run built bucket) object
    let both' := run (run built object) bucket
    "AWS::S3::Bucket" ≠ "AWS::S3::Object" ∧
      both.database.stats = [("services", 1), ("resources", 2), ("type_definitions", 2),
        ("regions", 0), ("has_resource", 2), ("uses_type", 2), ("region_has_resource", 0)] ∧
      both.database.stats = both'.database.stats ∧
      Comparison.databases both.database both'.database =
        .ok ⟨Comparison.unchanged, Comparison.unchanged⟩ ∧
      Comparison.databases both'.database both.database =
        .ok ⟨Comparison.unchanged, Comparison.unchanged⟩ := by
  intro built bucket object both both'
  have hne : "AWS::S3::Bucket" ≠ "AWS::S3::Object" := by decide
  obtain ⟨-, -, hsame⟩ := commute_runAll_empty bareBuilder [] hne (expiryDocument expiryRecord)
    (expiryDocument expiryRecord) none none
  refine ⟨hne, ?_, hsame⟩
  decide +kernel

end BuildStep

end ResourceCatalog
