import Mathlib
import ResourceCatalog.Proofs.Catalog.Loading
import ResourceCatalog.Proofs.Comparison.Unchanged
import ResourceCatalog.Proofs.Import.Runs

/-!
# Databases that come back as they were

A database that was built and saved can always be loaded. It comes back with the same records, with
nothing different in either direction and with the checksum it had, unless some property has a
default that is `null`. Such a default is written and read as no default, so its record is another
one then.
-/

namespace ResourceCatalog

namespace Database

/-- No property has a default that is `null`. -/
structure NoNullDefaults (db : Database) : Prop where
  resources : ∀ r ∈ db.resources.all, ∀ p ∈ r.entity.slots, p.default ≠ some .null
  definitions : ∀ d ∈ db.typeDefinitions.all, ∀ p ∈ Keyed.values d.entity.properties,
    p.default ≠ some .null

/-- A loaded database is the one that was saved, as far as can be told without identities of rows
and without indexes. -/
structure Reproduces (db loaded : Database) : Prop where
  services : loaded.services.all = db.services.all
  resources : loaded.resources.all = db.resources.all
  typeDefinitions : loaded.typeDefinitions.all = db.typeDefinitions.all
  regions : loaded.regions.all = db.regions.all
  forth : ∃ change, Comparison.databases db loaded = .ok change ∧ change.isEmpty = true
  back : ∃ change, Comparison.databases loaded db = .ok change ∧ change.isEmpty = true
  checksum : ∀ createdAt createdAt',
    (loaded.save createdAt).checksum = (db.save createdAt').checksum

end Database

theorem Resource.restored_eq_self_iff {r : Resource} :
    r.restored = r ↔ ∀ p ∈ r.slots, p.default ≠ some .null := by
  rw [slots, List.forall_mem_append, ← PropertyMap.restored_eq_self_iff,
    ← PropertyMap.restored_eq_self_iff]
  constructor
  · exact fun h => ⟨congrArg Resource.properties h, congrArg Resource.attributes h⟩
  · rintro ⟨hproperties, hattributes⟩
    rw [restored, hproperties, hattributes]

theorem TypeDefinition.restored_eq_self_iff {d : TypeDefinition} :
    d.restored = d ↔ ∀ p ∈ Keyed.values d.properties, p.default ≠ some .null := by
  rw [← PropertyMap.restored_eq_self_iff]
  constructor
  · exact congrArg TypeDefinition.properties
  · intro h
    rw [restored, h]

theorem Record.map_all_eq_self_iff {α : Type} {change : α → α} {records : List (Record α)} :
    records.map (Record.map change) = records ↔ ∀ r ∈ records, change r.entity = r.entity := by
  rw [map_eq_self_iff]
  refine forall₂_congr fun r _ => ?_
  exact ⟨congrArg Record.entity, fun h => by rw [Record.map, h]⟩

theorem Collection.toJson_congr {α : Type} [Entity α] [Encodable α] {a b : Collection α}
    (h : a.all = b.all) : a.toJson = b.toJson := by
  rw [toJson, toJson, h]

theorem Edges.toJson_congr {α : Type} [Encodable α] {a b : Edges α} (h : a.forward = b.forward) :
    a.toJson = b.toJson := by
  rw [toJson, toJson, h]

namespace Database

variable {db loaded : Database}

theorem Reread.alike (h : db.Reread loaded) (hnull : db.NoNullDefaults) :
    Comparison.Alike loaded db where
  services := h.services
  resources := h.resources.trans (Record.map_all_eq_self_iff.2 fun r hr =>
    Resource.restored_eq_self_iff.2 (hnull.resources r hr))
  typeDefinitions := h.typeDefinitions.trans (Record.map_all_eq_self_iff.2 fun d hd =>
    TypeDefinition.restored_eq_self_iff.2 (hnull.definitions d hd))
  usesType := h.usesType

/-- The checksum tells only what is read again. -/
theorem Reread.checksum (h : db.Reread loaded) (halike : Comparison.Alike loaded db)
    (createdAt createdAt' : String) :
    (loaded.save createdAt).checksum = (db.save createdAt').checksum := by
  rw [save, save, Collection.toJson_congr halike.services, Collection.toJson_congr halike.resources,
    Collection.toJson_congr halike.typeDefinitions, Collection.toJson_congr h.regions,
    Edges.toJson_congr h.hasResource, Edges.toJson_congr h.usesType,
    Edges.toJson_congr h.regionHasResource]
  rfl

theorem Reread.reproduces_iff (h : db.Reread loaded) {supply : Supply}
    (hdb : db.Consistent supply) : db.Reproduces loaded ↔ db.NoNullDefaults := by
  constructor
  · intro hsame
    constructor
    · intro r hr
      have hrestored := Record.map_all_eq_self_iff.1 (h.resources.symm.trans hsame.resources) r hr
      exact Resource.restored_eq_self_iff.1 hrestored
    · intro d hd
      have hrestored :=
        Record.map_all_eq_self_iff.1 (h.typeDefinitions.symm.trans hsame.typeDefinitions) d hd
      exact TypeDefinition.restored_eq_self_iff.1 hrestored
  · intro hnull
    have halike := h.alike hnull
    have hself := Comparison.databases_self hdb.resolves hdb.arranged
    exact {
      services := halike.services
      resources := halike.resources
      typeDefinitions := halike.typeDefinitions
      regions := h.regions
      forth := ⟨_, ((Comparison.Alike.refl db).databases halike).trans hself, rfl⟩
      back := ⟨_, (halike.databases (Comparison.Alike.refl db)).trans hself, rfl⟩
      checksum := h.checksum halike }

/-- A consistent database that was saved can be loaded. It is reproduced if and only if no default
is `null`. -/
theorem load_save {supply : Supply} (h : db.Consistent supply) (hfits : supply.next ≤ UInt64.size)
    (createdAt : String) (later : Supply) :
    ∃ loaded left, load (db.save createdAt) later = (.ok loaded, left) ∧
      (db.Reproduces loaded ↔ db.NoNullDefaults) := by
  obtain ⟨loaded, left, hload, hreread⟩ :=
    (ends_loadSections_save h hfits createdAt later).exists_run_ok
  exact ⟨loaded, left, hload, hreread.reproduces_iff h⟩

end Database

namespace BuildStep

/-- After any steps from the empty database, as long as identities fit into 64 bits, what is saved
can be loaded. -/
theorem reproduces_iff_runAll_empty (supply : Supply) (rules : RuleBook) (attributePointer : String)
    (report : BuildReport) (imported : Nat) (steps : List BuildStep) (createdAt : String)
    (later : Supply) :
    let built := runAll ⟨Database.empty, supply, rules, attributePointer, report, imported⟩ steps
    built.supply.next ≤ UInt64.size →
      ∃ loaded left, Database.load (built.database.save createdAt) later = (.ok loaded, left) ∧
        (built.database.Reproduces loaded ↔ built.database.NoNullDefaults) := by
  intro built hfits
  have h : built.database.Consistent built.supply :=
    consistent_runAll (Database.consistent_empty supply) steps
  exact Database.load_save h hfits createdAt later

/-- A resource without properties, imported, marked as stateful and linked to a region. -/
def bucketSteps : List BuildStep :=
  [.importDocument "AWS::S3::Bucket" (.obj []) none, .markStateful ["AWS::S3::Bucket"],
    .linkRegion "eu-west-1" ["AWS::S3::Bucket"]]

theorem reproduces_bucketSteps :
    ∃ built, runAll ⟨Database.empty, Supply.full, RuleBook.empty, defaultAttributePointer,
        BuildReport.empty, 0⟩ bucketSteps = built ∧ built.supply.next ≤ UInt64.size ∧
      ∃ loaded left,
        Database.load (built.database.save "2024-01-01T00:00:00Z") Supply.full =
          (.ok loaded, left) ∧ built.database.Reproduces loaded := by
  have h := reproduces_iff_runAll_empty Supply.full RuleBook.empty defaultAttributePointer
    BuildReport.empty 0 bucketSteps "2024-01-01T00:00:00Z" Supply.full
  have hfits : (runAll ⟨Database.empty, Supply.full, RuleBook.empty, defaultAttributePointer,
      BuildReport.empty, 0⟩ bucketSteps).supply.next ≤ UInt64.size := by
    decide +kernel
  have hslots : ((runAll ⟨Database.empty, Supply.full, RuleBook.empty, defaultAttributePointer,
      BuildReport.empty, 0⟩ bucketSteps).database.resources.all.flatMap
        fun r => r.entity.slots).length = 0 := by
    decide +kernel
  have hdefinitions : (runAll ⟨Database.empty, Supply.full, RuleBook.empty, defaultAttributePointer,
      BuildReport.empty, 0⟩ bucketSteps).database.typeDefinitions.all.length = 0 := by
    decide +kernel
  -- The run itself is no longer looked at, or else it is evaluated at each step below.
  generalize runAll _ bucketSteps = built at h hfits hslots hdefinitions ⊢
  obtain ⟨loaded, left, hload, hiff⟩ := h hfits
  refine ⟨built, rfl, hfits, loaded, left, hload, hiff.2 ⟨?_, ?_⟩⟩
  · intro r hr p hp
    have hmem : p ∈ built.database.resources.all.flatMap fun r => r.entity.slots :=
      List.mem_flatMap.2 ⟨r, hr, hp⟩
    rw [List.length_eq_zero_iff.1 hslots] at hmem
    exact absurd hmem List.not_mem_nil
  · intro d hd
    rw [List.length_eq_zero_iff.1 hdefinitions] at hd
    exact absurd hd List.not_mem_nil

end BuildStep

end ResourceCatalog
