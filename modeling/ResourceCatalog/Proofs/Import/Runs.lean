import Mathlib
import ResourceCatalog.Import.LateBinding
import ResourceCatalog.Proofs.Import.Interpretation

/-!
# Whole builds

A build is any sequence of imports, of markings of resources as stateful and of links of resources
to regions. Each of these steps keeps a database consistent, so after any number of them from the
empty database every mentioned identity is found, names are unique and each resource owns the
definitions it reaches. An import fails only if its document does not settle, and then nothing has
changed.
-/

namespace ResourceCatalog

/-! ### Imports -/

namespace Building

/-- An import corrects the document, reports what was put right, and interprets what is left. -/
theorem ends_importResource_iff {state : Builder} {typeName : String} {document : Json}
    {legacy : Option LegacySpec} {ok : Option Identity → Builder → Prop}
    {err : BuildError → Builder → Prop} :
    Ends (importResource typeName document legacy) state ok err ↔
      if document.isObject then
        match settle (state.rules.ruleFor typeName) typeName document with
        | .error unsettled => err (.unsettled unsettled) state
        | .ok settled =>
          Ends (interpret typeName legacy settled.document)
            { state with report := settled.mistakes.foldl BuildReport.addPatch state.report }
            (fun id left => ok (some id) left) err
      else ok none { state with
        report := state.report.addFailure .loading typeName none "document is not a JSON object" } := by
  rw [importResource]
  cases document.isObject with
  | false => exact Iff.rfl
  | true =>
    simp only [Bool.not_true, Bool.false_eq_true, if_false, if_true]
    rw [ends_bind, ends_get]
    cases settle (state.rules.ruleFor typeName) typeName document with
    | error unsettled => exact Iff.rfl
    | ok settled =>
      rw [ends_bind, ends_modify, ends_bind]
      exact Iff.rfl

/-- The builder with a report of what was put right. -/
def reporting (settled : Settled) (builder : Builder) : Builder :=
  { builder with report := settled.mistakes.foldl BuildReport.addPatch builder.report }

/-- A document that settles is interpreted. -/
theorem ends_importResource_of_settles {state : Builder} {typeName : String} {document : Json}
    {legacy : Option LegacySpec} {starts : Record Resource → Builder → Prop}
    (hobject : document.isObject = true) {settled : Settled}
    (hsettled : settle (state.rules.ruleFor typeName) typeName document = .ok settled)
    (hstart : Ends (startResource typeName) (reporting settled state)
      (fun id left => ∃ r, id = r.id ∧ starts r left ∧ Started left.database typeName r ∧
        left.database.Consistent left.supply) (fun _ _ => False)) :
    Ends (importResource typeName document legacy) state
      (fun resource? left => ∃ started r findings, resource? = some r.id ∧ starts r started ∧
        Started started.database typeName r ∧ started.database.Consistent started.supply ∧
        Interpreted typeName legacy settled.document started r findings left)
      (fun _ _ => False) := by
  rw [ends_importResource_iff, if_pos hobject, hsettled]
  refine (ends_interpret hstart).mono ?_ fun _ _ h => h
  rintro _ left ⟨started, r, findings, rfl, hleft⟩
  exact ⟨started, r, findings, rfl, hleft⟩

/-- An import of a consistent database keeps it so, and it keeps the rules. If it fails, the document
has not settled and the builder is as before. -/
theorem ends_importResource {state : Builder}
    (h : state.database.Consistent state.supply) (typeName : String) (document : Json)
    (legacy : Option LegacySpec) :
    Ends (importResource typeName document legacy) state
      (fun _ left => left.database.Consistent left.supply ∧ left.rules = state.rules)
      (fun e left => (∃ unsettled, e = .unsettled unsettled) ∧ left = state) := by
  rw [ends_importResource_iff]
  split
  · split
    · next unsettled _ => exact ⟨⟨unsettled, rfl⟩, rfl⟩
    · next settled _ =>
      have hreported :
          (reporting settled state).database.Consistent (reporting settled state).supply := h
      refine (ends_interpret (ends_startResource hreported typeName)).mono ?_ fun _ _ h => h.elim
      rintro _ left ⟨started, r, findings, -, hstarts, -, -, hleft⟩
      refine ⟨hleft.consistent, hleft.rules.trans ?_⟩
      rw [hstarts.1]
      rfl
  · exact ⟨h, rfl⟩

/-- What holds of a database holds after an import if interpreting a document keeps it so. -/
theorem ends_importResource_of_interpreted {holds : Database → Prop} {state : Builder}
    {typeName : String} {document : Json} {legacy : Option LegacySpec}
    (h : state.database.Consistent state.supply) (hstate : holds state.database)
    (hinterpreted : ∀ {settled started r found left},
      Opened state.database typeName r started.database → Started started.database typeName r →
      started.database.Consistent started.supply →
      Interpreted typeName legacy settled started r found left → holds left.database) :
    Ends (importResource typeName document legacy) state
      (fun _ left => holds left.database) (fun _ left => holds left.database) := by
  rw [ends_importResource_iff]
  split
  · split
    · exact hstate
    · next settled _ =>
      have hreported :
          (reporting settled state).database.Consistent (reporting settled state).supply := h
      refine (ends_interpret (ends_startResource hreported typeName)).mono ?_ fun _ _ h => h.elim
      rintro _ left ⟨started, r, found, -, ⟨-, hopened⟩, hstarted, hconsistent, hleft⟩
      exact hinterpreted hopened hstarted hconsistent hleft
  · exact hstate

end Building

/-! ### Late bindings -/

/-- A resource apart from whether it is marked as stateful. -/
def Resource.unmarked (r : Resource) : Resource := { r with isStateful := false }

/-- Records that differ in their marks only have the same identities and slots. -/
theorem Resource.map_slots_of_unmarked {a b : List (Record Resource)}
    (h : (a.map fun r => (r.id, r.entity.unmarked)) = b.map fun r => (r.id, r.entity.unmarked)) :
    (a.map fun r => (r.id, r.entity.slots)) = b.map fun r => (r.id, r.entity.slots) := by
  have hslots := congrArg (List.map fun entry => (entry.1, entry.2.slots)) h
  rwa [List.map_map, List.map_map] at hslots

/-- Records with the same identities and slots belong to the same generations. -/
theorem Generations.of_slots {old new : List (Record Resource)}
    {definitions : List (Record TypeDefinition)} {uses : Edges Use}
    (h : Generations old definitions uses)
    (hnew : ∀ r ∈ new, ∃ before ∈ old, before.id = r.id ∧ before.entity.slots = r.entity.slots) :
    Generations new definitions uses where
  current := by
    intro r hr id hid
    obtain ⟨before, hbefore, hsame, hslots⟩ := hnew r hr
    rw [← hsame]
    refine h.current before hbefore id ?_
    rw [Resource.currentReferences, hslots]
    exact hid
  previous := by
    intro r hr id hid
    obtain ⟨before, hbefore, _, hslots⟩ := hnew r hr
    refine h.previous before hbefore id ?_
    rw [Resource.previousReferences, hslots]
    exact hid
  together := h.together
  oneUser := h.oneUser

namespace Database.Consistent

variable {db : Database} {supply : Supply}

theorem markStateful_ok (h : db.Consistent supply) {r : Record Resource}
    (hr : r ∈ db.resources.all) :
    ∃ resources, db.resources.update r.id (fun entity => { entity with isStateful := true }) =
      .ok resources ∧ (resources.all.map fun r => (r.id, r.entity.unmarked)) =
        (db.resources.all.map fun r => (r.id, r.entity.unmarked)) ∧
      ({ db with resources } : Database).Consistent supply := by
  obtain ⟨resources, hok, hcoherent, hall⟩ := Collection.update_of_mem h.resources.coherent hr
    fun entity => { entity with isStateful := true }
  have hids : resources.ids = db.resources.ids := Collection.ids_replaced hall
  have hunmarked : (resources.all.map fun r => (r.id, r.entity.unmarked)) =
      (db.resources.all.map fun r => (r.id, r.entity.unmarked)) := by
    refine Collection.map_replaced hall fun other hother hsame => ?_
    rw [Collection.eq_of_id_eq h.resources.coherent.distinct hother hr hsame]
    rfl
  refine ⟨resources, hok, hunmarked, { h with
    resources := ⟨⟨hcoherent, hids ▸ h.resources.taken⟩, ?_⟩
    hasResource := hids ▸ h.hasResource
    usesType := hids ▸ h.usesType
    regionHasResource := hids ▸ h.regionHasResource
    generations := h.generations.of_slots fun new hnew => ?_
    arranged := ⟨fun new hnew => ?_, h.arranged.definitions⟩ }⟩
  · have hnames : (resources.all.map fun other => other.entity.typeName) =
        db.resources.all.map fun other => other.entity.typeName := by
      refine Collection.map_replaced hall fun other hother hsame => ?_
      rw [Collection.eq_of_id_eq h.resources.coherent.distinct hother hr hsame]
    exact hnames ▸ h.resources.unique
  · change new ∈ resources.all at hnew
    rw [hall, List.mem_map] at hnew
    obtain ⟨other, hother, rfl⟩ := hnew
    split
    · exact ⟨r, hr, rfl, rfl⟩
    · exact ⟨other, hother, rfl, rfl⟩
  · change new ∈ resources.all at hnew
    rw [hall, List.mem_map] at hnew
    obtain ⟨other, hother, rfl⟩ := hnew
    split
    · exact h.arranged.resources r hr
    · exact h.arranged.resources other hother

theorem resourceByTypeName_ok (h : db.Consistent supply) (name : String) :
    ∃ found, db.resourceByTypeName name = .ok found ∧ ∀ r, found = some r →
      r ∈ db.resources.all := by
  by_cases hname : ∃ r ∈ db.resources.all, r.entity.typeName = name
  · obtain ⟨r, hr, rfl⟩ := hname
    refine ⟨some r, ?_, fun other hother => Option.some.inj hother ▸ hr⟩
    exact Collection.findOnly_eq_some h.resources.coherent rfl hr fun other hother hsame =>
      List.inj_on_of_nodup_map h.resources.unique hother hr hsame
  · rw [not_exists] at hname
    refine ⟨none, ?_, fun _ hnone => nomatch hnone⟩
    exact Collection.findOnly_eq_none h.resources.coherent rfl fun r hr hsame => hname r ⟨hr, hsame⟩

end Database.Consistent

namespace Binding

variable {db : Database} {supply : Supply}

theorem ends_resource? (h : db.Consistent supply) (name : String) :
    Ends (resource? name) (db, supply)
      (fun found left => left = (db, supply) ∧ ∀ id, found = some id →
        ∃ r ∈ db.resources.all, r.id = id)
      (fun _ _ => False) := by
  obtain ⟨found, hfound, hmem⟩ := h.resourceByTypeName_ok name
  rw [resource?, ends_bind, ends_get, ends_bind, hfound, ends_lift_ok]
  refine ⟨rfl, fun id hid => ?_⟩
  obtain ⟨r, hr, rfl⟩ := Option.map_eq_some_iff.1 hid
  exact ⟨r, hmem r hr, rfl⟩

/-- The definitions and their uses are left alone. -/
def SameTypes (before after : Database) : Prop :=
  after.typeDefinitions = before.typeDefinitions ∧ after.usesType = before.usesType

/-- What holds of a database whichever of its resources are marked and whatever becomes of its
regions. -/
structure Unbound (keeps : Database → Prop) : Prop where
  resources : ∀ db resources, keeps db →
    (resources.all.map fun r => (r.id, r.entity.unmarked)) =
      (db.resources.all.map fun r => (r.id, r.entity.unmarked)) → keeps { db with resources }
  regions : ∀ db regions regionHasResource, keeps db →
    keeps { db with regions, regionHasResource }

theorem unbound_sameTypes (before : Database) : Unbound (SameTypes before) where
  resources := fun _ _ h _ => h
  regions := fun _ _ _ h => h

section Keeps

variable {keeps : Database → Prop} (hkeeps : Unbound keeps)

include hkeeps

theorem ends_markStateful_of_unbound (h : db.Consistent supply) (hdb : keeps db)
    (names : List String) :
    Ends (markStateful names) (db, supply)
      (fun _ left => left.1.Consistent left.2 ∧ keeps left.1) (fun _ _ => False) := by
  induction names generalizing db with
  | nil => exact ⟨h, hdb⟩
  | cons name rest ih =>
    rw [markStateful, ends_bind]
    refine (ends_resource? h name).mono ?_ fun _ _ h => h
    rintro found _ ⟨rfl, hfound⟩
    cases found with
    | none =>
      dsimp only
      rw [ends_bind]
      exact (ih h hdb).mono (fun _ _ h => h) fun _ _ h => h
    | some id =>
      obtain ⟨r, hr, rfl⟩ := hfound id rfl
      obtain ⟨resources, hok, hunmarked, hconsistent⟩ := h.markStateful_ok hr
      dsimp only
      rw [ends_bind, ends_get]
      dsimp only
      rw [ends_bind, hok, ends_lift_ok, ends_bind, ends_set]
      exact ih hconsistent (hkeeps.resources db resources hdb hunmarked)

theorem ends_linkResources (h : db.Consistent supply) (hdb : keeps db) {region : Identity}
    (hregion : region ∈ db.regions.ids) (names : List String) :
    Ends (linkResources region names) (db, supply)
      (fun _ left => left.1.Consistent left.2 ∧ keeps left.1) (fun _ _ => False) := by
  induction names generalizing db with
  | nil => exact ⟨h, hdb⟩
  | cons name rest ih =>
    rw [linkResources, ends_bind]
    refine (ends_resource? h name).mono ?_ fun _ _ h => h
    rintro found _ ⟨rfl, hfound⟩
    cases found with
    | none =>
      dsimp only
      rw [ends_bind]
      exact (ih h hdb hregion).mono (fun _ _ h => h) fun _ _ h => h
    | some id =>
      obtain ⟨r, hr, rfl⟩ := hfound id rfl
      dsimp only
      rw [ends_bind, ends_modify]
      exact ih { h with
        regionHasResource := h.regionHasResource.add hregion
          (Collection.mem_ids.2 ⟨r, hr, rfl⟩) () } (hkeeps.regions db _ _ hdb) hregion

theorem ends_linkRegion_of_unbound (h : db.Consistent supply) (hdb : keeps db) (region : String)
    (names : List String) :
    Ends (linkRegion region names) (db, supply)
      (fun _ left => left.1.Consistent left.2 ∧ keeps left.1) (fun _ _ => False) := by
  obtain ⟨id, regions, supply', hok, hconsistent, hid⟩ := h.upsertRegion_ok region
  rw [linkRegion, ends_bind, ends_get]
  dsimp only
  rw [ends_bind, hok, ends_lift_ok]
  dsimp only
  rw [ends_bind, ends_set]
  exact ends_linkResources hkeeps hconsistent (hkeeps.regions db regions _ hdb) hid names

end Keeps

/-- Marking resources does not fail and keeps a database consistent. -/
theorem ends_markStateful (h : db.Consistent supply) (names : List String) :
    Ends (markStateful names) (db, supply)
      (fun _ left => left.1.Consistent left.2 ∧ SameTypes db left.1) (fun _ _ => False) :=
  ends_markStateful_of_unbound (unbound_sameTypes db) h ⟨rfl, rfl⟩ names

/-- Linking resources to a region does not fail and keeps a database consistent. -/
theorem ends_linkRegion (h : db.Consistent supply) (region : String) (names : List String) :
    Ends (linkRegion region names) (db, supply)
      (fun _ left => left.1.Consistent left.2 ∧ SameTypes db left.1) (fun _ _ => False) :=
  ends_linkRegion_of_unbound (unbound_sameTypes db) h ⟨rfl, rfl⟩ region names

end Binding

/-! ### Runs -/

/-- A step of a build. -/
inductive BuildStep where
  | importDocument (typeName : String) (document : Json) (legacy : Option LegacySpec)
  | markStateful (names : List String)
  | linkRegion (region : String) (names : List String)

namespace BuildStep

/-- The builder that a binding leaves. -/
def bind {α : Type} (binding : Binding α) (builder : Builder) : Builder :=
  let (_, database, supply) := binding.run.run (builder.database, builder.supply)
  { builder with database, supply }

/-- The builder that a step leaves, also if it fails. -/
def run (builder : Builder) : BuildStep → Builder
  | .importDocument typeName document legacy =>
    ((Building.importResource typeName document legacy).run.run builder).2
  | .markStateful names => bind (Binding.markStateful names) builder
  | .linkRegion region names => bind (Binding.linkRegion region names) builder

/-- The builder that several steps leave. -/
def runAll (builder : Builder) (steps : List BuildStep) : Builder := steps.foldl run builder

theorem consistent_bind {α : Type} {binding : Binding α} {builder : Builder}
    {keeps : Database → Prop}
    (h : Ends binding (builder.database, builder.supply)
      (fun _ left => left.1.Consistent left.2 ∧ keeps left.1) (fun _ _ => False)) :
    (bind binding builder).database.Consistent (bind binding builder).supply ∧
      keeps (bind binding builder).database :=
  (h.mono (fun _ _ hleft => hleft) fun _ _ hfalse => hfalse.elim).of_left

/-- A step keeps a database consistent, and it keeps the rules. -/
theorem consistent_run {builder : Builder} (h : builder.database.Consistent builder.supply)
    (step : BuildStep) :
    (run builder step).database.Consistent (run builder step).supply ∧
      (run builder step).rules = builder.rules := by
  cases step with
  | importDocument typeName document legacy =>
    have himport := Building.ends_importResource h typeName document legacy
    refine (himport.mono (fun _ _ hleft => hleft) ?_).of_left
    rintro _ _ ⟨-, rfl⟩
    exact ⟨h, rfl⟩
  | markStateful names => exact ⟨(consistent_bind (Binding.ends_markStateful h names)).1, rfl⟩
  | linkRegion region names =>
    exact ⟨(consistent_bind (Binding.ends_linkRegion h region names)).1, rfl⟩

theorem consistent_runAll {builder : Builder} (h : builder.database.Consistent builder.supply)
    (steps : List BuildStep) :
    (runAll builder steps).database.Consistent (runAll builder steps).supply := by
  induction steps generalizing builder with
  | nil => exact h
  | cons step rest ih => exact ih (consistent_run h step).1

/-- A builder without rules, before any step. -/
def bareBuilder : Builder :=
  ⟨Database.empty, Supply.full, RuleBook.empty, defaultAttributePointer, BuildReport.empty, 0⟩

/-- The rules of a build stay as they are. -/
theorem rules_runAll {builder : Builder} (h : builder.database.Consistent builder.supply)
    (steps : List BuildStep) : (runAll builder steps).rules = builder.rules := by
  induction steps generalizing builder with
  | nil => rfl
  | cons step rest ih => exact (ih (consistent_run h step).1).trans (consistent_run h step).2

/-- After any steps from the empty database every mentioned identity is found, names are unique and
each resource owns the definitions it reaches. From there an import gives a result, unless the
document does not settle, and then the builder is as before. -/
theorem sound_runAll_empty (supply : Supply) (rules : RuleBook) (attributePointer : String)
    (report : BuildReport) (imported : Nat) (steps : List BuildStep) :
    let built := runAll ⟨Database.empty, supply, rules, attributePointer, report, imported⟩ steps
    built.database.Resolves ∧ built.database.UniqueNames ∧ built.database.OwnsReached ∧
      ∀ typeName document legacy,
        (∃ resource left, (Building.importResource typeName document legacy).run.run built =
          (.ok resource, left)) ∨
        ∃ unsettled, (Building.importResource typeName document legacy).run.run built =
          (.error (.unsettled unsettled), built) := by
  intro built
  have h : built.database.Consistent built.supply :=
    consistent_runAll (Database.consistent_empty supply) steps
  refine ⟨h.resolves, h.uniqueNames, h.ownsReached, fun typeName document legacy => ?_⟩
  have himport := Building.ends_importResource h typeName document legacy
  rw [Ends] at himport
  generalize StateT.run (ExceptT.run _) _ = outcome at himport ⊢
  obtain ⟨result, left⟩ := outcome
  cases result with
  | ok resource => exact Or.inl ⟨resource, left, rfl⟩
  | error e =>
    obtain ⟨⟨unsettled, rfl⟩, rfl⟩ := himport
    exact Or.inr ⟨unsettled, rfl⟩

end BuildStep

end ResourceCatalog
