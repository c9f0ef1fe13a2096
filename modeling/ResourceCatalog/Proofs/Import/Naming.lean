import Mathlib
import ResourceCatalog.Proofs.Comparison.Faithful
import ResourceCatalog.Proofs.Comparison.Relabelling
import ResourceCatalog.Proofs.Import.Runs
import ResourceCatalog.Proofs.Import.Sketched

/-!
# The names of what a resource uses

An import gives each definition a name that no other definition of the resource has, and the
definitions of the import before are not used any more. So in whatever has been built no resource
uses two definitions of one name, and a comparison of two builds leaves no definition out.
-/

namespace ResourceCatalog

namespace Building

variable {typeName : String} {legacy : Option LegacySpec} {document : Json}
  {started left : Builder} {r : Record Resource} {found : Findings} {sketch : Typing.Sketch}

theorem Sketched.usesDistinct
    (h : Sketched typeName legacy document started r found left sketch)
    (hstarted : started.database.UsesDistinct) : left.database.UsesDistinct := by
  rintro user d e ⟨hd, huse⟩ ⟨he, huse'⟩ hname
  by_cases huser : user = r.id
  · subst huser
    obtain ⟨sketched, hsketched, rfl⟩ := h.exists_sketched hd huse
    obtain ⟨other, hother, rfl⟩ := h.exists_sketched he huse'
    rw [h.named.eq_of_name_eq hsketched hother hname]
  · rw [Edges.Joins, h.outgoing_of_ne huser] at huse huse'
    have hold := h.mem_of_mem_ids hd (h.consistent.usesType.ends _ _ huse).2
    have hold' := h.mem_of_mem_ids he (h.consistent.usesType.ends _ _ huse').2
    exact hstarted user d e ⟨hold, huse⟩ ⟨hold', huse'⟩ hname

theorem usesDistinct_importResource {state : Builder}
    (h : state.database.Consistent state.supply) (hdistinct : state.database.UsesDistinct) :
    Ends (importResource typeName document legacy) state
      (fun _ left => left.database.UsesDistinct) (fun _ left => left.database.UsesDistinct) := by
  refine ends_importResource_of_interpreted h hdistinct fun hopened hstarted hconsistent hleft => ?_
  obtain ⟨sketch, hsketch⟩ := hleft.exists_sketched hconsistent hstarted.resource
  refine hsketch.usesDistinct ?_
  rw [hopened.kept]
  exact hdistinct

end Building

namespace BuildStep

theorem usesDistinct_run {builder : Builder} (h : builder.database.Consistent builder.supply)
    (hdistinct : builder.database.UsesDistinct) (step : BuildStep) :
    (run builder step).database.UsesDistinct := by
  have hsame : ∀ {after : Database}, Binding.SameTypes builder.database after →
      after.UsesDistinct := by
    rintro after ⟨hdefinitions, huses⟩
    rw [Database.UsesDistinct]
    simp only [Database.Uses, hdefinitions, huses]
    exact hdistinct
  cases step with
  | importDocument typeName document legacy =>
    exact (Building.usesDistinct_importResource h hdistinct).of_left
  | markStateful names => exact hsame (consistent_bind (Binding.ends_markStateful h names)).2
  | linkRegion region names =>
    exact hsame (consistent_bind (Binding.ends_linkRegion h region names)).2

theorem usesDistinct_runAll {builder : Builder} (h : builder.database.Consistent builder.supply)
    (hdistinct : builder.database.UsesDistinct) (steps : List BuildStep) :
    (runAll builder steps).database.UsesDistinct := by
  induction steps generalizing builder with
  | nil => exact hdistinct
  | cons step rest ih => exact ih (consistent_run h step).1 (usesDistinct_run h hdistinct step)

/-- Two builds from the empty database can be compared, and the comparison is empty exactly where
they have the same catalog. -/
theorem isEmpty_databases_runAll_empty_iff (builder builder' : Builder)
    (steps steps' : List BuildStep) :
    let a := (runAll { builder with database := Database.empty } steps).database
    let b := (runAll { builder' with database := Database.empty } steps').database
    ∃ change, Comparison.databases a b = .ok change ∧
      (change.isEmpty = true ↔ Comparison.SameCatalog a b) := by
  intro a b
  have hempty : Database.empty.UsesDistinct := fun _ _ _ hd => absurd hd.1 List.not_mem_nil
  have ha : a.Consistent _ := consistent_runAll (Database.consistent_empty builder.supply) steps
  have hb : b.Consistent _ := consistent_runAll (Database.consistent_empty builder'.supply) steps'
  have hda : a.UsesDistinct :=
    usesDistinct_runAll (Database.consistent_empty builder.supply) hempty steps
  have hdb : b.UsesDistinct :=
    usesDistinct_runAll (Database.consistent_empty builder'.supply) hempty steps'
  obtain ⟨change, hchange⟩ := Comparison.databases_ok ha.resolves hb.resolves
  refine ⟨change, hchange, ?_⟩
  rw [← Comparison.databases_eq_unchanged_iff ha hb hda hdb, hchange, Except.ok.injEq,
    Comparison.databaseChange_isEmpty_iff]

/-- A bucket with one property, a record of one text, and nothing documented. -/
def silentDocument : Json :=
  .obj [("primaryIdentifier", .arr [.str "/properties/Account, Name"]),
    ("properties", .obj [("Owner", .obj
      [("properties", .obj [("Mail", .obj [("type", .str "string")])]),
        ("type", .str "object")])])]

/-- The same bucket with every documentation there, but empty, with an empty name for the property
of the tags, and with the identifier in two parts. -/
def blankDocument : Json :=
  .obj [("description", .str ""),
    ("primaryIdentifier", .arr [.str "/properties/Account", .str "/properties/Name"]),
    ("properties", .obj [("Owner", .obj
      [("description", .str ""),
        ("properties", .obj [("Mail", .obj [("description", .str ""), ("type", .str "string")])]),
        ("type", .str "object")])]),
    ("tagging", .obj [("tagProperty", .str "/properties/")])]

/-- The catalog of one document. -/
def catalogOf (document : Json) : Database :=
  (runAll bareBuilder [.importDocument "AWS::S3::Bucket" document none]).database

/-- No comparison tells what is missing from what is empty, or one identifier from its parts. -/
theorem isEmpty_databases_silent_blank :
    ((Comparison.databases (catalogOf silentDocument) (catalogOf blankDocument)).toOption.map
        DatabaseChange.isEmpty = some true) ∧
      (∀ document ∈ [silentDocument, blankDocument],
        (catalogOf document).resources.all.map (·.entity.typeName) = ["AWS::S3::Bucket"] ∧
          (catalogOf document).typeDefinitions.all.map (·.entity.name) = ["Owner"]) ∧
      ((catalogOf silentDocument).resources.all.map fun r =>
          (r.entity.documentation, r.entity.primaryIdentifier, r.entity.tagProperty)) =
        [(none, ["Account, Name"], none)] ∧
      ((catalogOf blankDocument).resources.all.map fun r =>
          (r.entity.documentation, r.entity.primaryIdentifier, r.entity.tagProperty)) =
        [(some "", ["Account", "Name"], some "")] ∧
      ((catalogOf silentDocument).resources.all.map fun r =>
          r.entity.properties.map fun entry => (entry.1, entry.2.documentation)) =
        [[("Owner", none)]] ∧
      ((catalogOf blankDocument).resources.all.map fun r =>
          r.entity.properties.map fun entry => (entry.1, entry.2.documentation)) =
        [[("Owner", some "")]] ∧
      (catalogOf silentDocument).typeDefinitions.all.map (·.entity.documentation) = [none] ∧
      (catalogOf blankDocument).typeDefinitions.all.map (·.entity.documentation) = [some ""] := by
  decide +kernel

end BuildStep

end ResourceCatalog
