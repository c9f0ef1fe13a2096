import Mathlib
import ResourceCatalog.Proofs.Import.Opening
import ResourceCatalog.Proofs.Import.Runs
import ResourceCatalog.Proofs.Import.Sketched

/-!
# One import

Whether an import gives a resource is decided by the rules and the document, and never by what has
been built before. `Imported` tells what it has made of a builder: the document was left aside, or
its resource was opened and interpreted. Then the name of the resource and its service are there and
linked, and all other names and links are as before.
-/

namespace ResourceCatalog

namespace Building

/-- Whether an import gives a resource, or why it fails. -/
def outcome (rules : RuleBook) (typeName : String) (document : Json) : Except BuildError Bool :=
  if document.isObject then
    match settle (rules.ruleFor typeName) typeName document with
    | .ok _ => .ok true
    | .error unsettled => .error (.unsettled unsettled)
  else .ok false

/-- The document that an import interprets, if it comes to that. -/
def interpretable? (rules : RuleBook) (typeName : String) (document : Json) : Option Json :=
  if document.isObject then
    match settle (rules.ruleFor typeName) typeName document with
    | .ok settled => some settled.document
    | .error _ => none
  else none

/-- What an import has made of a builder. -/
inductive Imported (typeName : String) (legacy : Option LegacySpec) (before left : Builder) :
    Option Json → Prop
  | ignored (h : left.database = before.database) : Imported typeName legacy before left none
  | interpreted {document : Json} {started : Builder} {r : Record Resource} {found : Findings}
      {sketch : Typing.Sketch} (opened : Opened before.database typeName r started.database)
      (started' : Started started.database typeName r)
      (pointer : started.attributePointer = before.attributePointer)
      (sketched : Sketched typeName legacy document started r found left sketch) :
      Imported typeName legacy before left (some document)

theorem ends_importResource_outcome {state : Builder}
    (h : state.database.Consistent state.supply) (typeName : String) (document : Json)
    (legacy : Option LegacySpec) :
    Ends (importResource typeName document legacy) state
      (fun result left => outcome state.rules typeName document = .ok result.isSome ∧
        Imported typeName legacy state left (interpretable? state.rules typeName document) ∧
        left.attributePointer = state.attributePointer)
      (fun e left => outcome state.rules typeName document = .error e ∧
        Imported typeName legacy state left (interpretable? state.rules typeName document) ∧
        left.attributePointer = state.attributePointer) := by
  rw [ends_importResource_iff, outcome, interpretable?]
  by_cases hobject : document.isObject = true
  · simp only [if_pos hobject]
    cases settle (state.rules.ruleFor typeName) typeName document with
    | error unsettled => exact ⟨rfl, .ignored rfl, trivial⟩
    | ok settled =>
      have hreported :
          (reporting settled state).database.Consistent (reporting settled state).supply := h
      refine (ends_interpret (ends_startResource hreported typeName)).mono ?_ fun _ _ h => h.elim
      rintro _ left ⟨started, r, found, -, ⟨hsame, hopened⟩, hstarted, hconsistent, hleft⟩
      obtain ⟨sketch, hsketch⟩ := hleft.exists_sketched hconsistent hstarted.resource
      have hpointer : started.attributePointer = state.attributePointer := by
        rw [hsame]
        rfl
      exact ⟨rfl, .interpreted hopened hstarted hpointer hsketch,
        hleft.attributePointer.trans hpointer⟩
  · simp only [if_neg hobject]
    exact ⟨rfl, .ignored rfl, trivial⟩

theorem outcome_importResource {state : Builder} (h : state.database.Consistent state.supply)
    (typeName : String) (document : Json) (legacy : Option LegacySpec) :
    ((importResource typeName document legacy).run.run state).1.map Option.isSome =
      outcome state.rules typeName document := by
  have himport := ends_importResource_outcome h typeName document legacy
  rw [Ends] at himport
  generalize StateT.run (ExceptT.run _) _ = result at himport ⊢
  obtain ⟨_ | _, left⟩ := result <;> exact himport.1.symm

theorem imported_importResource {state : Builder} (h : state.database.Consistent state.supply)
    (typeName : String) (document : Json) (legacy : Option LegacySpec) :
    Imported typeName legacy state (BuildStep.run state (.importDocument typeName document legacy))
        (interpretable? state.rules typeName document) ∧
      (BuildStep.run state (.importDocument typeName document legacy)).attributePointer =
        state.attributePointer :=
  ((ends_importResource_outcome h typeName document legacy).mono (fun _ _ hleft => hleft.2)
    fun _ _ hleft => hleft.2).of_left

/-! ### Names -/

section Interpreted

variable {typeName : String} {legacy : Option LegacySpec} {document : Json}
  {started left : Builder} {r : Record Resource} {found : Findings} {sketch : Typing.Sketch}
  (h : Sketched typeName legacy document started r found left sketch)

include h

/-- An import keeps the identities and names of the resources. -/
theorem Sketched.map_resources {β : Type} (tell : Identity → String → β) :
    (left.database.resources.all.map fun r => tell r.id r.entity.typeName) =
      started.database.resources.all.map fun r => tell r.id r.entity.typeName := by
  refine Collection.map_replaced h.interpreted.resources fun other hother hsame => ?_
  rw [Collection.eq_of_id_eq h.consistent.resources.coherent.distinct hother h.mem hsame]
  rfl

theorem Sketched.exists_resource_iff (tell : Identity → String → Prop) :
    (∃ r ∈ left.database.resources.all, tell r.id r.entity.typeName) ↔
      ∃ r ∈ started.database.resources.all, tell r.id r.entity.typeName := by
  have htold : ∀ resources : List (Record Resource),
      (∃ r ∈ resources, tell r.id r.entity.typeName) ↔
        ∃ told ∈ resources.map fun r => tell r.id r.entity.typeName, told := by
    intro resources
    simp only [List.mem_map, exists_exists_and_eq_and]
  rw [htold, htold, h.map_resources]

theorem Sketched.linked_iff {service other : String} :
    left.database.Linked service other ↔ started.database.Linked service other := by
  have hservices : left.database.services = started.database.services := by
    rw [h.interpreted.kept]
  have hlinks : left.database.hasResource = started.database.hasResource := by
    rw [h.interpreted.kept]
  rw [Database.Linked, Database.Linked, hservices, hlinks]
  exact exists_congr fun s => and_congr_right fun _ => h.exists_resource_iff fun id name =>
    s.entity.name = service ∧ name = other ∧ started.database.hasResource.Joins s.id id

end Interpreted

section Imported

variable {typeName : String} {legacy : Option LegacySpec} {before left : Builder}
  {document? : Option Json} {supply : Supply}
  (h : Imported typeName legacy before left document?)

include h

theorem Imported.typeNames : (left.database.resources.all.map fun r => r.entity.typeName) =
    (document?.map fun _ => typeName).toList.foldl (withMissing id)
      (before.database.resources.all.map fun r => r.entity.typeName) := by
  cases h with
  | ignored h =>
    rw [h]
    rfl
  | interpreted hopened hstarted hpointer hsketch =>
    exact (hsketch.map_resources fun _ name => name).trans
      (hopened.typeNames hstarted hsketch.consistent)

theorem Imported.serviceEntities : left.database.services.all.map Record.entity =
    (document?.bind fun _ => Service.ofTypeName? typeName).toList.foldl (withMissing Service.name)
      (before.database.services.all.map Record.entity) := by
  cases h with
  | ignored h =>
    rw [h]
    rfl
  | interpreted hopened hstarted hpointer hsketch =>
    rw [hsketch.interpreted.kept]
    exact hopened.serviceEntities hstarted hsketch.consistent

theorem Imported.linked_iff (hbefore : before.database.Consistent supply)
    {service other : String} :
    left.database.Linked service other ↔ before.database.Linked service other ∨
      other = typeName ∧ ∃ s ∈ document?.bind fun _ => Service.ofTypeName? typeName,
        s.name = service := by
  cases h with
  | ignored h =>
    rw [h]
    exact (or_iff_left fun ⟨_, s, hs, _⟩ => nomatch hs).symm
  | interpreted hopened hstarted hpointer hsketch =>
    rw [hsketch.linked_iff]
    exact hopened.linked_iff hstarted hsketch.consistent hbefore

theorem Imported.regions : left.database.regions = before.database.regions ∧
    left.database.regionHasResource = before.database.regionHasResource := by
  cases h with
  | ignored h =>
    rw [h]
    exact ⟨rfl, rfl⟩
  | interpreted hopened hstarted hpointer hsketch =>
    rw [hsketch.interpreted.kept, hopened.kept]
    exact ⟨rfl, rfl⟩

end Imported

end Building

end ResourceCatalog
