import Mathlib
import ResourceCatalog.Proofs.Import.Interpretation
import ResourceCatalog.Proofs.Import.Parallel

/-!
# Imports and their sketches

The typing of an import shows a sketch, and two imports of one document show the same, wherever they
start. `Sketched` tells an import by its sketch: the resource uses the definitions of the sketch, the
database has them besides those it had, and what the other resources use is left alone.
-/

namespace ResourceCatalog

/-! ### Moving identities -/

namespace Supply

/-- Moves the identities from one supply on to where another one goes on. -/
def shift (a b : Supply) (id : Identity) : Identity :=
  if id.value < a.next then id else b.place ⟨id.value - a.next⟩

theorem shift_of_lt {a b : Supply} {id : Identity} (h : id.value < a.next) : a.shift b id = id :=
  if_pos h

theorem le_place (a : Supply) (id : Identity) : a.next ≤ (a.place id).value := Nat.le_add_right _ _

theorem shift_place (a b : Supply) (id : Identity) : a.shift b (a.place id) = b.place id := by
  rw [shift, if_neg (not_lt.2 (a.le_place id))]
  exact congrArg (fun value => b.place ⟨value⟩) (Nat.add_sub_cancel_left _ _)

theorem shift_comp_place (a b : Supply) : a.shift b ∘ a.place = b.place :=
  funext fun id => shift_place a b id

end Supply

namespace Typing

/-- What is placed behind one start is moved to where it is behind the other. -/
theorem Twins.eq_rename {a b : Start} {x y : PropertyMap}
    (h : Twins a b PropertyMap.rename x y) : y = x.rename (a.supply.shift b.supply) := by
  obtain ⟨sketched, rfl, rfl⟩ := h
  rw [PropertyMap.rename_rename, Supply.shift_comp_place]

theorem parallel_documentTypes {a b : Start} (document : Json) (names : List String) :
    Parallel a b (documentTypes (a.subject document) names)
      (documentTypes (b.subject document) names)
      (fun x y => Twins a b PropertyMap.rename x.1 y.1 ∧ Twins a b PropertyMap.rename x.2 y.2) :=
  (parallel_propertiesOf (parallel_typeWithin document _) _ _ _).bind fun _ _ hproperties =>
    (parallel_attributesOf document names).bind fun _ _ hattributes =>
      Parallel.pure ⟨hproperties, hattributes⟩

/-- The definitions that are seen are those of the sketch. -/
theorem Sketch.Shows.mem_found_iff {base : Database} {first : Supply} {resource : Identity}
    {state : TypingState} {sketch : Sketch} (h : sketch.Shows ⟨base, first, resource⟩ state)
    (hp : Progress base first resource state) {id : Identity} :
    id ∈ state.found ↔ ∃ d ∈ sketch.definitions, first.place d.id = id := by
  constructor
  · intro hfound
    obtain ⟨d, hd, rfl⟩ := Collection.mem_ids.1 (hp.present hfound)
    rw [h.definitions, List.mem_append] at hd
    rcases hd with hd | hd
    · exact absurd (Collection.mem_ids.2 ⟨d, hd, rfl⟩) (hp.fresh _ hfound)
    · obtain ⟨sketched, hsketched, rfl⟩ := List.mem_map.1 hd
      exact ⟨sketched, hsketched, rfl⟩
  · rintro ⟨d, hd, rfl⟩
    have hmem : d.rename first.place ∈ state.database.typeDefinitions.all := by
      rw [h.definitions]
      exact List.mem_append_right _ (List.mem_map_of_mem hd)
    rcases hp.stored _ hmem with hold | hnew
    · exact absurd (Collection.mem_ids.2 ⟨_, hold, rfl⟩) h.not_older
    · exact hnew.1

end Typing

namespace Building

open Typing

/-- Where the typing of a resource starts in a builder. -/
def start (builder : Builder) (resource : Identity) : Start :=
  ⟨builder.database.withoutUses resource, builder.supply, resource⟩

theorem shows_start {builder : Builder} (h : builder.database.Consistent builder.supply)
    (resource : Identity) :
    Sketch.empty.Shows (start builder resource) (start builder resource).state := by
  refine Sketch.shows_empty h.typeDefinitions (h.usesType.coherent.removeOutgoing resource) ?_
  change (builder.database.usesType.removeOutgoing resource).2.outgoing resource = []
  rw [Edges.outgoing_removeOutgoing h.usesType.coherent.forward, if_pos rfl]

/-! ### Two imports -/

/-- Two imports have found the same, each from its start. -/
structure SameSketch (a b : Start) (found found' : Findings) (sketch : Sketch) : Prop where
  named : sketch.Named
  before : sketch.Shows a found.typed
  after : sketch.Shows b found'.typed
  properties : Twins a b PropertyMap.rename found.properties found'.properties
  attributes : Twins a b PropertyMap.rename found.attributes found'.attributes

variable {typeName : String} {legacy : Option LegacySpec} {document : Json}

theorem exists_sameSketch {a b left right : Builder} {r s : Record Resource} {x y : Findings}
    (ha : a.database.Consistent a.supply) (hb : b.database.Consistent b.supply)
    (hx : Interpreted typeName legacy document a r x left)
    (hy : Interpreted typeName legacy document b s y right)
    (hpointer : b.attributePointer = a.attributePointer) :
    ∃ sketch, SameSketch (start a r.id) (start b s.id) x y sketch := by
  have hparallel := parallel_documentTypes (a := start a r.id) (b := start b s.id)
    document (attributeNames document a.attributePointer
      ((legacy.map fun spec => spec.attributeNames typeName).getD [])) _ _
    ⟨Sketch.empty, Sketch.named_empty, shows_start ha r.id, shows_start hb s.id⟩
  have hright := hy.typing
  rw [hpointer] at hright
  obtain ⟨⟨sketch, hnamed, hbefore, hafter⟩, hproperties, hattributes⟩ :=
    hparallel.of_run_ok hx.typing hright
  exact ⟨sketch, hnamed, hbefore, hafter, hproperties, hattributes⟩

/-! ### One import -/

/-- The definitions that were there before an import and are still there after it. -/
def keptDefinitions (started : Builder) (resource : Identity) (found : Findings) :
    List (Record TypeDefinition) :=
  started.database.typeDefinitions.all.filter fun d =>
    d.id ∈ (started.database.usesType.outgoing resource).map Edge.id → d.id ∈ found.live

/-- An import of which the typing shows a sketch. -/
structure Sketched (typeName : String) (legacy : Option LegacySpec) (document : Json)
    (started : Builder) (r : Record Resource) (found : Findings) (left : Builder)
    (sketch : Sketch) : Prop where
  consistent : started.database.Consistent started.supply
  mem : r ∈ started.database.resources.all
  interpreted : Interpreted typeName legacy document started r found left
  named : sketch.Named
  shows : sketch.Shows (start started r.id) found.typed

section Sketched

variable {started left : Builder} {r : Record Resource} {found : Findings} {sketch : Sketch}

theorem Interpreted.usesType (h : Interpreted typeName legacy document started r found left) :
    left.database.usesType = found.typed.database.usesType := by
  rw [h.kept]

/-- A resource is the one that has been imported, or it is as it was before. -/
theorem Interpreted.mem_resources (h : Interpreted typeName legacy document started r found left)
    {other : Record Resource} (hother : other ∈ left.database.resources.all) :
    other = ⟨r.id, found.resource typeName legacy document r.entity⟩ ∨
      other.id ≠ r.id ∧ other ∈ started.database.resources.all := by
  rw [h.resources, List.mem_map] at hother
  obtain ⟨before, hbefore, rfl⟩ := hother
  split
  · exact Or.inl rfl
  · next hne => exact Or.inr ⟨hne, hbefore⟩

variable (h : Sketched typeName legacy document started r found left sketch)

include h

theorem Sketched.mem_found_iff {id : Identity} :
    id ∈ found.typed.found ↔ ∃ d ∈ sketch.definitions, started.supply.place d.id = id :=
  h.shows.mem_found_iff h.interpreted.progress

/-- The resource uses the definitions of the sketch. -/
theorem Sketched.joins_self_iff {id : Identity} :
    left.database.usesType.Joins r.id id ↔
      ∃ d ∈ sketch.definitions, started.supply.place d.id = id := by
  rw [h.interpreted.usesType, h.interpreted.progress.joins_iff h.consistent,
    or_iff_right fun hother => hother.1 rfl, and_iff_right rfl, h.mem_found_iff]

theorem Sketched.outgoing_self : left.database.usesType.outgoing r.id =
    sketch.uses.map (Edge.rename started.supply.place) := by
  rw [h.interpreted.usesType]
  exact h.shows.uses

/-- What other resources use is left alone. -/
theorem Sketched.outgoing_of_ne {other : Identity} (hother : other ≠ r.id) :
    left.database.usesType.outgoing other = started.database.usesType.outgoing other := by
  have hwithout : (start started r.id).database.usesType.outgoing other =
      started.database.usesType.outgoing other :=
    (Edges.outgoing_removeOutgoing h.consistent.usesType.coherent.forward r.id other).trans
      (if_neg hother)
  rw [h.interpreted.usesType, h.shows.elsewhere other hother, hwithout]

/-- What is placed behind the start was not there before. -/
theorem Sketched.place_not_mem {id : Identity} :
    started.supply.place id ∉ started.database.typeDefinitions.ids := h.shows.not_older

theorem Sketched.typeDefinitions : left.database.typeDefinitions.all =
    keptDefinitions started r.id found ++
      sketch.definitions.map (Record.rename started.supply.place) := by
  rw [h.interpreted.definitions, h.shows.definitions, List.filter_append]
  congr 1
  refine List.filter_eq_self.2 fun d hd => decide_eq_true fun hused => ?_
  obtain ⟨sketched, -, rfl⟩ := List.mem_map.1 hd
  obtain ⟨edge, hedge, hid⟩ := List.mem_map.1 hused
  exact absurd (hid ▸ (h.consistent.usesType.ends r.id _ ⟨edge, hedge, rfl⟩).2) h.place_not_mem

theorem Sketched.mem_typeDefinitions {d : Record TypeDefinition}
    (hd : d ∈ left.database.typeDefinitions.all) :
    d ∈ started.database.typeDefinitions.all ∨
      ∃ sketched ∈ sketch.definitions, d = sketched.rename started.supply.place := by
  rw [h.typeDefinitions, List.mem_append] at hd
  refine hd.imp (fun hkept => (List.mem_filter.1 hkept).1) fun hplaced => ?_
  obtain ⟨sketched, hsketched, rfl⟩ := List.mem_map.1 hplaced
  exact ⟨sketched, hsketched, rfl⟩

/-- A definition that the resource uses is one of the sketch. -/
theorem Sketched.exists_sketched {d : Record TypeDefinition}
    (hd : d ∈ left.database.typeDefinitions.all) (huse : left.database.usesType.Joins r.id d.id) :
    ∃ sketched ∈ sketch.definitions, d = sketched.rename started.supply.place := by
  refine (h.mem_typeDefinitions hd).resolve_left fun hold => ?_
  obtain ⟨sketched, -, hid⟩ := h.joins_self_iff.1 huse
  exact h.place_not_mem (hid ▸ Collection.mem_ids.2 ⟨d, hold, rfl⟩)

/-- A definition whose identity was there before is one from before. -/
theorem Sketched.mem_of_mem_ids {d : Record TypeDefinition}
    (hd : d ∈ left.database.typeDefinitions.all)
    (hid : d.id ∈ started.database.typeDefinitions.ids) :
    d ∈ started.database.typeDefinitions.all := by
  refine (h.mem_typeDefinitions hd).resolve_right ?_
  rintro ⟨sketched, -, rfl⟩
  exact h.place_not_mem hid

end Sketched

theorem Interpreted.exists_sketched {started left : Builder} {r : Record Resource}
    {found : Findings} (h : Interpreted typeName legacy document started r found left)
    (hstarted : started.database.Consistent started.supply)
    (hr : r ∈ started.database.resources.all) :
    ∃ sketch, Sketched typeName legacy document started r found left sketch := by
  obtain ⟨sketch, hsketch⟩ := exists_sameSketch hstarted hstarted h h rfl
  exact ⟨sketch, hstarted, hr, h, hsketch.named, hsketch.before⟩

end Building

end ResourceCatalog
