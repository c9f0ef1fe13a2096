import Mathlib
import ResourceCatalog.Proofs.Import.Neighbours
import ResourceCatalog.Proofs.Import.Renewal

/-!
# What an import depends on

An import looks at its own resource only. Where two databases have kept the resource, one document
makes the same of it in both, apart from the identities of the new definitions, which are the next
ones of either supply. And it adds and prunes as many definitions and uses in one as in the other: a
definition of the import before goes in both if it goes in one.
-/

namespace ResourceCatalog

namespace Building

open Typing Comparison

/-- One document is imported in two builders that have kept the resource. -/
structure Alongside (typeName : String) (legacy : Option LegacySpec) (document : Json)
    (a : Builder) (r : Record Resource) (x : Findings) (left : Builder)
    (b : Builder) (s : Record Resource) (y : Findings) (right : Builder)
    (sketch : Sketch) : Prop where
  one : Sketched typeName legacy document a r x left sketch
  other : Sketched typeName legacy document b s y right sketch
  properties : Twins (start a r.id) (start b s.id) PropertyMap.rename x.properties y.properties
  attributes : Twins (start a r.id) (start b s.id) PropertyMap.rename x.attributes y.attributes
  keeps : Keeps a.database b.database r s

section Alongside

variable {typeName : String} {legacy : Option LegacySpec} {document : Json}
  {a b left right : Builder} {r s : Record Resource} {x y : Findings} {sketch sketch' : Sketch}

theorem Sketched.exists_alongside (h : Sketched typeName legacy document a r x left sketch)
    (h' : Sketched typeName legacy document b s y right sketch')
    (hkeeps : Keeps a.database b.database r s)
    (hpointer : b.attributePointer = a.attributePointer) :
    ∃ sketch, Alongside typeName legacy document a r x left b s y right sketch := by
  obtain ⟨sketch, hsame⟩ :=
    exists_sameSketch h.consistent h'.consistent h.interpreted h'.interpreted hpointer
  exact ⟨sketch, ⟨h.consistent, h.mem, h.interpreted, hsame.named, hsame.before⟩,
    ⟨h'.consistent, h'.mem, h'.interpreted, hsame.named, hsame.after⟩,
    hsame.properties, hsame.attributes, hkeeps⟩

variable (h : Alongside typeName legacy document a r x left b s y right sketch)

include h

theorem Alongside.symm : Alongside typeName legacy document b s y right a r x left sketch where
  one := h.other
  other := h.one
  properties := h.properties.imp fun _ hboth => ⟨hboth.2, hboth.1⟩
  attributes := h.attributes.imp fun _ hboth => ⟨hboth.2, hboth.1⟩
  keeps := h.keeps.symm

/-- Definitions from before keep their identities. -/
theorem Alongside.shift_of_mem {id : Identity} (hid : id ∈ a.database.typeDefinitions.ids) :
    a.supply.shift b.supply id = id :=
  Supply.shift_of_lt (h.one.consistent.typeDefinitions.taken id hid)

/-! ### The same texts -/

/-- A type that the resource had before has the same text in both builders. -/
theorem Alongside.render_old {type : PropertyType}
    (htype : ∀ id ∈ type.references, a.database.usesType.Joins r.id id) :
    y.typed.database.render type = x.typed.database.render type := by
  refine PropertyType.render_congr type fun id hid => ?_
  have hused := htype id hid
  obtain ⟨d, hd, rfl⟩ := Collection.mem_ids.1 (h.one.consistent.usesType.ends _ _ hused).2
  have hd' := ((h.keeps.definitions d).2 ⟨hd, hused⟩).1
  have hx := h.one.interpreted.progress
  have hy := h.other.interpreted.progress
  rw [Database.typeName, Database.typeName,
    Collection.get_of_mem hy.definitions.coherent.distinct (hy.old d hd'),
    Collection.get_of_mem hx.definitions.coherent.distinct (hx.old d hd)]

/-- So does a type that is made of the document. -/
theorem Alongside.render_new {type : PropertyType} (htype : type.references ⊆ x.typed.found) :
    y.typed.database.render (type.rename (a.supply.shift b.supply)) =
      x.typed.database.render type := by
  rw [Database.render, PropertyType.render_rename]
  refine PropertyType.render_congr type fun id hid => ?_
  obtain ⟨d, hd, rfl⟩ := h.one.mem_found_iff.1 (htype hid)
  rw [Function.comp_apply, Supply.shift_place]
  exact (h.other.shows.typeName_of_mem hd).trans (h.one.shows.typeName_of_mem hd).symm

/-! ### The same resource -/

theorem Alongside.remembering {old properties : PropertyMap}
    (hproperties : PropertiesWithin properties x.typed.found)
    (hold : ∀ p ∈ Keyed.values old, p ∈ r.entity.slots) :
    remembering y.typed.database old (properties.rename (a.supply.shift b.supply)) =
      PropertyMap.rename (a.supply.shift b.supply)
        (remembering x.typed.database old properties) := by
  refine remembering_rename (fun before hbefore => ⟨?_, ?_⟩) fun entry hentry =>
    h.render_new (hproperties.within entry hentry).1
  · exact h.render_old fun id hid => h.one.consistent.generations.current r h.one.mem id
      (Resource.mem_currentReferences.2 ⟨before, hold before hbefore, hid⟩)
  · refine Property.rename_eq_self fun id hid => h.shift_of_mem ?_
    refine h.one.consistent.references_subset h.one.mem ?_
    have hslots : PropertyMap.references r.entity.properties ++
        PropertyMap.references r.entity.attributes =
        r.entity.slots.flatMap Property.references := List.flatMap_append.symm
    rw [hslots]
    exact List.mem_flatMap.2 ⟨before, hold before hbefore, hid⟩

/-- Both imports make the same resource, apart from identities. -/
theorem Alongside.resource : y.resource typeName legacy document s.entity =
    (x.resource typeName legacy document r.entity).rename (a.supply.shift b.supply) := by
  rw [Findings.resource, Findings.resource, h.keeps.entity, h.properties.eq_rename,
    h.attributes.eq_rename]
  exact renewed_rename ⟨rfl, rfl, rfl⟩
    (h.remembering h.one.interpreted.properties fun _ hp => List.mem_append_left _ hp)
    (h.remembering h.one.interpreted.attributes fun _ hp => List.mem_append_right _ hp)

/-- A definition that the resource uses is found under its other identity. -/
theorem Alongside.carried {id : Identity} (hid : left.database.usesType.Joins r.id id) :
    Database.Carried (a.supply.shift b.supply) left.database right.database id := by
  obtain ⟨d, hd, rfl⟩ := h.one.joins_self_iff.1 hid
  have hplaced : ∀ {started : Builder} {r : Record Resource} {found : Findings} {left : Builder},
      Sketched typeName legacy document started r found left sketch →
      left.database.typeDefinitions.get (started.supply.place d.id) =
        .ok (d.rename started.supply.place) := by
    intro started r found left hsketch
    refine Collection.get_of_mem
      (r := d.rename started.supply.place)
      hsketch.interpreted.consistent.typeDefinitions.coherent.distinct ?_
    rw [hsketch.typeDefinitions]
    exact List.mem_append_right _ (List.mem_map_of_mem hd)
  refine ⟨d.rename a.supply.place, hplaced h.one, ?_⟩
  rw [Supply.shift_place, Record.rename_rename, Supply.shift_comp_place]
  exact hplaced h.other

/-- What the document has made of the resource is the same in both builders. -/
theorem Alongside.counterpart : Counterpart (a.supply.shift b.supply) left.database right.database
    ⟨r.id, x.resource typeName legacy document r.entity⟩
    ⟨s.id, y.resource typeName legacy document s.entity⟩ := by
  refine counterpart_of_used h.one.interpreted.consistent ?_ h.resource ?_ fun id hid =>
    h.carried hid
  · rw [h.one.interpreted.resources]
    exact List.mem_map.2 ⟨r, h.one.mem, if_pos rfl⟩
  · change right.database.usesType.outgoing s.id = (left.database.usesType.outgoing r.id).map _
    rw [h.other.outgoing_self, h.one.outgoing_self, List.map_map]
    refine List.map_congr_left fun edge _ => ?_
    rw [Function.comp_apply, Edge.rename, Edge.rename, Edge.rename, Supply.shift_place]

/-! ### As much of everything -/

/-- A definition of the import before that is still reached in one builder is so in the other. The
invariant is that on the way everything that the resource used before is reached in the other. -/
theorem Alongside.mem_live {id : Identity} (hused : a.database.usesType.Joins r.id id)
    (hlive : id ∈ x.live) : id ∈ y.live := by
  have hold : ∀ {id : Identity}, a.database.usesType.Joins r.id id →
      id ∈ a.database.typeDefinitions.ids := fun hjoin =>
    (h.one.consistent.usesType.ends _ _ hjoin).2
  refine h.one.interpreted.live.least
    (fun id => a.database.usesType.Joins r.id id → id ∈ y.live) ?_ ?_ id hlive hused
  · intro d hd hinside id hid hjoin
    rcases h.one.interpreted.progress.stored d hd with hstored | ⟨-, hnew⟩
    · have huser := ((h.one.consistent.generations.together d hstored id hid).2 r.id).2 hjoin
      have hother := ((h.keeps.definitions d).2 ⟨hstored, huser⟩).1
      exact h.other.interpreted.live.closed d
        (h.other.interpreted.progress.old d hother) (hinside huser) hid
    · exact absurd (hold hjoin) (h.one.interpreted.progress.fresh id (hnew hid))
  · intro id hid hjoin
    rw [Database.mentions, List.mem_append] at hid
    rcases hid with hid | hid
    · refine h.other.interpreted.live.mentioned (List.mem_append_left _ ?_)
      rw [h.resource, Resource.rename, PropertyMap.references_rename,
        PropertyMap.references_rename, ← List.map_append]
      exact List.mem_map.2 ⟨id, hid, h.shift_of_mem (hold hjoin)⟩
    · obtain ⟨edge, hedge, rfl⟩ := List.mem_map.1 hid
      obtain ⟨d, -, hplaced⟩ := h.one.joins_self_iff.1 ⟨edge, hedge, rfl⟩
      exact absurd (hplaced ▸ hold hjoin) h.one.place_not_mem

end Alongside

/-- The definitions that were there before an import and are gone after it. -/
def prunedDefinitions (started : Builder) (resource : Identity) (found : Findings) :
    List (Record TypeDefinition) :=
  started.database.typeDefinitions.all.filter fun d =>
    ¬ (d.id ∈ (started.database.usesType.outgoing resource).map Edge.id → d.id ∈ found.live)

section Counts

variable {typeName : String} {legacy : Option LegacySpec} {document : Json}
  {a b left right : Builder} {r s : Record Resource} {x y : Findings} {sketch : Sketch}

theorem Sketched.length_typeDefinitions
    (h : Sketched typeName legacy document a r x left sketch) :
    left.database.typeDefinitions.all.length + (prunedDefinitions a r.id x).length =
      a.database.typeDefinitions.all.length + sketch.definitions.length := by
  have hparts := List.length_eq_length_filter_add (l := a.database.typeDefinitions.all) fun d =>
    decide (d.id ∈ (a.database.usesType.outgoing r.id).map Edge.id → d.id ∈ x.live)
  rw [h.typeDefinitions, List.length_append, List.length_map, hparts, keptDefinitions,
    prunedDefinitions]
  simp only [decide_not]
  omega

theorem Sketched.size_usesType (h : Sketched typeName legacy document a r x left sketch) :
    left.database.usesType.size + (a.database.usesType.outgoing r.id).length =
      a.database.usesType.size + sketch.uses.length := by
  have hlinks := h.consistent.usesType.coherent
  have hlinks' := h.interpreted.consistent.usesType.coherent
  have hforward : left.database.usesType.forward = Adjacency.set r.id
      (left.database.usesType.outgoing r.id) a.database.usesType.forward := by
    refine hlinks'.forward.ext (hlinks.forward.set _ _) fun id => ?_
    rw [Adjacency.get_set hlinks.forward]
    split
    · next hsame => rw [hsame]; rfl
    · next hne => exact h.outgoing_of_ne hne
  have hlength := Adjacency.length_set hlinks.forward r.id (left.database.usesType.outgoing r.id)
  rw [← hforward, ← hlinks.counted, ← hlinks'.counted] at hlength
  rw [h.outgoing_self, List.length_map] at hlength
  exact hlength

variable (h : Alongside typeName legacy document a r x left b s y right sketch)

include h

theorem Alongside.mem_pruned {d : Record TypeDefinition} (hd : d ∈ prunedDefinitions a r.id x) :
    d ∈ prunedDefinitions b s.id y := by
  rw [prunedDefinitions, List.mem_filter, decide_eq_true_eq, Classical.not_imp] at hd ⊢
  obtain ⟨hmem, hused, hdead⟩ := hd
  obtain ⟨hmem', hused'⟩ := (h.keeps.definitions d).2 ⟨hmem, List.mem_map.1 hused⟩
  exact ⟨hmem', List.mem_map.2 hused', fun hlive => hdead (h.symm.mem_live hused' hlive)⟩

/-- As many definitions come and go in one builder as in the other. -/
theorem Alongside.size_typeDefinitions :
    left.database.typeDefinitions.size + b.database.typeDefinitions.size =
      right.database.typeDefinitions.size + a.database.typeDefinitions.size := by
  have hnodup : ∀ {started : Builder} {resource : Identity} {found : Findings},
      started.database.Consistent started.supply →
      (prunedDefinitions started resource found).Nodup := fun hstarted =>
    (List.Nodup.of_map _ hstarted.typeDefinitions.coherent.distinct).filter _
  have hpruned : (prunedDefinitions a r.id x).Perm (prunedDefinitions b s.id y) :=
    (List.perm_ext_iff_of_nodup (hnodup h.one.consistent) (hnodup h.other.consistent)).2
      fun d => ⟨h.mem_pruned, h.symm.mem_pruned⟩
  have hone := h.one.length_typeDefinitions
  have hother := h.other.length_typeDefinitions
  rw [hpruned.length_eq] at hone
  simp only [Collection.size_eq]
  omega

theorem Alongside.size_usesType :
    left.database.usesType.size + b.database.usesType.size =
      right.database.usesType.size + a.database.usesType.size := by
  have hone := h.one.size_usesType
  have hother := h.other.size_usesType
  rw [h.keeps.uses] at hother
  omega

end Counts

end Building

end ResourceCatalog
