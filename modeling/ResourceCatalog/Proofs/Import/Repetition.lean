import Mathlib
import ResourceCatalog.Proofs.Comparison.Counterparts
import ResourceCatalog.Proofs.Import.Renewal
import ResourceCatalog.Proofs.Import.Runs
import ResourceCatalog.Proofs.Import.Sketched

/-!
# Importing a document again

A document that is imported twice in a row is typed from two starts, so both imports make the same
sketch. The second one finds that no type has another text than before, so it adds nothing to any
history, and then nothing reaches the definitions of the first one, which are pruned. What is left
is the database after the first import with other identities for the definitions that it made, and
no comparison, count or text tells the two apart.
-/

namespace ResourceCatalog

/-! ### Moving identities back -/

namespace Supply

/-- Moves the identities behind a shift back. -/
def unshift (a b : Supply) (id : Identity) : Identity :=
  if id.value < a.next then id else a.place ⟨id.value - b.next⟩

theorem leftInverse_unshift {a b : Supply} (h : a.next ≤ b.next) :
    Function.LeftInverse (a.unshift b) (a.shift b) := by
  intro id
  by_cases hid : id.value < a.next
  · rw [shift_of_lt hid, unshift, if_pos hid]
  · have hvalue : a.next + (b.next + (id.value - a.next) - b.next) = id.value := by omega
    rw [shift, if_neg hid, unshift, if_neg (not_lt.2 (h.trans (b.le_place _)))]
    exact congrArg Identity.mk hvalue

end Supply

/-! ### The resource made again -/

namespace Building

/-- A mark changes neither the type of a property nor its history. -/
theorem exists_get?_mark {change : Property → Property}
    (hchange : ∀ p, (change p).type = p.type ∧ (change p).previousTypes = p.previousTypes)
    (names : List String) {properties : PropertyMap} {name : String} {p : Property}
    (h : Keyed.get? name properties = some p) :
    ∃ q, Keyed.get? name (mark change names properties) = some q ∧ q.type = p.type ∧
      q.previousTypes = p.previousTypes := by
  have hget := Keyed.get?_map (fun name p => if names.contains name then change p else p) name
    properties
  refine ⟨_, hget.trans (congrArg (Option.map _) h), ?_⟩
  split
  · exact hchange p
  · exact ⟨rfl, rfl⟩

theorem exists_get?_marked (document : Json) {properties : PropertyMap} {name : String}
    {p : Property} (h : Keyed.get? name properties = some p) :
    ∃ q, Keyed.get? name (marked document properties) = some q ∧ q.type = p.type ∧
      q.previousTypes = p.previousTypes := by
  have hreplacing : ∀ p, (replacing p).type = p.type ∧
      (replacing p).previousTypes = p.previousTypes := fun _ => ⟨rfl, rfl⟩
  have hdeprecating : ∀ p, (deprecating p).type = p.type ∧
      (deprecating p).previousTypes = p.previousTypes := fun _ => ⟨rfl, rfl⟩
  obtain ⟨created, hcreated, htype, hprevious⟩ := exists_get?_mark hreplacing _ h
  obtain ⟨q, hq, htype', hprevious'⟩ := exists_get?_mark hdeprecating _ hcreated
  exact ⟨q, hq, htype'.trans htype, hprevious'.trans hprevious⟩

theorem get?_remembering (db : Database) (old : PropertyMap) {properties : PropertyMap}
    (h : Keyed.Ascending properties) {entry : String × Property} (hentry : entry ∈ properties) :
    Keyed.get? entry.1 (remembering db old properties) =
      some (remember db old entry.1 entry.2) := by
  rw [remembering, Keyed.get?_map (fun name p => remember db old name p), h.get?_of_mem hentry]
  rfl

section Again

variable {db db' : Database} {f : Identity → Identity}

/-- What makes the next round of typing quiet: the types have the texts that they had, and what is
remembered of former types stays as it is. -/
structure Quiet (db db' : Database) (f : Identity → Identity) (old properties : PropertyMap) :
    Prop where
  ascending : Keyed.Ascending properties
  rendered : ∀ entry ∈ properties, ∃ text, db'.render entry.2.type = .ok text ∧
    db'.render (entry.2.type.rename f) = .ok text
  fixed : ∀ entry ∈ properties, ∀ type ∈ (remember db old entry.1 entry.2).previousTypes,
    type.rename f = type

/-- The history of properties that are typed again is the one they have. -/
theorem Quiet.remembering_again {old properties now : PropertyMap}
    (h : Quiet db db' f old properties)
    (hnow : ∀ entry ∈ properties, ∃ q, Keyed.get? entry.1 now = some q ∧ q.type = entry.2.type ∧
      q.previousTypes = (remember db old entry.1 entry.2).previousTypes) :
    remembering db' now (properties.rename f) =
      PropertyMap.rename f (remembering db old properties) := by
  rw [remembering, remembering, PropertyMap.rename, PropertyMap.rename, Keyed.mapValues,
    Keyed.mapValues, List.map_map, List.map_map]
  refine List.map_congr_left fun entry hentry => congrArg (Prod.mk entry.1) ?_
  obtain ⟨q, hq, htype, hprevious⟩ := hnow entry hentry
  obtain ⟨text, hbefore, hafter⟩ := h.rendered entry hentry
  have hupdate : q.updateType db' (entry.2.rename f).type = .ok (false, q) :=
    updateType_of_render_eq (htype ▸ hbefore) hafter
  have hfixed : (remember db old entry.1 entry.2).previousTypes.map (PropertyType.rename f) =
      (remember db old entry.1 entry.2).previousTypes :=
    (List.map_congr_left (h.fixed entry hentry)).trans (List.map_id _)
  dsimp only
  rw [remember, hq]
  dsimp only
  rw [hupdate, remember_eq db old, Property.rename, Property.rename]
  dsimp only
  rw [hfixed, hprevious]

variable {typeName : String} {legacy : Option LegacySpec} {document : Json} {old : Resource}
  {properties attributes : PropertyMap}

/-- A resource that is typed again is the same, apart from the definitions its types mention. -/
theorem renewed_again (hproperties : Quiet db db' f old.properties properties)
    (hattributes : Quiet db db' f old.attributes attributes) :
    renewed typeName legacy document db'
        (renewed typeName legacy document db old properties attributes)
        (properties.rename f) (attributes.rename f) =
      (renewed typeName legacy document db old properties attributes).rename f := by
  have hprop : remembering db' (marked document (remembering db old.properties properties))
      (properties.rename f) = PropertyMap.rename f (remembering db old.properties properties) := by
    refine hproperties.remembering_again fun entry hentry => ?_
    have hget := get?_remembering db old.properties hproperties.ascending hentry
    obtain ⟨q, hq, htype, hprevious⟩ := exists_get?_marked document hget
    exact ⟨q, hq, htype.trans ((keepsTypes_remember _ _ _ _).1), hprevious⟩
  have hattr : remembering db' (remembering db old.attributes attributes) (attributes.rename f) =
      PropertyMap.rename f (remembering db old.attributes attributes) := by
    refine hattributes.remembering_again fun entry hentry => ?_
    have hget := get?_remembering db old.attributes hattributes.ascending hentry
    exact ⟨_, hget, (keepsTypes_remember _ _ _ _).1, rfl⟩
  exact renewed_rename ⟨rfl, rfl, rfl⟩ hprop hattr

end Again

end Building

/-! ### Both imports -/

namespace Building

open Typing

/-- A document is imported, and then once more. -/
structure Twofold (typeName : String) (legacy : Option LegacySpec) (document : Json)
    (started : Builder) (r : Record Resource) (first : Findings) (once : Builder)
    (again : Findings) (twice : Builder) : Prop where
  consistent : started.database.Consistent started.supply
  mem : r ∈ started.database.resources.all
  before : Interpreted typeName legacy document started r first once
  after : Interpreted typeName legacy document once
    ⟨r.id, first.resource typeName legacy document r.entity⟩ again twice

section Twofold

variable {typeName : String} {legacy : Option LegacySpec} {document : Json}
  {started once twice : Builder} {r : Record Resource} {first again : Findings}
  (h : Twofold typeName legacy document started r first once again twice)

include h

theorem Twofold.exists_sketch :
    ∃ sketch, SameSketch (start started r.id) (start once r.id) first again sketch :=
  exists_sameSketch
    (s := ⟨r.id, first.resource typeName legacy document r.entity⟩) h.consistent
    h.before.consistent h.before h.after h.before.attributePointer

theorem Twofold.next_le : started.supply.next ≤ once.supply.next := by
  rw [h.before.supply]
  exact h.before.progress.later

/-- Definitions from before keep their identities. -/
theorem Twofold.shift_of_mem {id : Identity} (hid : id ∈ started.database.typeDefinitions.ids) :
    started.supply.shift once.supply id = id :=
  Supply.shift_of_lt (h.consistent.typeDefinitions.taken id hid)

variable {sketch : Sketch}
  (hs : SameSketch (start started r.id) (start once r.id) first again sketch)

include hs

theorem Twofold.sketched :
    Sketched typeName legacy document started r first once sketch :=
  ⟨h.consistent, h.mem, h.before, hs.named, hs.before⟩

theorem Twofold.sketched_again : Sketched typeName legacy document once
    ⟨r.id, first.resource typeName legacy document r.entity⟩ again twice sketch where
  consistent := h.before.consistent
  mem := by
    rw [h.before.resources]
    exact List.mem_map.2 ⟨r, h.mem, if_pos rfl⟩
  interpreted := h.after
  named := hs.named
  shows := hs.after

/-- After the first import the resource uses the definitions of the sketch. -/
theorem Twofold.mem_uses_iff {id : Identity} :
    id ∈ (once.database.usesType.outgoing r.id).map Edge.id ↔
      ∃ d ∈ sketch.definitions, started.supply.place d.id = id :=
  List.mem_map.trans (h.sketched hs).joins_self_iff

/-! ### The same resource -/

/-- A definition of the first import has the name of the one that is made in its place. -/
theorem Twofold.typeName_again {id : Identity} (hid : id ∈ first.typed.found) :
    ∃ name, again.typed.database.typeName id = .ok name ∧
      again.typed.database.typeName (started.supply.shift once.supply id) = .ok name := by
  obtain ⟨d, hd, rfl⟩ := ((h.sketched hs).mem_found_iff).1 hid
  have honce : d.rename started.supply.place ∈ once.database.typeDefinitions.all := by
    rw [(h.sketched hs).typeDefinitions]
    exact List.mem_append_right _ (List.mem_map_of_mem hd)
  have hget := Collection.get_of_mem h.after.progress.definitions.coherent.distinct
    (h.after.progress.old _ honce)
  refine ⟨d.entity.name, ?_, ?_⟩
  · change Except.map _ (again.typed.database.typeDefinitions.get
      (d.rename started.supply.place).id) = _
    rw [hget]
    rfl
  · rw [Supply.shift_place]
    exact hs.after.typeName_of_mem hd

/-- No type has another text than before, and only types from before are remembered. -/
theorem Twofold.quiet {old properties : PropertyMap}
    (hproperties : PropertiesWithin properties first.typed.found)
    (hold : PropertyMap.references old ⊆ started.database.typeDefinitions.ids) :
    Quiet first.typed.database again.typed.database (started.supply.shift once.supply) old
      properties where
  ascending := hproperties.ascending
  rendered entry hentry := by
    have hnames : ∀ id ∈ entry.2.type.references, ∃ name,
        again.typed.database.typeName id = .ok name ∧
          again.typed.database.typeName (started.supply.shift once.supply id) = .ok name :=
      fun id hid => h.typeName_again hs ((hproperties.within entry hentry).1 hid)
    obtain ⟨text, htext⟩ := entry.2.type.render_ok fun id hid =>
      (hnames id hid).imp fun _ hname => hname.1
    refine ⟨text, htext, ?_⟩
    rw [Database.render, PropertyType.render_rename, ← htext]
    refine PropertyType.render_congr _ fun id hid => ?_
    obtain ⟨name, hbefore, hafter⟩ := hnames id hid
    exact hafter.trans hbefore.symm
  fixed entry hentry type htype := by
    refine type.rename_eq_self fun id hid => h.shift_of_mem ?_
    obtain ⟨-, hprevious | ⟨before, hbefore, hprevious⟩⟩ :=
      keepsTypes_remember first.typed.database old entry.1 entry.2
    · rw [hprevious, (hproperties.within entry hentry).2] at htype
      exact absurd htype List.not_mem_nil
    · refine hold (List.mem_flatMap.2 ⟨before, hbefore, ?_⟩)
      rcases hprevious type htype with rfl | hmem
      · exact List.mem_append_left _ hid
      · exact List.mem_append_right _ (List.mem_flatMap.2 ⟨type, hmem, hid⟩)

/-- The second import makes the same resource, apart from identities. -/
theorem Twofold.resource_again :
    again.resource typeName legacy document
        (first.resource typeName legacy document r.entity) =
      (first.resource typeName legacy document r.entity).rename
        (started.supply.shift once.supply) := by
  obtain ⟨hproperties, hattributes⟩ :=
    List.append_subset.1 (h.consistent.references_subset h.mem)
  rw [Findings.resource, hs.properties.eq_rename, hs.attributes.eq_rename]
  exact renewed_again (h.quiet hs h.before.properties hproperties)
    (h.quiet hs h.before.attributes hattributes)

/-! ### The same definitions -/

/-- What the resource mentions then is not what it used after the first import. -/
theorem Twofold.not_used_of_mentioned {id : Identity}
    (hid : id ∈ ({ twice.database with
      typeDefinitions := again.typed.database.typeDefinitions } : Database).mentions
        ⟨r.id, again.resource typeName legacy document
          (first.resource typeName legacy document r.entity)⟩) :
    id ∉ (once.database.usesType.outgoing r.id).map Edge.id := by
  intro hused
  have honce : id ∈ once.database.typeDefinitions.ids := by
    obtain ⟨edge, hedge, rfl⟩ := List.mem_map.1 hused
    exact (h.before.consistent.usesType.ends r.id edge.id ⟨edge, hedge, rfl⟩).2
  rw [Database.mentions, List.mem_append] at hid
  rcases hid with hid | hid
  · rw [h.resource_again hs, Resource.rename, PropertyMap.references_rename,
      PropertyMap.references_rename, ← List.map_append] at hid
    obtain ⟨mentioned, hmentioned, rfl⟩ := List.mem_map.1 hid
    have hrenews : r.entity.Renews (first.resource typeName legacy document r.entity)
        first.typed.found := renews_renewed h.before.properties h.before.attributes
    rcases Resource.mem_references_slots.1 hmentioned with hcurrent | hprevious
    · obtain ⟨d, -, rfl⟩ :=
        ((h.sketched hs).mem_found_iff).1 (hrenews.current hcurrent)
      rw [Supply.shift_place] at honce
      exact hs.after.not_older honce
    · have hold := h.consistent.mem_ids_of_mentioned h.mem (hrenews.previous hprevious)
      rw [h.shift_of_mem hold, h.mem_uses_iff hs] at hused
      obtain ⟨d, -, rfl⟩ := hused
      exact hs.before.not_older hold
  · obtain ⟨edge, hedge, rfl⟩ := List.mem_map.1 hid
    have hjoins : again.typed.database.usesType.Joins r.id edge.id :=
      ⟨edge, h.after.usesType ▸ hedge, rfl⟩
    rcases (h.after.progress.joins_iff h.before.consistent).1 hjoins with hother | hnew
    · exact hother.1 rfl
    · exact h.after.progress.fresh _ hnew.2 honce

/-- What the resource used after the first import is not reached after the second. -/
theorem Twofold.not_live {id : Identity}
    (hid : id ∈ (once.database.usesType.outgoing r.id).map Edge.id) : id ∉ again.live := by
  have hprunable := h.after.progress.prunable h.before.consistent h.after.resources
  have houtside := h.after.live.least
    (· ∉ (once.database.usesType.outgoing r.id).map Edge.id)
    (fun d hd hout other hother hin => hout (hprunable.enclosed d hd other hother hin))
    fun _ hmentioned => h.not_used_of_mentioned hs hmentioned
  exact fun hlive => houtside id hlive hid

/-- After the second import the definitions of the first one are gone. -/
theorem Twofold.definitions_twice : twice.database.typeDefinitions.all =
    keptDefinitions started r.id first ++
      sketch.definitions.map (Record.rename once.supply.place) := by
  have hagain : again.typed.database.typeDefinitions.all =
      once.database.typeDefinitions.all ++
        sketch.definitions.map (Record.rename once.supply.place) := hs.after.definitions
  have hfilter : twice.database.typeDefinitions.all =
      again.typed.database.typeDefinitions.all.filter fun d =>
        d.id ∉ (once.database.usesType.outgoing r.id).map Edge.id := by
    rw [h.after.definitions]
    refine List.filter_congr fun d _ => decide_eq_decide.2 ?_
    exact ⟨fun hkept hused => h.not_live hs hused (hkept hused),
      fun hfree hused => absurd hused hfree⟩
  have hkept : ∀ d ∈ keptDefinitions started r.id first,
      d.id ∉ (once.database.usesType.outgoing r.id).map Edge.id := by
    intro d hd hused
    obtain ⟨sketched, -, hsame⟩ := (h.mem_uses_iff hs).1 hused
    have hold := Collection.mem_ids.2 ⟨d, (List.mem_filter.1 hd).1, rfl⟩
    exact hs.before.not_older (hsame ▸ hold)
  have hfirst : ∀ d ∈ sketch.definitions.map (Record.rename started.supply.place),
      d.id ∈ (once.database.usesType.outgoing r.id).map Edge.id := by
    intro d hd
    obtain ⟨sketched, hsketched, rfl⟩ := List.mem_map.1 hd
    exact (h.mem_uses_iff hs).2 ⟨sketched, hsketched, rfl⟩
  have hsecond : ∀ d ∈ sketch.definitions.map (Record.rename once.supply.place),
      d.id ∉ (once.database.usesType.outgoing r.id).map Edge.id := by
    intro d hd hused
    obtain ⟨sketched, -, rfl⟩ := List.mem_map.1 hd
    obtain ⟨edge, hedge, hsame⟩ := List.mem_map.1 hused
    exact hs.after.not_older
      (hsame ▸ (h.before.consistent.usesType.ends r.id edge.id ⟨edge, hedge, rfl⟩).2)
  rw [hfilter, hagain, (h.sketched hs).typeDefinitions, List.filter_append, List.filter_append,
    List.filter_eq_self.2 fun d hd => decide_eq_true (hkept d hd),
    List.filter_eq_nil_iff.2 fun d hd hfree => absurd (hfirst d hd) (of_decide_eq_true hfree),
    List.filter_eq_self.2 fun d hd => decide_eq_true (hsecond d hd), List.append_nil]

theorem Twofold.definitions_renamed : twice.database.typeDefinitions.all =
    once.database.typeDefinitions.all.map
      (Record.rename (started.supply.shift once.supply)) := by
  have hkept : (keptDefinitions started r.id first).map
      (Record.rename (started.supply.shift once.supply)) = keptDefinitions started r.id first := by
    refine (List.map_congr_left fun d hd => ?_).trans (List.map_id _)
    have hold := (List.mem_filter.1 hd).1
    exact Record.rename_eq_self (h.shift_of_mem (Collection.mem_ids.2 ⟨d, hold, rfl⟩))
      fun id hid => h.shift_of_mem (h.consistent.generations.together d hold id hid).1
  rw [h.definitions_twice hs, (h.sketched hs).typeDefinitions, List.map_append, hkept, List.map_map]
  congr 1
  refine List.map_congr_left fun d _ => ?_
  rw [Function.comp_apply, Record.rename_rename, Supply.shift_comp_place]

/-! ### The same database -/

/-- What other resources use was there before the first import. -/
theorem Twofold.outgoing_of_ne {other : Identity} (hother : other ≠ r.id) :
    once.database.usesType.outgoing other = started.database.usesType.outgoing other ∧
      twice.database.usesType.outgoing other = once.database.usesType.outgoing other :=
  ⟨(h.sketched hs).outgoing_of_ne hother, (h.sketched_again hs).outgoing_of_ne hother⟩

theorem Twofold.outgoing_twice (user : Identity) :
    twice.database.usesType.outgoing user =
      (once.database.usesType.outgoing user).map
        (Edge.rename (started.supply.shift once.supply)) := by
  by_cases huser : user = r.id
  · subst huser
    rw [(h.sketched_again hs).outgoing_self, (h.sketched hs).outgoing_self, List.map_map]
    refine List.map_congr_left fun edge _ => ?_
    rw [Function.comp_apply, Edge.rename, Edge.rename, Edge.rename]
    exact congrArg (Edge.mk · edge.attributes) (Supply.shift_place _ _ _).symm
  · obtain ⟨honce, htwice⟩ := h.outgoing_of_ne hs huser
    rw [htwice, honce]
    refine ((List.map_congr_left fun edge hedge => ?_).trans (List.map_id _)).symm
    rw [Edge.rename, h.shift_of_mem (h.consistent.usesType.ends user edge.id ⟨edge, hedge, rfl⟩).2]
    rfl

theorem Twofold.resources_twice : twice.database.resources.all =
    once.database.resources.all.map fun other =>
      ⟨other.id, other.entity.rename (started.supply.shift once.supply)⟩ := by
  rw [h.after.resources]
  refine List.map_congr_left fun other hother => ?_
  rcases h.before.mem_resources hother with rfl | ⟨hne, hold⟩
  · rw [if_pos rfl, h.resource_again hs]
  · rw [if_neg hne, Resource.rename_eq_self fun id hid =>
      h.shift_of_mem (h.consistent.references_subset hold hid)]

/-- After the second import the database is the one after the first, with other identities for the
definitions that the first has made. -/
theorem Twofold.renamed :
    once.database.Renamed (started.supply.shift once.supply) twice.database where
  services := by rw [h.after.kept]
  resources := h.resources_twice hs
  typeDefinitions := h.definitions_renamed hs
  regions := by rw [h.after.kept]
  hasResource := by rw [h.after.kept]
  usesType := h.outgoing_twice hs
  regionHasResource := by rw [h.after.kept]

end Twofold

end Building

end ResourceCatalog
