import Mathlib
import ResourceCatalog.Proofs.Comparison.Counterparts
import ResourceCatalog.Proofs.Comparison.Faithful
import ResourceCatalog.Proofs.Import.Imported

/-!
# What an import leaves alone

An import touches its own resource only. `Keeps` says that a resource is in another database what it
was in the first one, under whatever identity: it says the same and uses the same definitions. Every
resource of another name is kept by an import. And where two databases have kept the resource that is
to be imported, opening it gives the same in both.
-/

namespace ResourceCatalog

/-- A resource of one database is there in another one, and it uses the same definitions. -/
structure Keeps (a b : Database) (r s : Record Resource) : Prop where
  entity : s.entity = r.entity
  uses : b.usesType.outgoing s.id = a.usesType.outgoing r.id
  definitions : ∀ d, b.Uses s.id d ↔ a.Uses r.id d

/-- Both databases have a resource of a name, or neither has, and if they do, the two agree. -/
structure Matched (typeName : String) (agree : Record Resource → Record Resource → Prop)
    (a b : Database) : Prop where
  there : (∃ r ∈ a.resources.all, r.entity.typeName = typeName) ↔
    ∃ s ∈ b.resources.all, s.entity.typeName = typeName
  agree : ∀ r ∈ a.resources.all, ∀ s ∈ b.resources.all, r.entity.typeName = typeName →
    s.entity.typeName = typeName → agree r s

section Keeps

variable {a b c : Database} {r s t : Record Resource}

theorem Keeps.refl (db : Database) (r : Record Resource) : Keeps db db r r :=
  ⟨rfl, rfl, fun _ => Iff.rfl⟩

theorem Keeps.symm (h : Keeps a b r s) : Keeps b a s r :=
  ⟨h.entity.symm, h.uses.symm, fun d => (h.definitions d).symm⟩

theorem Keeps.trans (h : Keeps a b r s) (h' : Keeps b c s t) : Keeps a c r t :=
  ⟨h'.entity.trans h.entity, h'.uses.trans h.uses,
    fun d => (h'.definitions d).trans (h.definitions d)⟩

theorem Keeps.joins_iff (h : Keeps a b r s) {id : Identity} :
    b.usesType.Joins s.id id ↔ a.usesType.Joins r.id id := by
  rw [Edges.Joins, Edges.Joins, h.uses]

/-- A definition that is used is found in both databases. -/
theorem Keeps.carried (h : Keeps a b r s) {supply : Supply} (ha : a.Consistent supply)
    (hb : b.typeDefinitions.ids.Nodup) {used : Identity} (hused : a.usesType.Joins r.id used) :
    Database.Carried id a b used := by
  obtain ⟨d, hd, rfl⟩ := Collection.mem_ids.1 (ha.usesType.ends _ _ hused).2
  have hd' : d ∈ b.typeDefinitions.all := ((h.definitions d).2 ⟨hd, hused⟩).1
  refine ⟨d, Collection.get_of_mem ha.typeDefinitions.coherent.distinct hd, ?_⟩
  exact (Collection.get_of_mem hb hd').trans (congrArg Except.ok (rename_id_record d).symm)

end Keeps

theorem Matched.imp {typeName : String} {agree agree' : Record Resource → Record Resource → Prop}
    {a b : Database} (h : Matched typeName agree a b)
    (himp : ∀ r ∈ a.resources.all, ∀ s, agree r s → agree' r s) : Matched typeName agree' a b :=
  ⟨h.there, fun r hr s hs hname hname' => himp r hr s (h.agree r hr s hs hname hname')⟩

theorem Matched.trans {typeName : String} {agree agree' : Record Resource → Record Resource → Prop}
    {a b c : Database} (h : Matched typeName agree a b) (h' : Matched typeName agree' b c) :
    Matched typeName (fun r t => ∃ s ∈ b.resources.all, agree r s ∧ agree' s t) a c where
  there := h.there.trans h'.there
  agree := by
    intro r hr t ht hname hname'
    obtain ⟨s, hs, hname''⟩ := h.there.1 ⟨r, hr, hname⟩
    exact ⟨s, hs, h.agree r hr s hs hname hname'', h'.agree s hs t ht hname'' hname'⟩

namespace Building

/-! ### Resources of other names -/

section Opened

variable {before after : Database} {typeName : String} {r : Record Resource}
  {supply supply' : Supply} (h : Opened before typeName r after)
  (hstarted : Started after typeName r) (hafter : after.Consistent supply')

include h

theorem Opened.keeps_self (other : Record Resource) : Keeps before after other other := by
  refine ⟨rfl, ?_, fun d => ?_⟩
  · rw [h.kept]
  · rw [h.kept]
    exact Iff.rfl

include hstarted hafter

theorem Opened.matched {other : String} (hother : other ≠ typeName) :
    Matched other (Keeps before after) before after where
  there := by
    have hnames : other ∈ (after.resources.all.map fun r => r.entity.typeName).map id ↔
        other ∈ (before.resources.all.map fun r => r.entity.typeName).map id := by
      rw [h.typeNames hstarted hafter, mem_map_withMissing, id_eq, or_iff_left hother]
    rw [List.map_id, List.map_id, List.mem_map, List.mem_map] at hnames
    exact hnames.symm
  agree := by
    intro r' hr' s hs hname hname'
    rw [List.inj_on_of_nodup_map hafter.resources.unique hs (Collection.subset_of_all h.resources hr')
      (hname'.trans hname.symm)]
    exact h.keeps_self r'

/-- A resource that was there is the one that is opened. -/
theorem Opened.eq_of_mem {other : Record Resource} (hother : other ∈ before.resources.all)
    (hname : other.entity.typeName = typeName) : other = r :=
  List.inj_on_of_nodup_map hafter.resources.unique (Collection.subset_of_all h.resources hother) hstarted.resource
    (hname.trans hstarted.name.symm)

/-- A resource that was not there says nothing yet and uses nothing. -/
theorem Opened.fresh (hbefore : before.Consistent supply)
    (hnone : ¬ ∃ r ∈ before.resources.all, r.entity.typeName = typeName) :
    r.entity = Resource.ofTypeName typeName ∧ after.usesType.outgoing r.id = [] := by
  have hnew : r ∉ before.resources.all := fun hr => hnone ⟨r, hr, hstarted.name⟩
  constructor
  · rcases h.resources with hall | hall
    · exact absurd (hall ▸ hstarted.resource) hnew
    · have hr := hstarted.resource
      rw [hall, List.mem_append, List.mem_singleton] at hr
      exact congrArg Record.entity (hr.resolve_left hnew)
  · have huses : after.usesType = before.usesType := by rw [h.kept]
    rw [huses, List.eq_nil_iff_forall_not_mem]
    intro edge hedge
    have hid := (hbefore.usesType.ends r.id edge.id ⟨edge, hedge, rfl⟩).1
    exact hnew (Collection.mem_of_mem_ids h.resources hafter.resources.coherent.distinct
      hstarted.resource hid)

end Opened

/-- Where a resource has been kept, opening it gives the same. -/
theorem Opened.keeps {a b after after' : Database} {typeName : String} {r s : Record Resource}
    {supplyA supplyB supply supply' : Supply} (h : Opened a typeName r after)
    (h' : Opened b typeName s after') (hr : Started after typeName r)
    (hs : Started after' typeName s) (ha : a.Consistent supplyA) (hb : b.Consistent supplyB)
    (hafter : after.Consistent supply) (hafter' : after'.Consistent supply')
    (hmatched : Matched typeName (Keeps a b) a b) : Keeps after after' r s := by
  by_cases hthere : ∃ r ∈ a.resources.all, r.entity.typeName = typeName
  · obtain ⟨s', hs', hname'⟩ := hmatched.there.1 hthere
    obtain ⟨r', hr', hname⟩ := hthere
    have hkept := hmatched.agree r' hr' s' hs' hname hname'
    rw [h.eq_of_mem hr hafter hr' hname, h'.eq_of_mem hs hafter' hs' hname'] at hkept
    exact ((h.keeps_self r).symm.trans hkept).trans (h'.keeps_self s)
  · obtain ⟨hentity, hnone⟩ := h.fresh hr hafter ha hthere
    obtain ⟨hentity', hnone'⟩ := h'.fresh hs hafter' hb (mt hmatched.there.2 hthere)
    have hunused : ∀ {db : Database} {resource : Identity},
        db.usesType.outgoing resource = [] → ∀ d, ¬ db.Uses resource d := by
      rintro db resource huses d ⟨-, edge, hedge, -⟩
      exact List.not_mem_nil (huses ▸ hedge)
    exact ⟨hentity'.trans hentity.symm, hnone'.trans hnone.symm, fun d =>
      iff_of_false (hunused hnone' d) (hunused hnone d)⟩

section Sketched

variable {typeName : String} {legacy : Option LegacySpec} {document : Json}
  {started left : Builder} {r : Record Resource} {found : Findings} {sketch : Typing.Sketch}
  (h : Sketched typeName legacy document started r found left sketch)

include h

theorem Sketched.keeps_self {other : Record Resource} (hother : other.id ≠ r.id) :
    Keeps started.database left.database other other where
  entity := rfl
  uses := h.outgoing_of_ne hother
  definitions d := by
    rw [Database.Uses, Database.Uses, Edges.Joins, h.outgoing_of_ne hother]
    refine and_congr_left fun huse => ⟨fun hd => ?_, fun hd => ?_⟩
    · exact h.mem_of_mem_ids hd (h.consistent.usesType.ends _ _ huse).2
    · rw [h.typeDefinitions, List.mem_append, keptDefinitions, List.mem_filter, decide_eq_true_eq]
      refine Or.inl ⟨hd, fun hused => absurd ?_ hother⟩
      exact h.consistent.generations.oneUser _ _ _ huse (List.mem_map.1 hused)

/-- The resource of the name that is imported is the one that has been made. -/
theorem Sketched.eq_of_typeName (hname : r.entity.typeName = typeName) {other : Record Resource}
    (hother : other ∈ left.database.resources.all) (hname' : other.entity.typeName = typeName) :
    other = ⟨r.id, found.resource typeName legacy document r.entity⟩ := by
  refine (h.interpreted.mem_resources hother).resolve_right fun ⟨hne, hold⟩ => hne ?_
  rw [List.inj_on_of_nodup_map h.consistent.resources.unique hold h.mem (hname'.trans hname.symm)]

theorem Sketched.matched (hname : r.entity.typeName = typeName) {other : String}
    (hother : other ≠ typeName) :
    Matched other (Keeps started.database left.database) started.database left.database where
  there := (h.exists_resource_iff fun _ name => name = other).symm
  agree := by
    intro r' hr' s hs hname' hname''
    rcases h.interpreted.mem_resources hs with rfl | ⟨hne, hs⟩
    · exact absurd (hname''.symm.trans hname) hother
    · rw [List.inj_on_of_nodup_map h.consistent.resources.unique hs hr'
        (hname''.trans hname'.symm)] at hne ⊢
      exact h.keeps_self hne

end Sketched

/-- An import keeps the resources of other names. -/
theorem Imported.matched {typeName : String} {legacy : Option LegacySpec} {before left : Builder}
    {document? : Option Json} {supply : Supply}
    (h : Imported typeName legacy before left document?)
    (hbefore : before.database.Consistent supply) {other : String} (hother : other ≠ typeName) :
    Matched other (Keeps before.database left.database) before.database left.database := by
  cases h with
  | ignored h =>
    rw [h]
    refine ⟨Iff.rfl, fun r hr s hs hname hname' => ?_⟩
    rw [List.inj_on_of_nodup_map hbefore.resources.unique hr hs (hname.trans hname'.symm)]
    exact Keeps.refl _ _
  | interpreted hopened hstarted hpointer hsketch =>
    refine ((hopened.matched hstarted hsketch.consistent hother).trans
      (hsketch.matched hstarted.name hother)).imp ?_
    rintro r - s ⟨_, -, hkept, hkept'⟩
    exact hkept.trans hkept'

end Building

namespace Comparison

/-- A resource that is kept is compared as before. -/
theorem counterpart_of_keeps {a b : Database} {r s : Record Resource} {supply : Supply}
    (h : Keeps a b r s) (ha : a.Consistent supply) (hb : b.typeDefinitions.ids.Nodup)
    (hr : r ∈ a.resources.all) : Counterpart id a b r s :=
  counterpart_of_used ha hr (h.entity.trans r.entity.rename_id.symm)
    (h.uses.trans (List.map_id _).symm) fun _ hused => h.carried ha hb hused

end Comparison

end ResourceCatalog
