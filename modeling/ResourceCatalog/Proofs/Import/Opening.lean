import Mathlib
import ResourceCatalog.Proofs.Import.Interpretation
import ResourceCatalog.Proofs.Text.Segments

/-!
# Services and resources by name

An import opens its resource: the resource and its service are found or made under their names and
then linked. What this does is told here without identities. A name that is missing is put behind
the others, and the two names are linked. So it does not matter in which order resources are opened,
apart from the order of the names: a service is told by its name alone, and what is linked is a set.
-/

namespace ResourceCatalog

/-! ### The service of a type name -/

theorem Service.exists_segments {typeName : String} {service : Service}
    (h : Service.ofTypeName? typeName = some service) :
    ∃ organisation, Text.segments service.name = [organisation, service.shortName] := by
  rw [Service.ofTypeName?] at h
  split at h
  · next organisation short next rest hsegments =>
    split at h
    · cases h
    · obtain rfl := Option.some.inj h
      exact ⟨organisation, Text.segments_join hsegments⟩
  · cases h

/-- Two type names whose services have one name have the same service. -/
theorem Service.eq_of_name_eq {typeName typeName' : String} {service service' : Service}
    (h : Service.ofTypeName? typeName = some service)
    (h' : Service.ofTypeName? typeName' = some service') (hname : service.name = service'.name) :
    service = service' := by
  obtain ⟨organisation, hsegments⟩ := exists_segments h
  obtain ⟨organisation', hsegments'⟩ := exists_segments h'
  rw [hname, hsegments', List.cons.injEq, List.cons.injEq] at hsegments
  obtain ⟨name, shortName⟩ := service
  obtain ⟨name', shortName'⟩ := service'
  exact congrArg₂ Service.mk hname hsegments.2.1.symm

/-! ### What is missing -/

/-- A list with one more thing at its end, unless there is one of the same name. -/
def withMissing {α : Type} (name : α → String) (present : List α) (x : α) : List α :=
  if name x ∈ present.map name then present else present ++ [x]

section Missing

variable {α : Type} {name : α → String} {present : List α} {x y : α}

theorem mem_map_withMissing {key : String} :
    key ∈ (withMissing name present x).map name ↔ key ∈ present.map name ∨ key = name x := by
  rw [withMissing]
  split
  · next hthere => exact (or_iff_left_of_imp fun hkey => hkey ▸ hthere).symm
  · rw [List.map_append, List.mem_append, List.map_singleton, List.mem_singleton]

theorem withMissing_of_mem (h : name x ∈ present.map name) : withMissing name present x = present :=
  if_pos h

theorem withMissing_of_not_mem (h : name x ∉ present.map name) :
    withMissing name present x = present ++ [x] := if_neg h

/-- Things that are told by their names can be put in in any order. -/
theorem perm_withMissing_comm (h : name x = name y → x = y) :
    (withMissing name (withMissing name present x) y).Perm
      (withMissing name (withMissing name present y) x) := by
  by_cases hsame : name x = name y
  · rw [h hsame]
  · by_cases hx : name x ∈ present.map name
    · rw [withMissing_of_mem hx, withMissing_of_mem (mem_map_withMissing.2 (Or.inl hx))]
    · have hx' : name x ∉ (withMissing name present y).map name := fun hmem =>
        (mem_map_withMissing.1 hmem).elim hx hsame
      rw [withMissing_of_not_mem hx']
      by_cases hy : name y ∈ present.map name
      · rw [withMissing_of_mem hy, withMissing_of_not_mem hx, withMissing_of_mem]
        exact List.map_append ▸ List.mem_append_left _ hy
      · have hy' : name y ∉ (withMissing name present x).map name := fun hmem =>
          (mem_map_withMissing.1 hmem).elim hy (Ne.symm hsame)
        rw [withMissing_of_not_mem hy', withMissing_of_not_mem hx, withMissing_of_not_mem hy,
          List.append_assoc, List.append_assoc]
        exact List.Perm.append_left _ (List.Perm.swap y x [])

theorem perm_foldl_withMissing_comm {x? y? : Option α}
    (h : ∀ x ∈ x?, ∀ y ∈ y?, name x = name y → x = y) :
    (y?.toList.foldl (withMissing name) (x?.toList.foldl (withMissing name) present)).Perm
      (x?.toList.foldl (withMissing name) (y?.toList.foldl (withMissing name) present)) := by
  cases x? with
  | none => exact List.Perm.refl _
  | some x =>
    cases y? with
    | none => exact List.Perm.refl _
    | some y => exact perm_withMissing_comm (h x rfl y rfl)

/-- What is put behind others of other names was missing. -/
theorem eq_withMissing {present' : List α} (hunique : (present'.map name).Nodup)
    (hthere : name x ∈ present'.map name)
    (h : present' = present ∨ present' = present ++ [x]) : present' = withMissing name present x := by
  rcases h with rfl | rfl
  · exact (withMissing_of_mem hthere).symm
  · rw [List.map_append, List.nodup_append] at hunique
    refine (withMissing_of_not_mem fun hmem => ?_).symm
    exact hunique.2.2 _ hmem _ List.mem_cons_self rfl

end Missing

/-! ### Linked names -/

/-- A service is linked to a resource, both told by their names. -/
def Database.Linked (db : Database) (service typeName : String) : Prop :=
  ∃ s ∈ db.services.all, ∃ r ∈ db.resources.all,
    s.entity.name = service ∧ r.entity.typeName = typeName ∧ db.hasResource.Joins s.id r.id

section Linked

/-- All pairs of entities with an edge between them. -/
def Edges.pairs (edges : Edges Unit) : List (Identity × Identity) :=
  edges.forward.flatMap fun entry => entry.2.map fun edge => (entry.1, edge.id)

theorem Edges.Coherent.mem_pairs_iff {edges : Edges Unit} (h : edges.Coherent)
    {start target : Identity} : (start, target) ∈ edges.pairs ↔ edges.Joins start target := by
  rw [Edges.pairs, List.mem_flatMap]
  constructor
  · rintro ⟨entry, hentry, hpair⟩
    obtain ⟨edge, hedge, heq⟩ := List.mem_map.1 hpair
    obtain ⟨rfl, rfl⟩ := Prod.mk.inj heq
    exact h.mem_forward hentry hedge
  · rintro ⟨edge, hedge, rfl⟩
    exact ⟨_, Adjacency.mem_of_get_ne_nil (List.ne_nil_of_mem hedge), List.mem_map_of_mem hedge⟩

theorem Edges.Coherent.nodup_pairs {edges : Edges Unit} (h : edges.Coherent) :
    edges.pairs.Nodup := by
  refine List.nodup_flatMap.2 ⟨fun entry hentry => ?_, h.forward.ascending.imp fun hlt => ?_⟩
  · have hdistinct := h.distinct entry.1
    rw [Edges.outgoing, h.forward.get_eq_of_mem hentry] at hdistinct
    refine hdistinct.map_on ?_
    rintro ⟨a, _⟩ _ ⟨b, _⟩ _ hsame
    exact congrArg (Edge.mk · ()) (Prod.mk.inj hsame).2
  · intro pair hpair hpair'
    obtain ⟨edge, -, rfl⟩ := List.mem_map.1 hpair
    obtain ⟨edge', -, hsame⟩ := List.mem_map.1 hpair'
    rw [(Prod.mk.inj hsame).1] at hlt
    exact absurd hlt (lt_irrefl _)

theorem Edges.Coherent.length_pairs {edges : Edges Unit} (h : edges.Coherent) :
    edges.pairs.length = edges.size := by
  rw [Edges.size, h.counted, Edges.pairs, List.length_flatMap, List.length_flatMap]
  simp only [List.length_map]

variable {a b : Database} {supply supply' : Supply} (ha : a.Consistent supply)
  (hb : b.Consistent supply')

include ha hb

theorem Database.Consistent.size_hasResource_le
    (h : ∀ service typeName, a.Linked service typeName → b.Linked service typeName) :
    a.hasResource.size ≤ b.hasResource.size := by
  have hlinks := ha.hasResource.coherent
  have hlinks' := hb.hasResource.coherent
  rw [← hlinks.length_pairs, ← hlinks'.length_pairs,
    ← List.toFinset_card_of_nodup hlinks.nodup_pairs,
    ← List.toFinset_card_of_nodup hlinks'.nodup_pairs]
  -- a pair is related to the one of the same names
  refine Finset.card_le_card_of_forall_subsingleton
    (fun p q => ∃ s ∈ a.services.all, ∃ r ∈ a.resources.all, ∃ s' ∈ b.services.all,
      ∃ r' ∈ b.resources.all, p = (s.id, r.id) ∧ q = (s'.id, r'.id) ∧
        s.entity.name = s'.entity.name ∧ r.entity.typeName = r'.entity.typeName) ?_ ?_
  · rintro ⟨start, target⟩ hpair
    have hjoin := hlinks.mem_pairs_iff.1 (List.mem_toFinset.1 hpair)
    obtain ⟨hstart, htarget⟩ := ha.hasResource.ends start target hjoin
    obtain ⟨s, hs, rfl⟩ := Collection.mem_ids.1 hstart
    obtain ⟨r, hr, rfl⟩ := Collection.mem_ids.1 htarget
    obtain ⟨s', hs', r', hr', hname, hname', hjoin'⟩ := h _ _ ⟨s, hs, r, hr, rfl, rfl, hjoin⟩
    exact ⟨(s'.id, r'.id), List.mem_toFinset.2 (hlinks'.mem_pairs_iff.2 hjoin'),
      s, hs, r, hr, s', hs', r', hr', rfl, rfl, hname.symm, hname'.symm⟩
  · rintro _ - _ ⟨-, s, hs, r, hr, t, ht, u, hu, rfl, rfl, hname, hname'⟩ _
      ⟨-, s', hs', r', hr', t', ht', u', hu', rfl, heq, hother, hother'⟩
    obtain ⟨hid, hid'⟩ := Prod.mk.inj heq
    obtain rfl := Collection.eq_of_id_eq hb.services.coherent.distinct ht ht' hid
    obtain rfl := Collection.eq_of_id_eq hb.resources.coherent.distinct hu hu' hid'
    rw [List.inj_on_of_nodup_map ha.services.unique hs hs' (hname.trans hother.symm),
      List.inj_on_of_nodup_map ha.resources.unique hr hr' (hname'.trans hother'.symm)]

end Linked

/-! ### Opening a resource -/

namespace Building

section Opened

variable {before after : Database} {typeName : String} {r : Record Resource}
  {supply supply' : Supply} (h : Opened before typeName r after)
  (hstarted : Started after typeName r) (hafter : after.Consistent supply')

include h hstarted hafter

omit hstarted hafter in
theorem Opened.exists_services : ∃ new, after.services.all = before.services.all ∨
    after.services.all = before.services.all ++ [new] := by
  rcases h.services with hall | ⟨id, service, -, hall⟩
  · exact ⟨⟨r.id, default⟩, Or.inl hall⟩
  · exact ⟨⟨id, service⟩, Or.inr hall⟩

theorem Opened.typeNames : (after.resources.all.map fun r => r.entity.typeName) =
    withMissing id (before.resources.all.map fun r => r.entity.typeName) typeName := by
  refine eq_withMissing (by rw [List.map_id]; exact hafter.resources.unique) ?_
    (h.resources.imp (fun hall => by rw [hall]) fun hall => by rw [hall, List.map_append]; rfl)
  rw [List.map_id]
  exact List.mem_map.2 ⟨r, hstarted.resource, hstarted.name⟩

theorem Opened.serviceEntities : after.services.all.map Record.entity =
    (Service.ofTypeName? typeName).toList.foldl (withMissing Service.name)
      (before.services.all.map Record.entity) := by
  have hunique : ((after.services.all.map Record.entity).map Service.name).Nodup := by
    rw [List.map_map]
    exact hafter.services.unique
  cases hservice : Service.ofTypeName? typeName with
  | none =>
    rcases h.services with hall | ⟨_, _, hsome, _⟩
    · rw [hall]
      rfl
    · cases hservice.symm.trans hsome
  | some service =>
    refine eq_withMissing hunique ?_ ?_
    · obtain ⟨s, hs, hname, -⟩ := hstarted.service service hservice
      rw [List.map_map]
      exact List.mem_map.2 ⟨s, hs, hname⟩
    · rcases h.services with hall | ⟨id, other, hsome, hall⟩
      · exact Or.inl (by rw [hall])
      · obtain rfl := Option.some.inj (hservice.symm.trans hsome)
        exact Or.inr (by rw [hall, List.map_append]; rfl)

/-- The resource is linked to its service, and nothing else is linked anew. -/
theorem Opened.linked_iff (hbefore : before.Consistent supply) {service other : String} :
    after.Linked service other ↔ before.Linked service other ∨
      other = typeName ∧ ∃ s, Service.ofTypeName? typeName = some s ∧ s.name = service := by
  obtain ⟨new, hservices⟩ := h.exists_services
  constructor
  · rintro ⟨s, hs, r', hr', hname, hname', hjoin⟩
    rcases (h.links s.id r'.id).1 hjoin with hjoin | ⟨hsame, entity, hentity, s', hs', hname'', hid⟩
    · obtain ⟨hstart, htarget⟩ := hbefore.hasResource.ends _ _ hjoin
      exact Or.inl ⟨s,
        Collection.mem_of_mem_ids hservices hafter.services.coherent.distinct hs hstart, r',
        Collection.mem_of_mem_ids h.resources hafter.resources.coherent.distinct hr' htarget,
        hname, hname', hjoin⟩
    · obtain rfl := Collection.eq_of_id_eq hafter.resources.coherent.distinct hr'
        hstarted.resource hsame
      obtain rfl := Collection.eq_of_id_eq hafter.services.coherent.distinct hs' hs hid
      exact Or.inr ⟨hname'.symm.trans hstarted.name, entity, hentity, hname''.symm.trans hname⟩
  · rintro (⟨s, hs, r', hr', hname, hname', hjoin⟩ | ⟨rfl, entity, hentity, hname⟩)
    · exact ⟨s, Collection.subset_of_all hservices hs, r', Collection.subset_of_all h.resources hr',
        hname, hname', (h.links _ _).2 (Or.inl hjoin)⟩
    · obtain ⟨s, hs, hsname, hlink⟩ := hstarted.service entity hentity
      exact ⟨s, hs, r, hstarted.resource, hsname.trans hname, hstarted.name, ⟨_, hlink, rfl⟩⟩

end Opened

end Building

end ResourceCatalog
