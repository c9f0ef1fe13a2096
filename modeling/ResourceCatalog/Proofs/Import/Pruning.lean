import Mathlib
import ResourceCatalog.Proofs.Catalog.Consistency
import ResourceCatalog.Proofs.Computation

/-!
# Pruning leaves no gaps

What is found by following references is the least set that is closed under them, so what it misses
is mentioned only by definitions that are missed as well. Pruning removes candidates that are missed:
in a consistent database this leaves every mention an entity, provided that nobody uses the
candidates, that a definition which mentions a candidate is one, and that no other resource remembers
one.
-/

namespace ResourceCatalog

/-! ### What is reached -/

/-- Following references ends with a closed set of definitions. The invariant is that what is known
mentions only what is known or pending. -/
theorem reach_ok {c : Collection TypeDefinition} (hc : c.ids.Nodup)
    (hmentions : ∀ d ∈ c.all, PropertyMap.references d.entity.properties ⊆ c.ids)
    (known pending : List Identity) (hpending : pending ⊆ c.ids)
    (hknown : ∀ d ∈ c.all, d.id ∈ known → ∀ id ∈ PropertyMap.references d.entity.properties,
      id ∈ known ∨ id ∈ pending) :
    ∃ live, reach c known pending = .ok live ∧ known ⊆ live ∧ pending ⊆ live ∧
      ∀ d ∈ c.all, d.id ∈ live → PropertyMap.references d.entity.properties ⊆ live := by
  fun_induction reach c known pending with
  | case1 known =>
    refine ⟨known, rfl, List.Subset.refl _, List.nil_subset _, fun d hd hlive id hid => ?_⟩
    exact (hknown d hd hlive id hid).resolve_right List.not_mem_nil
  | case2 known id pending hid ih =>
    have hrest : ∀ d ∈ c.all, d.id ∈ known →
        ∀ other ∈ PropertyMap.references d.entity.properties, other ∈ known ∨ other ∈ pending := by
      intro d hd hlive other hother
      rcases hknown d hd hlive other hother with hother | hother
      · exact Or.inl hother
      · rcases List.mem_cons.1 hother with rfl | hother
        · exact Or.inl hid
        · exact Or.inr hother
    obtain ⟨live, hok, hsub, hpend, hclosed⟩ :=
      ih (List.Subset.trans (List.subset_cons_self _ _) hpending) hrest
    exact ⟨live, hok, hsub, List.cons_subset.2 ⟨hsub hid, hpend⟩, hclosed⟩
  | case3 known id pending hid hnone =>
    obtain ⟨before, row, behind, hsplit, hsome, _⟩ :=
      Collection.exists_row hc (hpending List.mem_cons_self)
    rw [hnone] at hsome
    cases hsome
  | case4 known id pending hid row hrow _ ih =>
    obtain ⟨before, row', behind, hsplit, hsome, hrowid, _⟩ :=
      Collection.exists_row hc (hpending List.mem_cons_self)
    rw [hrow, Option.some.injEq] at hsome
    subst hsome
    have hmem : row.record ∈ c.all := by
      rw [Collection.all, hsplit]
      exact List.mem_map_of_mem (List.mem_append_right _ List.mem_cons_self)
    have hnext : (PropertyMap.references row.record.entity.properties).reverse ++ pending ⊆
        c.ids := by
      refine List.append_subset.2 ⟨fun other hother => ?_,
        List.Subset.trans (List.subset_cons_self _ _) hpending⟩
      exact hmentions _ hmem (List.mem_reverse.1 hother)
    have hstep : ∀ d ∈ c.all, d.id ∈ id :: known →
        ∀ other ∈ PropertyMap.references d.entity.properties, other ∈ id :: known ∨
          other ∈ (PropertyMap.references row.record.entity.properties).reverse ++ pending := by
      intro d hd hlive other hother
      rcases List.mem_cons.1 hlive with hsame | hlive
      · have hrecord : d = row.record :=
          Collection.eq_of_id_eq hc hd hmem (hsame.trans hrowid.symm)
        exact Or.inr (List.mem_append_left _ (List.mem_reverse.2 (hrecord ▸ hother)))
      · rcases hknown d hd hlive other hother with hother | hother
        · exact Or.inl (List.mem_cons_of_mem _ hother)
        · rcases List.mem_cons.1 hother with rfl | hother
          · exact Or.inl List.mem_cons_self
          · exact Or.inr (List.mem_append_right _ hother)
    obtain ⟨live, hok, hsub, hpend, hclosed⟩ := ih hnext hstep
    refine ⟨live, hok, List.Subset.trans (List.subset_cons_self _ _) hsub, ?_, hclosed⟩
    refine List.cons_subset.2 ⟨hsub List.mem_cons_self, ?_⟩
    exact List.Subset.trans (List.subset_append_right _ _) hpend

/-- What is found keeps to any closed set that it starts in. -/
theorem reach_subset {c : Collection TypeDefinition} {inside : Identity → Prop}
    (hclosed : ∀ d ∈ c.all, inside d.id →
      ∀ id ∈ PropertyMap.references d.entity.properties, inside id)
    {known pending live : List Identity} (h : reach c known pending = .ok live)
    (hknown : ∀ id ∈ known, inside id) (hpending : ∀ id ∈ pending, inside id) :
    ∀ id ∈ live, inside id := by
  fun_induction reach c known pending with
  | case1 known => exact Except.ok.inj h ▸ hknown
  | case2 known id pending hid ih =>
    exact ih h hknown fun other hother => hpending other (List.mem_cons_of_mem _ hother)
  | case3 known id pending hid hnone => cases h
  | case4 known id pending hid row hrow _ ih =>
    obtain ⟨hfirst, hrest⟩ := List.forall_mem_cons.1 hpending
    have hmem : row.record ∈ c.all := List.mem_map_of_mem (List.mem_of_find?_eq_some hrow)
    have hrowid : row.record.id = id := by simpa using List.find?_some hrow
    refine ih h (List.forall_mem_cons.2 ⟨hfirst, hknown⟩) fun other hother => ?_
    rcases List.mem_append.1 hother with hother | hother
    · exact hclosed _ hmem (hrowid ▸ hfirst) other (List.mem_reverse.1 hother)
    · exact hrest other hother

/-- The definitions that a record reaches: the least closed set with those it mentions. -/
structure Database.Live (db : Database) (r : Record Resource) (live : List Identity) : Prop where
  mentioned : db.mentions r ⊆ live
  closed : ∀ d ∈ db.typeDefinitions.all, d.id ∈ live →
    PropertyMap.references d.entity.properties ⊆ live
  least : ∀ inside : Identity → Prop, (∀ d ∈ db.typeDefinitions.all, inside d.id →
    ∀ id ∈ PropertyMap.references d.entity.properties, inside id) →
    (∀ id ∈ db.mentions r, inside id) → ∀ id ∈ live, inside id

/-! ### The order of removal -/

theorem mem_place {id other : Identity} {sorted : List Identity} :
    other ∈ ascending.place id sorted ↔ other = id ∨ other ∈ sorted := by
  induction sorted with
  | nil => rw [ascending.place, List.mem_cons]
  | cons first rest ih =>
    rw [ascending.place]
    split
    · next hsame =>
      rw [hsame, List.mem_cons]
      tauto
    · split
      · rw [List.mem_cons]
      · rw [List.mem_cons, List.mem_cons, ih]
        tauto

theorem pairwise_place {id : Identity} {sorted : List Identity}
    (h : sorted.Pairwise fun a b => a.value < b.value) :
    (ascending.place id sorted).Pairwise fun a b => a.value < b.value := by
  induction sorted with
  | nil => exact List.pairwise_singleton _ _
  | cons first rest ih =>
    obtain ⟨hhead, htail⟩ := List.pairwise_cons.1 h
    rw [ascending.place]
    split
    · exact h
    · next hne =>
      split
      · next hlt =>
        refine List.pairwise_cons.2 ⟨fun other hother => ?_, h⟩
        rcases List.mem_cons.1 hother with rfl | hother
        · exact hlt
        · exact lt_trans hlt (hhead other hother)
      · next hlt =>
        refine List.pairwise_cons.2 ⟨fun other hother => ?_, ih htail⟩
        rcases mem_place.1 hother with rfl | hother
        · refine lt_of_le_of_ne (not_lt.1 hlt) fun heq => hne ?_
          cases other
          cases first
          exact congrArg Identity.mk heq.symm
        · exact hhead other hother

theorem ascending_eq (ids : List Identity) :
    (ascending ids).Nodup ∧ ∀ id, id ∈ ascending ids ↔ id ∈ ids := by
  have hgeneral : ∀ sorted : List Identity, (sorted.Pairwise fun a b => a.value < b.value) →
      ((ids.foldl (fun sorted id => ascending.place id sorted) sorted).Pairwise
        fun a b => a.value < b.value) ∧
      ∀ id, id ∈ ids.foldl (fun sorted id => ascending.place id sorted) sorted ↔
        id ∈ ids ∨ id ∈ sorted := by
    induction ids with
    | nil => exact fun sorted h => ⟨h, fun id => by simp⟩
    | cons first rest ih =>
      intro sorted h
      obtain ⟨hpairwise, hmem⟩ := ih (ascending.place first sorted) (pairwise_place h)
      refine ⟨hpairwise, fun id => ?_⟩
      rw [List.foldl_cons, hmem, mem_place, List.mem_cons]
      tauto
  obtain ⟨hpairwise, hmem⟩ := hgeneral [] List.Pairwise.nil
  refine ⟨hpairwise.imp fun hlt heq => absurd (heq ▸ hlt) (lt_irrefl _), fun id => ?_⟩
  rw [ascending, hmem]
  simp

theorem ends_removeDefinitions {ids : List Identity} (hids : ids.Nodup) {db : Database}
    (h : db.typeDefinitions.Coherent) (hpresent : ids ⊆ db.typeDefinitions.ids) :
    Ends (removeDefinitions ids) db
      (fun _ left => left = { db with typeDefinitions := left.typeDefinitions } ∧
        left.typeDefinitions.Coherent ∧
        left.typeDefinitions.all = db.typeDefinitions.all.filter fun d => d.id ∉ ids)
      (fun _ _ => False) := by
  induction ids generalizing db with
  | nil =>
    refine ends_pure.2 ⟨rfl, h, (List.filter_eq_self.2 fun d _ => ?_).symm⟩
    simp
  | cons id rest ih =>
    obtain ⟨hnot, hrest⟩ := List.nodup_cons.1 hids
    obtain ⟨r, c, hok, hcoherent, hall⟩ := Collection.remove_eq_ok h (hpresent List.mem_cons_self)
    have hstill : rest ⊆ c.ids := by
      intro other hother
      obtain ⟨d, hd, rfl⟩ := Collection.mem_ids.1 (hpresent (List.mem_cons_of_mem _ hother))
      refine Collection.mem_ids.2 ⟨d, ?_, rfl⟩
      rw [hall, List.mem_filter, decide_eq_true_eq]
      exact ⟨hd, fun hsame => hnot (hsame ▸ hother)⟩
    rw [removeDefinitions, ends_bind, ends_get, hok]
    have hdb : ({ db with typeDefinitions := c } : Database).typeDefinitions.Coherent := hcoherent
    refine (ih hrest hdb hstill).mono ?_ fun _ _ h => h
    rintro _ left ⟨hleft, hcoherent', hall'⟩
    refine ⟨hleft, hcoherent', ?_⟩
    rw [hall', hall, List.filter_filter]
    refine List.filter_congr fun d _ => ?_
    rw [Bool.eq_iff_iff, Bool.and_eq_true, decide_eq_true_eq, decide_eq_true_eq,
      decide_eq_true_eq, List.mem_cons, not_or, and_comm]

/-! ### Pruning -/

/-- Some definitions can go as far as they are not reached: they are there, nobody uses them, they
are mentioned only by each other, and apart from one resource none remembers them. -/
structure Database.Prunable (db : Database) (resource : Identity)
    (candidates : List Identity) : Prop where
  present : candidates ⊆ db.typeDefinitions.ids
  unused : ∀ id ∈ candidates, ∀ user, ¬ db.usesType.Joins user id
  enclosed : ∀ d ∈ db.typeDefinitions.all,
    ∀ id ∈ PropertyMap.references d.entity.properties, id ∈ candidates → d.id ∈ candidates
  forgotten : ∀ r ∈ db.resources.all, r.id ≠ resource →
    ∀ id ∈ r.entity.previousReferences, id ∉ candidates

theorem Database.Consistent.mentions_subset {db : Database} {supply : Supply}
    (h : db.Consistent supply) {r : Record Resource} (hr : r ∈ db.resources.all) :
    db.mentions r ⊆ db.typeDefinitions.ids := by
  intro id hid
  rw [Database.mentions, List.mem_append] at hid
  rcases hid with hid | hid
  · exact h.references_subset hr hid
  · obtain ⟨edge, hedge, rfl⟩ := List.mem_map.1 hid
    exact (h.usesType.ends _ _ ⟨edge, hedge, rfl⟩).2

theorem Database.Consistent.live_ok {db : Database} {supply : Supply} (h : db.Consistent supply)
    {r : Record Resource} (hr : r ∈ db.resources.all) :
    ∃ live, reach db.typeDefinitions [] (db.mentions r).reverse = .ok live ∧ db.Live r live := by
  obtain ⟨live, hlive, _, hmentioned, hclosed⟩ :=
    reach_ok h.typeDefinitions.coherent.distinct
      (fun d hd id hid => (h.generations.together d hd id hid).1) [] (db.mentions r).reverse
      (fun id hid => h.mentions_subset hr (List.mem_reverse.1 hid))
      (fun d _ hknown => absurd hknown List.not_mem_nil)
  refine ⟨live, hlive, ⟨fun id hid => hmentioned (List.mem_reverse.2 hid), hclosed, ?_⟩⟩
  intro inside hinside hmentions
  exact reach_subset hinside hlive (fun _ hid => absurd hid List.not_mem_nil)
    fun id hid => hmentions id (List.mem_reverse.1 hid)

/-- Pruning does not fail. Of the candidates it leaves those that the resource reaches. -/
theorem ends_prune {db : Database} {supply : Supply} (h : db.Consistent supply)
    {r : Record Resource} (hr : r ∈ db.resources.all) {live : List Identity}
    (hlive : reach db.typeDefinitions [] (db.mentions r).reverse = .ok live)
    {candidates : List Identity} (hpresent : candidates ⊆ db.typeDefinitions.ids) :
    Ends (prune r.id candidates) db
      (fun _ left => left = { db with typeDefinitions := left.typeDefinitions } ∧
        left.typeDefinitions.Coherent ∧
        left.typeDefinitions.all =
          db.typeDefinitions.all.filter fun d => d.id ∈ candidates → d.id ∈ live)
      (fun _ _ => False) := by
  obtain ⟨hnodup, hmem⟩ := ascending_eq candidates
  have hremoved : ∀ id, id ∈ (ascending candidates).filter (fun id => !live.contains id) ↔
      id ∈ candidates ∧ id ∉ live := by
    intro id
    rw [List.mem_filter, hmem, Bool.not_eq_true', ← Bool.not_eq_true, List.contains_iff_mem]
  rw [prune, ends_bind, ends_get, ends_bind, Collection.get_of_mem h.resources.coherent.distinct hr,
    ends_lift_ok, ends_bind, hlive, ends_lift_ok]
  refine (ends_removeDefinitions (hnodup.filter _) h.typeDefinitions.coherent fun id hid =>
    hpresent ((hremoved id).1 hid).1).mono ?_ fun _ _ h => h
  rintro _ left ⟨hleft, hcoherent, hall⟩
  refine ⟨hleft, hcoherent, hall.trans (List.filter_congr fun d _ => ?_)⟩
  rw [Bool.eq_iff_iff, decide_eq_true_eq, decide_eq_true_eq, hremoved, not_and, not_not]

/-- A database that has been pruned is consistent. -/
theorem Database.Consistent.pruned {db : Database} {supply : Supply} (h : db.Consistent supply)
    {r : Record Resource} (hr : r ∈ db.resources.all) {live candidates : List Identity}
    (hlive : db.Live r live) (hprunable : db.Prunable r.id candidates)
    {c : Collection TypeDefinition} (hc : c.Coherent)
    (hall : c.all = db.typeDefinitions.all.filter fun d => d.id ∈ candidates → d.id ∈ live) :
    ({ db with typeDefinitions := c } : Database).Consistent supply := by
  have hkept : ∀ d, d ∈ c.all ↔
      d ∈ db.typeDefinitions.all ∧ (d.id ∈ candidates → d.id ∈ live) := by
    intro d
    rw [hall, List.mem_filter, decide_eq_true_eq]
  have hstays : ∀ id ∈ db.typeDefinitions.ids, (id ∈ candidates → id ∈ live) → id ∈ c.ids := by
    intro id hid hsafe
    obtain ⟨d, hd, rfl⟩ := Collection.mem_ids.1 hid
    exact Collection.mem_ids.2 ⟨d, (hkept d).2 ⟨hd, hsafe⟩, rfl⟩
  exact { h with
    typeDefinitions := by
      refine ⟨hc, fun id hid => ?_⟩
      obtain ⟨d, hd, rfl⟩ := Collection.mem_ids.1 hid
      exact h.typeDefinitions.taken _ (Collection.mem_ids.2 ⟨d, ((hkept d).1 hd).1, rfl⟩)
    usesType := by
      refine ⟨h.usesType.coherent, fun user id hjoin => ?_⟩
      obtain ⟨huser, hid⟩ := h.usesType.ends user id hjoin
      exact ⟨huser, hstays id hid fun hcandidate =>
        absurd hjoin (hprunable.unused id hcandidate user)⟩
    generations := {
      current := h.generations.current
      oneUser := h.generations.oneUser
      previous := by
        intro other hother id hid
        obtain ⟨hpresent, hunused⟩ := h.generations.previous other hother id hid
        refine ⟨hstays id hpresent fun hcandidate => ?_, hunused⟩
        by_cases hsame : other.id = r.id
        · obtain rfl := Collection.eq_of_id_eq h.resources.coherent.distinct hother hr hsame
          refine hlive.mentioned (List.mem_append_left _ ?_)
          exact Resource.mem_references_slots.2 (Or.inr hid)
        · exact absurd hcandidate (hprunable.forgotten other hother hsame id hid)
      together := by
        intro d hd id hid
        obtain ⟨hdb, hsafe⟩ := (hkept d).1 hd
        obtain ⟨hpresent, hjoins⟩ := h.generations.together d hdb id hid
        refine ⟨hstays id hpresent fun hcandidate => ?_, hjoins⟩
        exact hlive.closed d hdb (hsafe (hprunable.enclosed d hdb id hid hcandidate)) hid }
    arranged :=
      ⟨h.arranged.resources, fun d hd => h.arranged.definitions d ((hkept d).1 hd).1⟩ }

end ResourceCatalog
