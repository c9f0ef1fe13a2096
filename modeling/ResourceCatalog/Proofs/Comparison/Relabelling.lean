import Mathlib
import ResourceCatalog.Comparison.Rendering
import ResourceCatalog.Proofs.Comparison.Counterparts

/-!
# Comparisons do not see identities

A database is copied so that every entity has another identity, in its record, at the ends of edges
and wherever types mention it. The copy is the same database to a comparison: if all that two
databases mention is found in them, their copies are compared with the same outcome, whichever new
identities each of them has, and between a database and its copy nothing is different.
-/

namespace ResourceCatalog

/-- The second database is a copy of the first one, with other identities throughout. -/
structure Database.Relabelled (f : Identity → Identity) (a b : Database) : Prop where
  services : b.services.all = a.services.all.map fun s => ⟨f s.id, s.entity⟩
  resources : b.resources.all = a.resources.all.map fun r => ⟨f r.id, r.entity.rename f⟩
  typeDefinitions : b.typeDefinitions.all = a.typeDefinitions.all.map (Record.rename f)
  regions : b.regions.all = a.regions.all.map fun r => ⟨f r.id, r.entity⟩
  hasResource : ∀ start, b.hasResource.outgoing (f start) =
    (a.hasResource.outgoing start).map (Edge.rename f)
  usesType : ∀ start, b.usesType.outgoing (f start) =
    (a.usesType.outgoing start).map (Edge.rename f)
  regionHasResource : ∀ start, b.regionHasResource.outgoing (f start) =
    (a.regionHasResource.outgoing start).map (Edge.rename f)

/-- The first record with an identity is the first one in the copy, too. -/
theorem Collection.get_rename {f : Identity → Identity} (hf : Function.Injective f)
    {c c' : Collection TypeDefinition} (h : c'.all = c.all.map (Record.rename f)) {id : Identity}
    {d : Record TypeDefinition} (hd : c.get id = .ok d) : c'.get (f id) = .ok (d.rename f) := by
  rw [get_eq_find?] at hd ⊢
  have hsame : (fun r : Record TypeDefinition => r.id == f id) ∘ Record.rename f =
      fun r => r.id == id := by
    funext r
    rw [Function.comp_apply, Record.rename, Bool.eq_iff_iff, beq_iff_eq, beq_iff_eq]
    exact hf.eq_iff
  rw [h, List.find?_map, hsame]
  cases hfound : c.all.find? fun r => r.id == id with
  | none =>
    rw [hfound] at hd
    cases hd
  | some found =>
    rw [hfound] at hd
    obtain rfl : found = d := Except.ok.inj hd
    rfl

namespace Comparison

/-! ### What is mentioned is found -/

section Resolving

variable {α β : Type} {compare : String → α → α → Except GraphError (Option β)}

theorem updates_ok {old new : Keyed α}
    (h : ∀ key before after, (key, before) ∈ old → (key, after) ∈ new →
      ∃ update?, compare key before after = .ok update?) :
    ∃ found, updates compare new old = .ok found := by
  induction old with
  | nil => exact ⟨[], rfl⟩
  | cons entry rest ih =>
    obtain ⟨found, hfound⟩ := ih fun key before after hbefore =>
      h key before after (List.mem_cons_of_mem _ hbefore)
    rw [updates, hfound]
    cases hafter : Keyed.get? entry.1 new with
    | none => exact ⟨_, rfl⟩
    | some after =>
      obtain ⟨update?, hupdate⟩ := h _ _ _ List.mem_cons_self (Keyed.mem_of_get? hafter)
      exact ⟨update?.toList ++ found, by dsimp only; rw [hupdate]; rfl⟩

theorem keyed_ok {old new : Keyed α}
    (h : ∀ key before after, (key, before) ∈ old → (key, after) ∈ new →
      ∃ update?, compare key before after = .ok update?) :
    ∃ change, keyed compare old new = .ok change := by
  obtain ⟨found, hfound⟩ := updates_ok h
  exact ⟨_, by rw [keyed, hfound]; rfl⟩

variable {a b : Database}

theorem properties_ok {before after : PropertyMap}
    (hbefore : ∀ id ∈ PropertyMap.references before, a.typeDefinitions.contains id = true)
    (hafter : ∀ id ∈ PropertyMap.references after, b.typeDefinitions.contains id = true) :
    ∃ change, properties a b before after = .ok change := by
  refine keyed_ok fun key p q hp hq => ?_
  obtain ⟨text, htext⟩ := exists_text p.type fun id hid =>
    hbefore id (List.mem_flatMap.2 ⟨p, List.mem_map_of_mem hp, List.mem_append_left _ hid⟩)
  obtain ⟨text', htext'⟩ := exists_text q.type fun id hid =>
    hafter id (List.mem_flatMap.2 ⟨q, List.mem_map_of_mem hq, List.mem_append_left _ hid⟩)
  exact ⟨_, by rw [propertyFields_eq, propertyFields_eq, htext, htext']; rfl⟩

variable (ha : a.Resolves) (hb : b.Resolves)

include ha hb

theorem definitions_ok (before after : Identity) :
    ∃ change, definitions a b before after = .ok change := by
  obtain ⟨found, hfound⟩ := usedDefinitions_ok ha before
  obtain ⟨found', hfound'⟩ := usedDefinitions_ok hb after
  rw [definitions, hfound, hfound']
  refine keyed_ok fun key p q hp hq => ?_
  obtain ⟨d, hd, rfl⟩ := mem_all_of_mem_usedDefinitions hfound hp
  obtain ⟨e, he, rfl⟩ := mem_all_of_mem_usedDefinitions hfound' hq
  obtain ⟨change, hchange⟩ := properties_ok (ha.definitions d hd) (hb.definitions e he)
  exact ⟨_, by rw [hchange]; rfl⟩

theorem resource?_ok (name : String) {r s : Record Resource} (hr : r ∈ a.resources.all)
    (hs : s ∈ b.resources.all) : ∃ change?, resource? a b name r s = .ok change? := by
  have hmentions := ha.resources r hr
  have hmentions' := hb.resources s hs
  obtain ⟨properties, hproperties⟩ := properties_ok
    (fun id hid => hmentions id (List.mem_append_left _ hid))
    (fun id hid => hmentions' id (List.mem_append_left _ hid))
  obtain ⟨attributes, hattributes⟩ := properties_ok
    (fun id hid => hmentions id (List.mem_append_right _ hid))
    (fun id hid => hmentions' id (List.mem_append_right _ hid))
  obtain ⟨definitions, hdefinitions⟩ := definitions_ok ha hb r.id s.id
  exact ⟨_, by rw [resource?, hproperties, hattributes, hdefinitions]; rfl⟩

/-- Databases in which everything that is mentioned is found can be compared. -/
theorem databases_ok : ∃ change, databases a b = .ok change := by
  have hservices : ∃ change, keyed (fun name r s => .ok (service? name r s))
      (byName a.services Service.name) (byName b.services Service.name) = .ok change :=
    keyed_ok fun _ _ _ _ _ => ⟨_, rfl⟩
  have hresources : ∃ change, keyed (resource? a b) (byName a.resources Resource.typeName)
      (byName b.resources Resource.typeName) = .ok change :=
    keyed_ok fun name r s hr hs =>
      resource?_ok ha hb name (mem_all_of_mem_byName hr) (mem_all_of_mem_byName hs)
  obtain ⟨services, hservices⟩ := hservices
  obtain ⟨resources, hresources⟩ := hresources
  exact ⟨⟨services, resources⟩, by rw [databases, hservices, hresources]; rfl⟩

end Resolving

/-! ### Copies -/

section Relabelled

variable {f g : Identity → Identity} {a a' b b' : Database}

/-- The resources of a copy are counterparts. -/
theorem counterparts_relabelled (ha : a.Resolves) (hf : Function.Injective f)
    (h : a.Relabelled f a') : Counterparts f f a a' where
  services := h.services
  resources := h.resources
  counterpart r hr := by
    have hcarried : ∀ id, a.typeDefinitions.contains id = true → Database.Carried f a a' id := by
      intro id hid
      obtain ⟨d, hd⟩ := get_of_contains hid
      exact ⟨d, hd, Collection.get_rename hf h.typeDefinitions hd⟩
    refine counterpart_of_carried rfl (h.usesType r.id) (fun id hid => ?_) (fun edge hedge => ?_)
      fun edge hedge d hd p hp id hid => ?_
    · exact hcarried id (ha.resources r hr id (Resource.mem_references_slots.2 (Or.inl hid)))
    · exact hcarried edge.id (contains_of_mem_outgoing ha hedge)
    · exact hcarried id (ha.definitions d (Collection.mem_all_of_get hd) id
        (List.mem_flatMap.2 ⟨p, hp, List.mem_append_left _ hid⟩))

/-- Copies of two databases with other identities are compared like the databases, and the
comparison is written alike. A database and its copy are the same. -/
theorem databases_relabelled (ha : a.Resolves) (hb : b.Resolves)
    (harranged : Arranged a.resources.all a.typeDefinitions.all) (hf : Function.Injective f)
    (hg : Function.Injective g) (hcopy : a.Relabelled f a') (hcopy' : b.Relabelled g b') :
    (∃ change, databases a b = .ok change ∧ databases a' b' = .ok change ∧
      (databases a' b').map DatabaseChange.text = .ok change.text) ∧
    databases a a' = .ok ⟨unchanged, unchanged⟩ ∧
    databases a' a = .ok ⟨unchanged, unchanged⟩ := by
  have h := counterparts_relabelled ha hf hcopy
  have k := counterparts_relabelled hb hg hcopy'
  have hself := databases_self ha harranged
  obtain ⟨change, hchange⟩ := databases_ok ha hb
  have hcopies : databases a' b' = .ok change := (databases_counterparts h k).trans hchange
  refine ⟨⟨change, hchange, hcopies, congrArg (Except.map DatabaseChange.text) hcopies⟩, ?_, ?_⟩
  · exact (databases_counterparts (.refl a) h).trans hself
  · exact (databases_counterparts h (.refl a)).trans hself

end Relabelled

/-- A bucket with a list of tags, which were described otherwise before. -/
def tagged (name : String) (f : Identity → Identity) : Database :=
  let tags : Property := { Property.ofType (.array (.ref (f ⟨2⟩))) with
    previousTypes := [.array (.ref (f ⟨3⟩))] }
  let bucket := { Resource.ofTypeName "AWS::S3::Bucket" with properties := [("Tags", tags)] }
  let tag : TypeDefinition := ⟨name, none, [("Key", Property.ofType .string)]⟩
  { Database.empty with
    services := Collection.empty.append ⟨f ⟨0⟩, ⟨"AWS::S3", "S3"⟩⟩
    resources := Collection.empty.append ⟨f ⟨1⟩, bucket⟩
    typeDefinitions := (Collection.empty.append ⟨f ⟨2⟩, tag⟩).append
      ⟨f ⟨3⟩, TypeDefinition.ofName "Former"⟩
    hasResource := Edges.empty.add (f ⟨0⟩) (f ⟨1⟩) ()
    usesType := Edges.empty.add (f ⟨1⟩) (f ⟨2⟩) ⟨"Tags"⟩ }

theorem outgoing_empty_add_rename {α : Type} [DecidableEq α] {f : Identity → Identity}
    (hf : Function.Injective f) (start target : Identity) (attributes : α) (other : Identity) :
    (Edges.empty.add (f start) (f target) attributes).outgoing (f other) =
      ((Edges.empty.add start target attributes).outgoing other).map (Edge.rename f) := by
  rw [Edges.outgoing_add Edges.coherent_empty.forward,
    Edges.outgoing_add Edges.coherent_empty.forward]
  by_cases hsame : other = start
  · rw [if_pos ⟨congrArg f hsame, List.not_mem_nil⟩, if_pos ⟨hsame, List.not_mem_nil⟩]
    rfl
  · rw [if_neg fun h => hsame (hf h.1), if_neg fun h => hsame h.1]
    rfl

theorem relabelled_tagged (name : String) {f : Identity → Identity} (hf : Function.Injective f) :
    (tagged name id).Relabelled f (tagged name f) where
  services := rfl
  resources := rfl
  typeDefinitions := rfl
  regions := rfl
  hasResource := outgoing_empty_add_rename hf ⟨0⟩ ⟨1⟩ ()
  usesType := outgoing_empty_add_rename hf ⟨1⟩ ⟨2⟩ (⟨"Tags"⟩ : Use)
  regionHasResource _ := rfl

theorem resolves_tagged : (tagged "Tag" id).Resolves ∧ (tagged "Label" id).Resolves := by decide

theorem arranged_tagged (name : String) :
    Arranged (tagged name id).resources.all (tagged name id).typeDefinitions.all where
  resources r hr := by
    obtain rfl := List.mem_singleton.1 hr
    exact ⟨List.pairwise_singleton _ _, List.Pairwise.nil⟩
  definitions d hd := by
    rcases List.mem_pair.1 hd with rfl | rfl
    · exact List.pairwise_singleton _ _
    · exact List.Pairwise.nil

theorem databases_relabelled_tagged :
    let f : Identity → Identity := Equiv.swap ⟨1⟩ ⟨2⟩
    let g : Identity → Identity := fun id => ⟨id.value + 10⟩
    (∃ change, databases (tagged "Tag" id) (tagged "Label" id) = .ok change ∧
        databases (tagged "Tag" f) (tagged "Label" g) = .ok change ∧
        (databases (tagged "Tag" f) (tagged "Label" g)).map DatabaseChange.text =
          .ok change.text) ∧
      databases (tagged "Tag" id) (tagged "Tag" f) = .ok ⟨unchanged, unchanged⟩ ∧
      databases (tagged "Tag" f) (tagged "Tag" id) = .ok ⟨unchanged, unchanged⟩ := by
  intro f g
  have hf : Function.Injective f := (Equiv.swap _ _).injective
  have hg : Function.Injective g := by
    rintro ⟨x⟩ ⟨y⟩ h
    exact congrArg Identity.mk (Nat.add_right_cancel (Identity.mk.inj h))
  exact databases_relabelled resolves_tagged.1 resolves_tagged.2
    (arranged_tagged "Tag") hf hg (relabelled_tagged "Tag" hf) (relabelled_tagged "Label" hg)

end Comparison

end ResourceCatalog
