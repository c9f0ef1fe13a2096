import Mathlib
import ResourceCatalog.Catalog.Snapshot
import ResourceCatalog.Proofs.Catalog.Encoding
import ResourceCatalog.Proofs.Catalog.Upserts
import ResourceCatalog.Proofs.Graph.Lookup
import ResourceCatalog.Proofs.Pointer.Tokens

/-!
# Loading what was saved

The sections of a snapshot hold the records and the edges of a consistent database, so loading it
does not fail. The records come back in their order and the edges from every entity in theirs. Of
the properties, a default that is `null` does not come back.
-/

namespace ResourceCatalog

/-! ### Edges -/

namespace Adjacency

variable {α : Type}

theorem perm_insert (id : Identity) (edges : List (Edge α)) (adjacency : Adjacency α) :
    (insert id edges adjacency).Perm ((id, edges) :: adjacency) := by
  induction adjacency with
  | nil => exact List.Perm.refl _
  | cons entry rest ih =>
    rw [insert]
    split
    · exact List.Perm.refl _
    · exact (ih.cons entry).trans (List.Perm.swap _ _ _)

theorem pairwise_insert {id : Identity} {adjacency : Adjacency α}
    (h : adjacency.Pairwise fun a b => a.1.value < b.1.value)
    (hnew : ∀ entry ∈ adjacency, entry.1 ≠ id) (edges : List (Edge α)) :
    (insert id edges adjacency).Pairwise fun a b => a.1.value < b.1.value := by
  induction adjacency with
  | nil => exact List.pairwise_singleton _ _
  | cons entry rest ih =>
    obtain ⟨hhead, htail⟩ := List.pairwise_cons.1 h
    obtain ⟨hentry, hrest⟩ := List.forall_mem_cons.1 hnew
    rw [insert]
    split
    · next hlt =>
      refine List.pairwise_cons.2 ⟨fun other hother => ?_, h⟩
      rcases List.mem_cons.1 hother with rfl | hother
      · exact hlt
      · exact lt_trans hlt (hhead other hother)
    · next hlt =>
      refine List.pairwise_cons.2 ⟨fun other hother => ?_, ih htail hrest⟩
      rcases List.mem_cons.1 ((perm_insert id edges rest).mem_iff.1 hother) with rfl | hother
      · refine lt_of_le_of_ne (not_lt.1 hlt) fun heq => hentry ?_
        exact congrArg Identity.mk heq
      · exact hhead other hother

theorem foldl_insert {new all : Adjacency α} (hdistinct : (new.map Prod.fst).Nodup)
    (hall : all.Pairwise fun a b => a.1.value < b.1.value)
    (hfresh : ∀ entry ∈ all, entry.1 ∉ new.map Prod.fst) :
    (new.foldl (fun all entry => insert entry.1 entry.2 all) all).Perm (new ++ all) ∧
      (new.foldl (fun all entry => insert entry.1 entry.2 all) all).Pairwise
        fun a b => a.1.value < b.1.value := by
  induction new generalizing all with
  | nil => exact ⟨List.Perm.refl _, hall⟩
  | cons first rest ih =>
    obtain ⟨hfirst, hrest⟩ := List.nodup_cons.1 hdistinct
    have hnew : ∀ entry ∈ all, entry.1 ≠ first.1 := fun entry hentry heq =>
      hfresh entry hentry (heq ▸ List.mem_cons_self)
    have hinsert := perm_insert first.1 first.2 all
    have hfresh' : ∀ entry ∈ insert first.1 first.2 all, entry.1 ∉ rest.map Prod.fst := by
      intro entry hentry
      rcases List.mem_cons.1 (hinsert.mem_iff.1 hentry) with rfl | hentry
      · exact hfirst
      · exact fun hmem => hfresh entry hentry (List.mem_cons_of_mem _ hmem)
    obtain ⟨hperm, hpairwise⟩ := ih hrest (pairwise_insert hall hnew first.2) hfresh'
    exact ⟨hperm.trans ((hinsert.append_left rest).trans List.perm_middle), hpairwise⟩

theorem Ordered.nodup {forward : Adjacency α} (h : Ordered forward) :
    (forward.map Prod.fst).Nodup := by
  refine List.pairwise_map.2 (h.ascending.imp fun {a b} hlt heq => ?_)
  rw [heq] at hlt
  exact lt_irrefl _ hlt

/-- Lists of edges that are put in one after the other end up in the order of identities. -/
theorem Ordered.foldl_insert_eq {forward shuffled : Adjacency α} (h : Ordered forward)
    (hperm : shuffled.Perm forward) :
    shuffled.foldl (fun all entry => insert entry.1 entry.2 all) [] = forward := by
  obtain ⟨hall, hpairwise⟩ := foldl_insert ((hperm.map Prod.fst).nodup_iff.2 h.nodup)
    List.Pairwise.nil fun _ hmem => absurd hmem List.not_mem_nil
  rw [List.append_nil] at hall
  refine (hall.trans hperm).eq_of_pairwise (fun a b _ _ hab hba => ?_) hpairwise h.ascending
  exact absurd hab (lt_asymm hba)

end Adjacency

/-- The edges that leave an entity, as they stand in a document. -/
def Edges.entryToJson {α : Type} [Encodable α] (entry : Identity × List (Edge α)) : String × Json :=
  (toString entry.1.value, .arr (entry.2.map Edge.toJson))

def Edges.entryOfJson? {α : Type} [Readable α] (member : String × Json) :
    Option (Identity × List (Edge α)) := do
  let id ← Pointer.index? member.1
  let edges ← member.2.asArray?.bind fun items => items.mapM Edge.ofJson?
  return (Identity.mk id, edges)

theorem edgesOfJson?_toJson {α : Type} [DecidableEq α] [Encodable α] [Readable α]
    (hattributes : ∀ a : α, Readable.ofJson? (Encodable.toJson a) = some a) {edges : Edges α}
    (h : edges.Coherent) (hstarts : ∀ entry ∈ edges.forward, entry.1.value < UInt64.size) :
    ∃ read, edgesOfJson? edges.toJson = some read ∧ read.forward = edges.forward := by
  have hkeys : (Keyed.keys (edges.forward.map Edges.entryToJson)).Nodup := by
    rw [Keyed.keys, List.map_map]
    refine List.pairwise_map.2 (h.forward.ascending.imp fun {a b} hlt heq => ?_)
    rw [Pointer.toString_injective heq] at hlt
    exact lt_irrefl _ hlt
  obtain ⟨shuffled, hshuffled, hperm⟩ := exists_map_of_perm (Keyed.perm_ofList hkeys)
  have hread : (shuffled.map Edges.entryToJson).mapM Edges.entryOfJson? =
      some (shuffled.map id) := by
    refine mapM_map_eq_some fun entry hentry => ?_
    have hedges : (entry.2.map Edge.toJson).mapM Edge.ofJson? = some (entry.2.map id) :=
      mapM_map_eq_some fun edge _ => Edge.ofJson?_toJson hattributes edge
    rw [List.map_id] at hedges
    simp only [Edges.entryOfJson?, Edges.entryToJson, Json.asArray?, Option.bind_eq_bind,
      Option.bind_some, hedges, Pointer.index?_toString (hstarts entry (hperm.mem_iff.1 hentry))]
    rfl
  refine ⟨Edges.ofForward edges.forward, ?_, ?_⟩
  · have hjson : edges.toJson = .obj (shuffled.map Edges.entryToJson) :=
      congrArg Json.obj hshuffled
    rw [hjson, edgesOfJson?]
    change ((shuffled.map Edges.entryToJson).mapM Edges.entryOfJson?).bind _ = _
    rw [hread, List.map_id]
    exact congrArg (fun forward => some (Edges.ofForward forward)) (h.forward.foldl_insert_eq hperm)
  · refine Edges.forward_ofForward h.forward fun entry hentry => ?_
    have hdistinct := h.distinct entry.1
    rw [Edges.outgoing, h.forward.get_eq_of_mem hentry] at hdistinct
    exact hdistinct

/-! ### Records -/

theorem recordsOfJson?_toJson {α : Type} [Entity α] [Encodable α] [Readable α] {restored : α → α}
    (h : ReadAs restored) (c : Collection α) :
    recordsOfJson? c.toJson = some (c.all.map (Record.map restored)) :=
  mapM_map_eq_some fun r _ => Record.ofJson?_toJson h r

/-! ### Sections -/

namespace Database

variable {snapshot : Snapshot}

theorem ends_loadCollection {α : Type} [Entity α] [Encodable α] [Readable α] {restored : α → α}
    (hread : ReadAs restored) {c : Collection α} (hdistinct : c.ids.Nodup)
    (hsection : Keyed.get? (Entity.collection α) snapshot.entities = some c.toJson)
    (supply : Supply) :
    Ends (loadCollection snapshot) supply
      (fun loaded _ => loaded.all = c.all.map (Record.map restored)) (fun _ _ => False) := by
  have hids : ((c.all.map (Record.map restored)).map Record.id).Nodup := by
    rw [List.map_map]
    exact hdistinct
  obtain ⟨loaded, left, hok, _, hall⟩ :=
    Collection.insertAll_of_nodup (Collection.holds_empty supply) hids
  rw [loadCollection, hsection]
  dsimp only
  rw [recordsOfJson?_toJson hread]
  dsimp only
  rw [ends_bind, ends_get, hok]
  exact hall

theorem ends_loadEdges {α : Type} [DecidableEq α] [Encodable α] [Readable α]
    (hattributes : ∀ a : α, Readable.ofJson? (Encodable.toJson a) = some a) {edges : Edges α}
    (h : edges.Coherent) (hstarts : ∀ entry ∈ edges.forward, entry.1.value < UInt64.size)
    {relationship : Relationship}
    (hsection : Keyed.get? relationship.name snapshot.relationships = some edges.toJson)
    (supply : Supply) :
    Ends (loadEdges snapshot relationship) supply
      (fun loaded : Edges α => fun _ => loaded.forward = edges.forward) (fun _ _ => False) := by
  obtain ⟨loaded, hok, hforward⟩ := edgesOfJson?_toJson hattributes h hstarts
  rw [loadEdges, hsection]
  dsimp only
  rw [hok]
  exact hforward

/-! ### Databases -/

/-- What of a database is read after it has been written. -/
structure Reread (db loaded : Database) : Prop where
  services : loaded.services.all = db.services.all
  resources : loaded.resources.all = db.resources.all.map (Record.map Resource.restored)
  typeDefinitions :
    loaded.typeDefinitions.all = db.typeDefinitions.all.map (Record.map TypeDefinition.restored)
  regions : loaded.regions.all = db.regions.all
  hasResource : loaded.hasResource.forward = db.hasResource.forward
  usesType : loaded.usesType.forward = db.usesType.forward
  regionHasResource : loaded.regionHasResource.forward = db.regionHasResource.forward

theorem verify_save (db : Database) (createdAt : String) : (db.save createdAt).verify = .ok () := by
  rw [Snapshot.verify, if_neg fun hne => hne rfl]
  exact if_pos rfl

/-- The collections and relationships stand in a snapshot under their names. -/
theorem sections_save (db : Database) (createdAt : String) :
    let entities := (db.save createdAt).entities
    let relationships := (db.save createdAt).relationships
    (Keyed.get? (Entity.collection Service) entities = some db.services.toJson ∧
      Keyed.get? (Entity.collection Resource) entities = some db.resources.toJson ∧
        Keyed.get? (Entity.collection TypeDefinition) entities = some db.typeDefinitions.toJson ∧
          Keyed.get? (Entity.collection Region) entities = some db.regions.toJson) ∧
      Keyed.get? Relationship.hasResource.name relationships = some db.hasResource.toJson ∧
        Keyed.get? Relationship.usesType.name relationships = some db.usesType.toJson ∧
          Keyed.get? Relationship.regionHasResource.name relationships =
            some db.regionHasResource.toJson := by
  intro entities relationships
  have hentities : ["service", "resource", "type_definition", "region"].Nodup := by decide
  have hrelationships : ["has_resource", "uses_type", "region_has_resource"].Nodup := by decide
  have hentity : ∀ key, Keyed.get? key entities = Keyed.get? key [
      (Entity.collection Service, db.services.toJson),
      (Entity.collection Resource, db.resources.toJson),
      (Entity.collection TypeDefinition, db.typeDefinitions.toJson),
      (Entity.collection Region, db.regions.toJson)] := Keyed.get?_ofList hentities
  have hrelationship : ∀ key, Keyed.get? key relationships = Keyed.get? key [
      (Relationship.hasResource.name, db.hasResource.toJson),
      (Relationship.usesType.name, db.usesType.toJson),
      (Relationship.regionHasResource.name, db.regionHasResource.toJson)] :=
    Keyed.get?_ofList hrelationships
  exact ⟨⟨hentity _, hentity _, hentity _, hentity _⟩, hrelationship _, hrelationship _,
    hrelationship _⟩

theorem Consistent.starts_lt {α : Type} {edges : Edges α} {starts : List Identity}
    {targets : List Identity} (h : edges.Links starts targets) {supply : Supply}
    (htaken : ∀ id ∈ starts, id.value < supply.next) (hfits : supply.next ≤ UInt64.size) :
    ∀ entry ∈ edges.forward, entry.1.value < UInt64.size := by
  intro entry hentry
  obtain ⟨edge, hedge⟩ := List.exists_mem_of_ne_nil _ (h.coherent.forward.nonempty entry hentry)
  have hstart := (h.ends _ _ (h.coherent.mem_forward hentry hedge)).1
  exact lt_of_lt_of_le (htaken _ hstart) hfits

theorem map_id_all {α : Type} (c : Collection α) : c.all.map (Record.map id) = c.all :=
  List.map_id _

/-- A saved database is loaded, up to defaults that are `null`. -/
theorem ends_loadSections_save {db : Database} {supply : Supply} (h : db.Consistent supply)
    (hfits : supply.next ≤ UInt64.size) (createdAt : String) (later : Supply) :
    Ends (loadSections (db.save createdAt)) later (fun loaded _ => db.Reread loaded)
      (fun _ _ => False) := by
  obtain ⟨⟨hservices, hresources, hdefinitions, hregions⟩, hhas, huses, hregion⟩ :=
    db.sections_save createdAt
  rw [loadSections, verify_save]
  dsimp only
  rw [ends_bind]
  refine (ends_loadCollection Service.readAs h.services.coherent.distinct hservices _).mono ?_
    fun _ _ h => h
  intro services _ hservices
  rw [ends_bind]
  refine (ends_loadCollection Resource.readAs h.resources.coherent.distinct hresources _).mono ?_
    fun _ _ h => h
  intro resources _ hresources
  rw [ends_bind]
  refine (ends_loadCollection TypeDefinition.readAs h.typeDefinitions.coherent.distinct
    hdefinitions _).mono ?_ fun _ _ h => h
  intro definitions _ hdefinitions
  rw [ends_bind]
  refine (ends_loadCollection Region.readAs h.regions.coherent.distinct hregions _).mono ?_
    fun _ _ h => h
  intro regions _ hregions
  rw [ends_bind]
  refine (ends_loadEdges Unit.ofJson?_toJson h.hasResource.coherent
    (Consistent.starts_lt h.hasResource h.services.taken hfits) hhas _).mono ?_ fun _ _ h => h
  intro hasResource _ hhas
  rw [ends_bind]
  refine (ends_loadEdges Use.ofJson?_toJson h.usesType.coherent
    (Consistent.starts_lt h.usesType h.resources.taken hfits) huses _).mono ?_ fun _ _ h => h
  intro usesType _ huses
  rw [ends_bind]
  refine (ends_loadEdges Unit.ofJson?_toJson h.regionHasResource.coherent
    (Consistent.starts_lt h.regionHasResource h.regions.taken hfits) hregion _).mono ?_
      fun _ _ h => h
  intro regionHasResource _ hregion
  exact ⟨hservices.trans (map_id_all _), hresources, hdefinitions, hregions.trans (map_id_all _),
    hhas, huses, hregion⟩

end Database

end ResourceCatalog
