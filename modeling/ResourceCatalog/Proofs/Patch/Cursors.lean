import Mathlib
import ResourceCatalog.Proofs.Patch.Visits

/-!
# What a cursor tells of its place

The pointer of a cursor is written from the keys on the way to its place, and it is read as these
keys whatever characters they have. So in a pass the pointer of a visit names the value that the
visit shows, the cursors around it are the visits of the shorter pointers, and no pointer comes
twice.
-/

namespace ResourceCatalog

/-! ### The containers around a place -/

namespace Cursor

theorem depth_lt_of_parent? {c parent : Cursor} (h : c.parent? = some parent) :
    parent.depth < c.depth := by
  obtain ⟨subject, document, value, trail⟩ := c
  cases trail with
  | nil => simp [parent?] at h
  | cons step rest =>
    simp only [parent?, Option.some.injEq] at h
    simp [← h, depth]

/-- The cursors on the containers around the place, the nearest one first. -/
def ancestors (c : Cursor) : List Cursor :=
  match _hparent : c.parent? with
  | none => []
  | some parent => parent :: parent.ancestors
termination_by c.depth
decreasing_by exact depth_lt_of_parent? _hparent

variable {subject : String} {document value : Json}

theorem ancestors_nil : (Cursor.mk subject document value []).ancestors = [] := by
  rw [ancestors]
  rfl

theorem ancestors_cons (step : Step) (trail : Trail) :
    (Cursor.mk subject document value (step :: trail)).ancestors =
      ⟨subject, document, step.container, trail⟩ ::
        (Cursor.mk subject document step.container trail).ancestors := by
  rw [ancestors]
  rfl

theorem ancestors_child (c : Cursor) (key : Key) (value : Json) :
    (c.child key value).ancestors = c :: c.ancestors := ancestors_cons _ _

/-- The keys of a cursor and of those around it are the tokens on the way to the place. -/
theorem tokens_eq_keys (c : Cursor) :
    c.trail.tokens = (((c :: c.ancestors).filterMap key?).map Key.token).reverse := by
  obtain ⟨subject, document, value, trail⟩ := c
  induction trail generalizing value with
  | nil => simp [ancestors_nil, key?, Trail.tokens]
  | cons step rest ih =>
    have hrest := ih step.container
    dsimp only at hrest ⊢
    rw [ancestors_cons, Trail.tokens_cons, hrest]
    simp [List.filterMap_cons, key?]

/-- The tokens of a cursor and of those around it are cut off one after the other. -/
theorem tokens_ancestors (c : Cursor) :
    (c :: c.ancestors).map (fun a => a.trail.tokens) = c.trail.tokens.inits.reverse := by
  obtain ⟨subject, document, value, trail⟩ := c
  induction trail generalizing value with
  | nil => simp [ancestors_nil, Trail.tokens]
  | cons step rest ih =>
    rw [ancestors_cons, List.map_cons, ih step.container]
    simp [Trail.tokens_cons]

end Cursor

section Places

variable {subject : String} {document container : Json} {trail : Trail} {c : Cursor}

theorem sublist_placesOfItems {items : List Json} {i : Nat} {item : Json}
    (h : items[i]? = some item) (index : Nat) :
    (Cursor.placesFrom subject document (⟨container, .index (index + i)⟩ :: trail) item).Sublist
      (Cursor.placesOfItems subject document container trail index items) := by
  induction items generalizing index i with
  | nil => simp at h
  | cons first rest ih =>
    rw [Cursor.placesOfItems]
    cases i with
    | zero =>
      obtain rfl : first = item := by simpa using h
      exact List.sublist_append_left _ _
    | succ i =>
      have hrest := ih (by simpa using h) (index + 1)
      rw [Nat.add_right_comm] at hrest
      exact hrest.trans (List.sublist_append_right _ _)

theorem sublist_placesOfMembers {members : Members} {entry : String × Json} (h : entry ∈ members) :
    (Cursor.placesFrom subject document (⟨container, .property entry.1⟩ :: trail) entry.2).Sublist
      (Cursor.placesOfMembers subject document container trail members) := by
  induction members with
  | nil => simp at h
  | cons first rest ih =>
    rw [Cursor.placesOfMembers]
    cases List.mem_cons.1 h with
    | inl h =>
      subst h
      exact List.sublist_append_left _ _
    | inr h => exact (ih h).trans (List.sublist_append_right _ _)

/-- A place is the whole value, or one step further down from another place. -/
theorem eq_or_child_of_mem_placesFrom {value : Json}
    (h : c ∈ Cursor.placesFrom subject document trail value) :
    c = ⟨subject, document, value, trail⟩ ∨
      ∃ p ∈ Cursor.placesFrom subject document trail value, ∃ key child, c = p.child key child := by
  induction value using Json.partsInduction generalizing trail with
  | scalar value harr hobj =>
    rw [placesFrom_scalar harr hobj, List.mem_singleton] at h
    exact Or.inl h
  | arr items ih =>
    rw [Cursor.placesFrom] at h ⊢
    refine (List.mem_cons.1 h).imp_right fun h => ?_
    obtain ⟨i, item, hitem, hc⟩ := mem_placesOfItems h
    cases ih item (List.mem_of_getElem? hitem) hc with
    | inl htop => exact ⟨_, List.mem_cons_self, _, item, htop⟩
    | inr hbelow =>
      obtain ⟨p, hp, hchild⟩ := hbelow
      exact ⟨p, List.mem_cons_of_mem _ ((sublist_placesOfItems hitem 0).subset hp), hchild⟩
  | obj members ih =>
    rw [Cursor.placesFrom] at h ⊢
    refine (List.mem_cons.1 h).imp_right fun h => ?_
    obtain ⟨entry, hentry, hc⟩ := mem_placesOfMembers h
    cases ih entry hentry hc with
    | inl htop => exact ⟨_, List.mem_cons_self, _, entry.2, htop⟩
    | inr hbelow =>
      obtain ⟨p, hp, hchild⟩ := hbelow
      exact ⟨p, List.mem_cons_of_mem _ ((sublist_placesOfMembers hentry).subset hp), hchild⟩

/-- The cursors around a place are on places of the same document. -/
theorem ancestors_of_mem_places (h : c ∈ Cursor.places subject document) :
    c.document = document ∧ ∀ a ∈ c.ancestors, a ∈ Cursor.places subject document := by
  induction hdepth : c.depth generalizing c with
  | zero =>
    cases eq_or_child_of_mem_placesFrom h with
    | inl htop =>
      subst htop
      exact ⟨rfl, by simp [Cursor.ancestors_nil]⟩
    | inr hbelow =>
      obtain ⟨p, _, key, child, rfl⟩ := hbelow
      simp [Cursor.depth, Cursor.child] at hdepth
  | succ n ih =>
    cases eq_or_child_of_mem_placesFrom h with
    | inl htop =>
      subst htop
      simp [Cursor.depth] at hdepth
    | inr hbelow =>
      obtain ⟨p, hp, key, child, rfl⟩ := hbelow
      obtain ⟨hdocument, hancestors⟩ := ih hp (by simpa [Cursor.depth, Cursor.child] using hdepth)
      refine ⟨hdocument, ?_⟩
      rw [Cursor.ancestors_child]
      exact List.forall_mem_cons.2 ⟨hp, hancestors⟩

end Places

/-! ### Pointers -/

section Pointers

variable {rule : Rule} {subject : String} {document : Json} {c : Cursor}

theorem tokens?_pointer (c : Cursor) : Pointer.tokens? c.pointer = some c.trail.tokens := by
  rw [Cursor.pointer, Trail.pointer_eq_ofTokens, Pointer.tokens?_ofTokens]

/-- No two places of a document have the same pointer. -/
theorem nodup_pointers_places (subject : String) (hformed : document.WellFormed) :
    ((Cursor.places subject document).map Cursor.pointer).Nodup := by
  have hfirst : ContainersFirst (Cursor.places subject document) :=
    containersFirst_placesFrom hformed []
  refine List.pairwise_map.2 (hfirst.imp fun {a b} hbehind hsame => hbehind ?_)
  have htokens : some a.trail.tokens = some b.trail.tokens := by
    rw [← tokens?_pointer, ← tokens?_pointer, hsame]
  rw [Cursor.Encloses, Option.some.inj htokens]

/-- A cursor tells the truth about its place in a document, where the cursors of `visited` have been
handed out: its pointer names what it shows, and is made of the keys on the way from the root. The
cursors around it have been handed out too, and their pointers have the same tokens, one less in
each. -/
structure Cursor.TellsItsPlace (document : Json) (visited : List Cursor) (c : Cursor) : Prop where
  document_eq : c.document = document
  shown : document.find? c.pointer = some c.value
  keys : Pointer.tokens? c.pointer =
    some (((c :: c.ancestors).filterMap Cursor.key?).map Key.token).reverse
  around : ∃ tokens, Pointer.tokens? c.pointer = some tokens ∧
    c.ancestors.map (fun a => Pointer.tokens? a.pointer) = tokens.inits.reverse.tail.map some
  visited : ∀ a ∈ c.ancestors, a ∈ visited

/-- What encloses a place stands around it. -/
theorem encloses_of_mem_ancestors {a : Cursor} (h : a ∈ c.ancestors) : a.Encloses c := by
  have hmem : a.trail.tokens ∈ c.trail.tokens.inits.reverse := by
    rw [← Cursor.tokens_ancestors]
    exact List.mem_map_of_mem (List.mem_cons_of_mem _ h)
  simpa [Cursor.Encloses] using hmem

theorem tellsItsPlace_of_mem_visits (hformed : document.WellFormed)
    (hindexable : document.Indexable) (h : c ∈ visits rule subject document) :
    c.TellsItsPlace document (visits rule subject document) := by
  have hplace := (walked_visits rule subject hformed).sublist.subset h
  obtain ⟨hdocument, hancestors⟩ := ancestors_of_mem_places hplace
  constructor
  · exact hdocument
  · rw [Json.find?, tokens?_pointer, Option.bind_some]
    exact at?_of_mem_places hformed hindexable hplace
  · rw [tokens?_pointer, Cursor.tokens_eq_keys]
  · refine ⟨c.trail.tokens, tokens?_pointer c, ?_⟩
    rw [← Cursor.tokens_ancestors, List.map_cons, List.tail_cons, List.map_map]
    exact List.map_congr_left fun a _ => tokens?_pointer a
  · intro a ha
    exact mem_visits_of_encloses hformed (hancestors a ha) h (encloses_of_mem_ancestors ha)

/-- Pointers that are put together from tokens are read as these tokens. In a pass every visit tells
its place by its pointer, and no two visits have the same one. -/
theorem pointers_of_visits (rule : Rule) (subject : String) (hformed : document.WellFormed)
    (hindexable : document.Indexable) :
    (∀ tokens : List String, Pointer.tokens? (tokens.foldl Pointer.join "") = some tokens) ∧
      Function.Injective (fun tokens : List String => tokens.foldl Pointer.join "") ∧
      (∀ c ∈ visits rule subject document,
        c.TellsItsPlace document (visits rule subject document)) ∧
      ((visits rule subject document).map Cursor.pointer).Nodup := by
  refine ⟨Pointer.tokens?_ofTokens, fun _ _ h => Pointer.ofTokens_injective h, fun c hc => ?_, ?_⟩
  · exact tellsItsPlace_of_mem_visits hformed hindexable hc
  · have hsub := (walked_visits rule subject hformed).sublist
    exact (nodup_pointers_places subject hformed).sublist (hsub.map Cursor.pointer)

/-- A document with an empty key, a slash in a key and a key that looks escaped. -/
def oddKeys : Json := .obj [("", .arr [.nat 1]), ("0", .null), ("a/b", .obj [("~1", .nat 2)])]

theorem pointers_of_visits_oddKeys :
    oddKeys.WellFormed ∧ oddKeys.Indexable ∧
      (∀ c ∈ visits (Rule.all []) "Test" oddKeys,
        c.TellsItsPlace oddKeys (visits (Rule.all []) "Test" oddKeys)) ∧
      (visits (Rule.all []) "Test" oddKeys).map Cursor.pointer =
        ["", "/", "//0", "/0", "/a~1b", "/a~1b/~01"] := by
  have hkeys : ["", "0", "a/b"].Pairwise (· < ·) := by decide
  have hformed : oddKeys.WellFormed := by
    refine ⟨Keyed.ascending_iff_keys.2 hkeys, ?_⟩
    simp [Json.MembersWellFormed, Json.WellFormed, Json.ItemsWellFormed, Keyed.Ascending, Json.nat]
  have hindexable : oddKeys.Indexable := by
    simp [oddKeys, Json.Indexable, Json.MembersIndexable, Json.ItemsIndexable, Json.nat,
      UInt64.size]
  have hpointers := pointers_of_visits (Rule.all []) "Test" hformed hindexable
  refine ⟨hformed, hindexable, hpointers.2.2.1, ?_⟩
  cbv

end Pointers

end ResourceCatalog
