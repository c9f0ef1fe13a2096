import Mathlib
import ResourceCatalog.Proofs.Catalog.Names

/-!
# Unions

A union lists alternatives, and two alternatives with one text say the same. `WellJoined` says that
every union inside of a type lists at least two types, and none of them twice. It speaks of the
types that a union itself lists. A union inside of a union is one of these, whatever it lists on its
own, so the flattened union may well repeat an alternative. But it never has only one.
-/

namespace ResourceCatalog

namespace PropertyType

mutual

/-- What the unions inside of a type list, each on its own. -/
def unions : PropertyType → List (List PropertyType)
  | .array element => unions element
  | .map element => unions element
  | .union types => types :: unionsOfAll types
  | _ => []

def unionsOfAll : List PropertyType → List (List PropertyType)
  | [] => []
  | type :: rest => unions type ++ unionsOfAll rest

end

mutual

/-- What a type lists when the unions inside of a union are flattened into it. Any other type lists
itself only. -/
def flattened : PropertyType → List PropertyType
  | .union types => flattenedAll types
  | type => [type]

def flattenedAll : List PropertyType → List PropertyType
  | [] => []
  | type :: rest => flattened type ++ flattenedAll rest

end

variable {names other : Naming} {type : PropertyType} {types : List PropertyType}

theorem mem_unionsOfAll {listed : List PropertyType} :
    listed ∈ unionsOfAll types ↔ ∃ type ∈ types, listed ∈ type.unions := by
  induction types with
  | nil => exact iff_of_false List.not_mem_nil fun ⟨_, h, _⟩ => List.not_mem_nil h
  | cons type rest ih => simp only [unionsOfAll, List.mem_append, ih, List.mem_cons, exists_eq_or_imp]

theorem mem_flattenedAll {part : PropertyType} :
    part ∈ flattenedAll types ↔ ∃ type ∈ types, part ∈ type.flattened := by
  induction types with
  | nil => exact iff_of_false List.not_mem_nil fun ⟨_, h, _⟩ => List.not_mem_nil h
  | cons type rest ih => simp only [flattenedAll, List.mem_append, ih, List.mem_cons, exists_eq_or_imp]

mutual

/-- A union inside of a type mentions nothing else than the type. -/
theorem references_subset_of_mem_unions (type : PropertyType) (h : types ∈ type.unions) :
    referencesOfAll types ⊆ type.references := by
  cases type with
  | array element => exact references_subset_of_mem_unions element h
  | map element => exact references_subset_of_mem_unions element h
  | union inner =>
    obtain rfl | h := List.mem_cons.1 h
    · exact List.Subset.refl _
    · exact references_subset_of_mem_unionsOfAll inner h
  | _ => exact absurd h List.not_mem_nil

theorem references_subset_of_mem_unionsOfAll (inner : List PropertyType)
    (h : types ∈ unionsOfAll inner) : referencesOfAll types ⊆ referencesOfAll inner := by
  cases inner with
  | nil => exact absurd h List.not_mem_nil
  | cons type rest =>
    rw [referencesOfAll]
    rcases List.mem_append.1 h with h | h
    · exact List.subset_append_of_subset_left _ (references_subset_of_mem_unions type h)
    · exact List.subset_append_of_subset_right _ (references_subset_of_mem_unionsOfAll rest h)

end

mutual

/-- The unions inside of a union inside of a type are inside of the type. -/
theorem unions_subset_of_mem_unions (type : PropertyType) (h : types ∈ type.unions) :
    (union types).unions ⊆ type.unions := by
  cases type with
  | array element => exact unions_subset_of_mem_unions element h
  | map element => exact unions_subset_of_mem_unions element h
  | union inner =>
    obtain rfl | h := List.mem_cons.1 h
    · exact List.Subset.refl _
    · exact List.subset_cons_of_subset _ (unions_subset_of_mem_unionsOfAll inner h)
  | _ => exact absurd h List.not_mem_nil

theorem unions_subset_of_mem_unionsOfAll (inner : List PropertyType)
    (h : types ∈ unionsOfAll inner) : (union types).unions ⊆ unionsOfAll inner := by
  cases inner with
  | nil => exact absurd h List.not_mem_nil
  | cons type rest =>
    rcases List.mem_append.1 h with h | h
    · exact List.subset_append_of_subset_left _ (unions_subset_of_mem_unions type h)
    · exact List.subset_append_of_subset_right _ (unions_subset_of_mem_unionsOfAll rest h)

end

/-! ### Well joined types -/

/-- A list of types, each with a text of its own. -/
def Distinct (names : Naming) (types : List PropertyType) : Prop :=
  ∃ texts, renderAll names types = .ok texts ∧ texts.Nodup

instance instDecidableDistinct (names : Naming) (types : List PropertyType) :
    Decidable (Distinct names types) :=
  match h : renderAll names types with
  | .ok texts => decidable_of_iff texts.Nodup ⟨fun hnodup => ⟨texts, h, hnodup⟩,
      fun ⟨_, hsame, hnodup⟩ => Except.ok.inj (h.symm.trans hsame) ▸ hnodup⟩
  | .error _ => .isFalse fun ⟨_, hok, _⟩ => nomatch h.symm.trans hok

/-- Every union inside of a type lists at least two types, no two of them with one text. -/
def WellJoined (names : Naming) (type : PropertyType) : Prop :=
  ∀ types ∈ type.unions, 2 ≤ types.length ∧ Distinct names types

theorem WellJoined.of_names (h : type.WellJoined names)
    (hnames : ∀ id ∈ type.references, ∀ name, names id = .ok name → other id = .ok name) :
    type.WellJoined other := by
  intro types htypes
  obtain ⟨hlength, texts, htexts, hnodup⟩ := h types htypes
  refine ⟨hlength, texts, renderAll_eq_of_names types (fun id hid => hnames id ?_) htexts, hnodup⟩
  exact references_subset_of_mem_unions type htypes hid

theorem WellJoined.extend (h : type.WellJoined names) (hnames : names.Extends other) :
    type.WellJoined other :=
  h.of_names fun id _ => hnames id

theorem wellJoined_of_unions (h : type.unions = []) : type.WellJoined names := by
  intro types htypes
  rw [h] at htypes
  exact absurd htypes List.not_mem_nil

theorem WellJoined.array (h : type.WellJoined names) : (array type).WellJoined names := h

theorem WellJoined.map (h : type.WellJoined names) : (map type).WellJoined names := h

theorem wellJoined_union (h : ∀ type ∈ types, type.WellJoined names) (hlength : 2 ≤ types.length)
    (hdistinct : Distinct names types) : (union types).WellJoined names := by
  intro inside hinside
  rcases List.mem_cons.1 hinside with rfl | hinside
  · exact ⟨hlength, hdistinct⟩
  · obtain ⟨type, htype, hinside⟩ := mem_unionsOfAll.1 hinside
    exact h type htype inside hinside

/-- The unions inside of a well joined type are well joined. -/
theorem WellJoined.of_mem_unions (h : type.WellJoined names) (htypes : types ∈ type.unions) :
    (union types).WellJoined names :=
  fun inside hinside => h inside (unions_subset_of_mem_unions type htypes hinside)

theorem WellJoined.of_mem_union (h : (union types).WellJoined names) (htype : type ∈ types) :
    type.WellJoined names := by
  intro inside hinside
  exact h inside (List.mem_cons_of_mem _ (mem_unionsOfAll.2 ⟨type, htype, hinside⟩))

/-- Two types with different texts. -/
def Differ (names : Naming) (a b : PropertyType) : Prop :=
  ∃ text text', a.render names = .ok text ∧ b.render names = .ok text' ∧ text ≠ text'

/-- What is left of a union when the unions inside of it are flattened is more than one
alternative. -/
theorem WellJoined.exists_differ (types : List PropertyType)
    (h : (union types).WellJoined names) :
    ∃ a ∈ flattenedAll types, ∃ b ∈ flattenedAll types, Differ names a b := by
  obtain ⟨hlength, texts, htexts, hnodup⟩ := h types List.mem_cons_self
  -- a union among the first two brings two different alternatives with it
  have hinside : ∀ inner, union inner ∈ types →
      ∃ a ∈ flattenedAll types, ∃ b ∈ flattenedAll types, Differ names a b := by
    intro inner hinner
    have hsize : sizeOf inner < sizeOf types := by
      have hmem := List.sizeOf_lt_of_mem hinner
      rw [union.sizeOf_spec] at hmem
      omega
    obtain ⟨a, ha, b, hb, hdiffer⟩ := exists_differ inner (h.of_mem_union hinner)
    exact ⟨a, mem_flattenedAll.2 ⟨_, hinner, ha⟩, b, mem_flattenedAll.2 ⟨_, hinner, hb⟩, hdiffer⟩
  match types, hlength with
  | first :: second :: rest, _ =>
    rw [renderAll_eq_ok_iff, List.forall₂_cons_left_iff] at htexts
    obtain ⟨text, others, htext, hothers, rfl⟩ := htexts
    rw [List.forall₂_cons_left_iff] at hothers
    obtain ⟨text', others, htext', -, rfl⟩ := hothers
    have hne : text ≠ text' := fun hsame => (List.nodup_cons.1 hnodup).1 (hsame ▸ List.mem_cons_self)
    by_cases hfirst : ∃ inner, first = union inner
    · obtain ⟨inner, rfl⟩ := hfirst
      exact hinside inner List.mem_cons_self
    by_cases hsecond : ∃ inner, second = union inner
    · obtain ⟨inner, rfl⟩ := hsecond
      exact hinside inner (List.mem_cons_of_mem _ List.mem_cons_self)
    refine ⟨first, mem_flattenedAll.2 ⟨first, List.mem_cons_self, ?_⟩, second,
      mem_flattenedAll.2 ⟨second, List.mem_cons_of_mem _ List.mem_cons_self, ?_⟩,
      text, text', htext, htext', hne⟩
    · cases first with
      | union inner => exact absurd ⟨inner, rfl⟩ hfirst
      | _ => exact List.mem_cons_self
    · cases second with
      | union inner => exact absurd ⟨inner, rfl⟩ hsecond
      | _ => exact List.mem_cons_self
termination_by sizeOf types

end PropertyType

/-! ### The types of a database -/

/-- The type of a property and the types that it had before. -/
def Property.types (p : Property) : List PropertyType := p.type :: p.previousTypes

/-- The types of several properties, present and past, list no alternative twice. -/
def WellJoinedAll (names : Naming) (properties : List Property) : Prop :=
  ∀ p ∈ properties, ∀ type ∈ p.types, type.WellJoined names

theorem WellJoinedAll.extend {names more : Naming} {properties : List Property}
    (h : WellJoinedAll names properties) (hmore : names.Extends more) :
    WellJoinedAll more properties :=
  fun p hp type htype => (h p hp type htype).extend hmore

namespace Database

/-- The properties that are stored: those of resources, their attributes, and those of
definitions. -/
def storedProperties (db : Database) : List Property :=
  (db.resources.all.flatMap fun r => r.entity.slots) ++
    db.typeDefinitions.all.flatMap fun d => Keyed.values d.entity.properties

variable {db : Database}

theorem Resolves.references_subset (h : db.Resolves) {p : Property}
    (hp : p ∈ db.storedProperties) {type : PropertyType} (htype : type ∈ p.types) :
    type.references ⊆ db.typeDefinitions.ids := by
  have hmentioned : type.references ⊆ p.references := by
    intro id hid
    rw [Property.references, List.mem_append, List.mem_flatMap]
    rcases List.mem_cons.1 htype with rfl | hprevious
    · exact Or.inl hid
    · exact Or.inr ⟨type, hprevious, hid⟩
  intro id hid
  rw [← Collection.contains_iff]
  rcases List.mem_append.1 hp with hp | hp
  · obtain ⟨r, hr, hslot⟩ := List.mem_flatMap.1 hp
    refine h.resources r hr id ?_
    rw [PropertyMap.references, PropertyMap.references, ← List.flatMap_append]
    exact List.mem_flatMap.2 ⟨p, hslot, hmentioned hid⟩
  · obtain ⟨d, hd, hvalue⟩ := List.mem_flatMap.1 hp
    exact h.definitions d hd id (List.mem_flatMap.2 ⟨p, hvalue, hmentioned hid⟩)

/-- All types that are stored are well joined. -/
def WellJoined (db : Database) : Prop := WellJoinedAll db.typeName db.storedProperties

theorem wellJoined_iff : db.WellJoined ↔
    (∀ r ∈ db.resources.all, WellJoinedAll db.typeName r.entity.slots) ∧
      ∀ d ∈ db.typeDefinitions.all, WellJoinedAll db.typeName (Keyed.values d.entity.properties) := by
  simp only [WellJoined, Database.storedProperties, WellJoinedAll, List.mem_append,
    List.mem_flatMap]
  constructor
  · exact fun h => ⟨fun r hr p hp => h p (Or.inl ⟨r, hr, hp⟩),
      fun d hd p hp => h p (Or.inr ⟨d, hd, hp⟩)⟩
  · rintro ⟨hresources, hdefinitions⟩ p (⟨r, hr, hp⟩ | ⟨d, hd, hp⟩)
    · exact hresources r hr p hp
    · exact hdefinitions d hd p hp

end Database

end ResourceCatalog
