import Mathlib
import ResourceCatalog.Catalog.Database
import ResourceCatalog.Proofs.Catalog.Consistency

/-!
# Names of definitions

The text of a type depends on the names of the definitions that it mentions, and on nothing else. So
a type keeps its text from one database to the next if what it mentions is there in both, and has
the same name.
-/

namespace ResourceCatalog

/-- The names of definitions, as far as there are any. -/
abbrev Naming := Identity → Except GraphError String

/-- What has a name keeps it. -/
def Naming.Extends (known names : Naming) : Prop :=
  ∀ id name, known id = .ok name → names id = .ok name

theorem Naming.Extends.refl (names : Naming) : names.Extends names := fun _ _ h => h

theorem Naming.Extends.trans {a b c : Naming} (h : a.Extends b) (h' : b.Extends c) : a.Extends c :=
  fun id name hname => h' id name (h id name hname)

namespace PropertyType

variable {names other : Naming} {types : List PropertyType}

/-- Several types have texts if each of them has. -/
theorem renderAll_eq_ok_iff {texts : List String} :
    renderAll names types = .ok texts ↔
      List.Forall₂ (fun type text => type.render names = .ok text) types texts := by
  induction types generalizing texts with
  | nil =>
    rw [renderAll, List.forall₂_nil_left_iff, Except.ok.injEq, eq_comm]
  | cons type rest ih =>
    rw [renderAll, List.forall₂_cons_left_iff]
    cases htext : type.render names with
    | error e => exact iff_of_false (fun h => nomatch h) fun ⟨_, _, h, _⟩ => nomatch h
    | ok text =>
      cases hrest : renderAll names rest with
      | error e =>
        refine iff_of_false (fun h => nomatch h) fun ⟨_, others, _, h, _⟩ => ?_
        exact nomatch hrest.symm.trans (ih.2 h)
      | ok others =>
        constructor
        · intro h
          exact ⟨text, others, rfl, ih.1 hrest, (Except.ok.inj h).symm⟩
        · rintro ⟨_, others', htext', hothers, rfl⟩
          obtain rfl := Except.ok.inj htext'
          obtain rfl := Except.ok.inj (hrest.symm.trans (ih.2 hothers))
          rfl

mutual

/-- A type keeps its text as long as the definitions that it mentions keep their names. -/
theorem render_eq_of_names {text : String} (type : PropertyType)
    (h : ∀ id ∈ type.references, ∀ name, names id = .ok name → other id = .ok name)
    (htext : type.render names = .ok text) : type.render other = .ok text := by
  cases type with
  | ref definition => exact h definition List.mem_cons_self text htext
  | array element =>
    rw [render] at htext ⊢
    cases hinside : element.render names with
    | error e => rw [hinside] at htext; cases htext
    | ok inside => rwa [render_eq_of_names element h hinside, ← hinside]
  | map element =>
    rw [render] at htext ⊢
    cases hinside : element.render names with
    | error e => rw [hinside] at htext; cases htext
    | ok inside => rwa [render_eq_of_names element h hinside, ← hinside]
  | union types =>
    rw [render] at htext ⊢
    cases hinside : renderAll names types with
    | error e => rw [hinside] at htext; cases htext
    | ok inside => rwa [renderAll_eq_of_names types h hinside, ← hinside]
  | _ => exact htext

theorem renderAll_eq_of_names {texts : List String} (types : List PropertyType)
    (h : ∀ id ∈ referencesOfAll types, ∀ name, names id = .ok name → other id = .ok name)
    (htexts : renderAll names types = .ok texts) : renderAll other types = .ok texts := by
  cases types with
  | nil => exact htexts
  | cons type rest =>
    rw [referencesOfAll] at h
    rw [renderAll_eq_ok_iff, List.forall₂_cons_left_iff] at htexts ⊢
    obtain ⟨text, others, htext, hothers, rfl⟩ := htexts
    refine ⟨text, others, ?_, ?_, rfl⟩
    · exact render_eq_of_names type (fun id hid => h id (List.mem_append_left _ hid)) htext
    · exact renderAll_eq_ok_iff.1 (renderAll_eq_of_names rest
        (fun id hid => h id (List.mem_append_right _ hid)) (renderAll_eq_ok_iff.2 hothers))

end

end PropertyType

namespace Database

variable {db before after : Database}

/-- A definition has a name if it is there. -/
theorem typeName_eq_ok_iff (h : db.typeDefinitions.Coherent) {id : Identity} {name : String} :
    db.typeName id = .ok name ↔ ∃ d ∈ db.typeDefinitions.all, d.id = id ∧ d.entity.name = name := by
  constructor
  · intro hname
    rw [typeName] at hname
    cases hget : db.typeDefinitions.get id with
    | error e => rw [hget] at hname; cases hname
    | ok d =>
      rw [hget] at hname
      exact ⟨d, Collection.mem_all_of_get hget, Collection.id_eq_of_get hget,
        Except.ok.inj hname⟩
  · rintro ⟨d, hd, rfl, rfl⟩
    rw [typeName, Collection.get_of_mem h.distinct hd]
    rfl

/-- Definitions that stay keep their names. -/
theorem extends_typeName (hbefore : before.typeDefinitions.Coherent)
    (hafter : after.typeDefinitions.Coherent)
    (h : ∀ d ∈ before.typeDefinitions.all, ∃ d' ∈ after.typeDefinitions.all,
      d'.id = d.id ∧ d'.entity.name = d.entity.name) :
    Naming.Extends before.typeName after.typeName := by
  intro id name hname
  obtain ⟨d, hd, rfl, rfl⟩ := (typeName_eq_ok_iff hbefore).1 hname
  exact (typeName_eq_ok_iff hafter).2 (h d hd)

/-- What is there in the end, and was there before, has kept its name. -/
def KeepsNames (before after : Database) : Prop :=
  ∀ id ∈ after.typeDefinitions.ids, ∀ name, before.typeName id = .ok name →
    after.typeName id = .ok name

theorem typeName_congr (h : after.typeDefinitions = before.typeDefinitions) :
    after.typeName = before.typeName := by
  funext id
  rw [typeName, h, typeName]

theorem KeepsNames.refl (db : Database) : db.KeepsNames db := fun _ _ _ hname => hname

/-- Names that are kept from a database to one that has more of them are kept. -/
theorem KeepsNames.of_extends {middle : Database}
    (hmore : Naming.Extends before.typeName middle.typeName) (h : middle.KeepsNames after) :
    before.KeepsNames after :=
  fun id hid name hname => h id hid name (hmore id name hname)

/-- A type of the later database has the text that it had. -/
theorem KeepsNames.render (h : before.KeepsNames after) {type : PropertyType} {text : String}
    (htype : type.references ⊆ after.typeDefinitions.ids) (htext : before.render type = .ok text) :
    after.render type = .ok text :=
  type.render_eq_of_names (fun id hid => h id (htype hid)) htext

/-- Types that are mentioned in the end have the texts that they had. -/
theorem KeepsNames.map_render (h : before.KeepsNames after) {types : List PropertyType}
    {texts : List String} (htypes : ∀ type ∈ types, type.references ⊆ after.typeDefinitions.ids)
    (htexts : types.map before.render = texts.map Except.ok) :
    types.map after.render = texts.map Except.ok := by
  rw [← htexts]
  refine List.map_congr_left fun type htype => ?_
  obtain ⟨text, -, htext⟩ := List.mem_map.1 (htexts ▸ List.mem_map_of_mem htype)
  rw [← htext, h.render (htypes type htype) htext.symm]

end Database

end ResourceCatalog
