import Mathlib
import ResourceCatalog.Proofs.Json.Parts
import ResourceCatalog.Proofs.Schema.Faults

/-!
# What holds throughout a schema

The parts of a schema are the schemas under its keywords. What holds throughout two schemas, that is
of all their parts at any depth, holds throughout what they unify to and throughout all schemas that
their unification comes to, if a single unification hands it on: the rules make no part out of
anything but parts.
-/

namespace ResourceCatalog.Schema

/-- The schemas in the setting of a keyword. -/
def partsUnder : String → Json → List Json
  | "items", schema => [schema]
  | "additionalProperties", schema => if describesValues (some schema) then [schema] else []
  | "properties", .obj members => Keyed.values members
  | "patternProperties", .obj members => Keyed.values members
  | "anyOf", .arr branches => branches
  | "oneOf", .arr branches => branches
  | "allOf", .arr branches => branches
  | _, _ => []

/-- A schema under a keyword of another one. -/
def Part (schema part : Json) : Prop := ∃ entry ∈ settings schema, part ∈ partsUnder entry.1 entry.2

/-- A property of a schema and of all its parts, the parts of its parts and so on. -/
def Throughout (P : Json → Prop) (schema : Json) : Prop :=
  ∀ part, Relation.ReflTransGen Part schema part → P part

variable {P : Json → Prop} {a b schema part : Json}
  {inner : Json → Json → Except UnifyError Json}

theorem Throughout.here (h : Throughout P schema) : P schema := h schema .refl

theorem Throughout.below (h : Throughout P schema) (hpart : Part schema part) : Throughout P part :=
  fun _ hdeeper => h _ (.head hpart hdeeper)

theorem throughout_iff :
    Throughout P schema ↔ P schema ∧ ∀ part, Part schema part → Throughout P part := by
  refine ⟨fun h => ⟨h.here, fun _ => h.below⟩, fun ⟨hhere, hparts⟩ deep hdeep => ?_⟩
  rcases hdeep.cases_head with rfl | ⟨part, hpart, hdeeper⟩
  · exact hhere
  · exact hparts part hpart deep hdeeper

theorem throughout_of_nil (h : P (.obj [])) : Throughout P (.obj []) :=
  throughout_iff.2 ⟨h, fun _ ⟨_, hentry, _⟩ => absurd hentry List.not_mem_nil⟩

/-! ### Parts -/

theorem Part.of_items (h : schema.member? "items" = some part) : Part schema part :=
  ⟨("items", part), mem_settings_of_member? h, List.mem_singleton_self part⟩

theorem Part.of_property {entry : String × Json} (h : entry ∈ properties schema) :
    Part schema entry.2 := by
  rw [properties] at h
  cases hsetting : schema.member? "properties" with
  | none =>
    rw [hsetting] at h
    exact absurd h List.not_mem_nil
  | some setting =>
    rw [hsetting] at h
    cases setting with
    | obj members =>
      exact ⟨("properties", .obj members), mem_settings_of_member? hsetting,
        List.mem_map_of_mem (f := Prod.snd) h⟩
    | _ => exact absurd h List.not_mem_nil

theorem Part.of_mapValues (h : part ∈ mapValues schema) : Part schema part ∨ part = .obj [] := by
  rw [mapValues, List.mem_append] at h
  rcases h with h | h
  · split at h
    · exact Or.inr (List.mem_singleton.1 h)
    · next members hsetting =>
      obtain rfl := List.mem_singleton.1 h
      exact Or.inl ⟨("additionalProperties", .obj members), mem_settings_of_member? hsetting,
        List.mem_singleton_self _⟩
    · exact absurd h List.not_mem_nil
  · split at h
    · next patterns hsetting =>
      exact Or.inl ⟨("patternProperties", .obj patterns), mem_settings_of_member? hsetting, h⟩
    · exact absurd h List.not_mem_nil

theorem partsUnder_of_joined {key : String} (h : key ∈ joinedKeys) (setting : Json) :
    partsUnder key setting = [] := by
  have hall : ∀ key ∈ joinedKeys, partsUnder key setting = [] := by
    simp only [joinedKeys, List.forall_mem_cons]
    exact ⟨rfl, rfl, rfl, rfl, rfl, rfl, rfl, rfl, rfl, rfl, fun _ h => absurd h List.not_mem_nil⟩
  exact hall key h

theorem mem_partsUnder_further (h : part ∈ partsUnder "additionalProperties" schema) :
    part = schema := by
  change part ∈ (if describesValues (some schema) then [schema] else []) at h
  split at h
  · exact List.mem_singleton.1 h
  · exact absurd h List.not_mem_nil

theorem eq_or_child_of_mem_partsUnder {key : String} {setting : Json}
    (h : part ∈ partsUnder key setting) : part = setting ∨ setting.Child part := by
  unfold partsUnder at h
  split at h
  · exact Or.inl (List.mem_singleton.1 h)
  · split at h
    · exact Or.inl (List.mem_singleton.1 h)
    · exact absurd h List.not_mem_nil
  · exact Or.inr h
  · exact Or.inr h
  · exact Or.inr h
  · exact Or.inr h
  · exact Or.inr h
  · exact absurd h List.not_mem_nil

theorem depth_lt_of_child (h : schema.Child part) : part.depth < schema.depth := by
  cases schema with
  | arr items => exact depthItems_le.1 le_rfl part h
  | obj members =>
    obtain ⟨entry, hentry, rfl⟩ := List.mem_map.1 h
    exact depthMembers_le.1 le_rfl entry hentry
  | _ => exact h.elim

theorem child_of_mem_settings {entry : String × Json} (h : entry ∈ settings schema) :
    schema.Child entry.2 := by
  cases schema with
  | obj members => exact List.mem_map_of_mem h
  | _ => exact absurd h List.not_mem_nil

theorem Part.depth_lt (h : Part schema part) : part.depth < schema.depth := by
  obtain ⟨entry, hentry, hpart⟩ := h
  have hsetting := depth_lt_of_mem_settings hentry
  rcases eq_or_child_of_mem_partsUnder hpart with rfl | hchild
  · exact hsetting
  · exact (depth_lt_of_child hchild).trans hsetting

theorem Part.encloses (h : Part schema part) : schema.Encloses part := by
  obtain ⟨entry, hentry, hpart⟩ := h
  have hsetting := Relation.ReflTransGen.single (child_of_mem_settings hentry)
  rcases eq_or_child_of_mem_partsUnder hpart with rfl | hchild
  · exact hsetting
  · exact hsetting.tail hchild

/-- What holds everywhere in a document holds throughout the schemas in it. -/
theorem throughout_of_encloses {document : Json} (h : ∀ part, document.Encloses part → P part)
    (hschema : document.Encloses schema) : Throughout P schema := by
  intro part hpart
  have hinside : schema.Encloses part := by
    induction hpart with
    | refl => exact .refl
    | tail _ hstep ih => exact ih.trans hstep.encloses
  exact h part (hschema.trans hinside)

/-! ### Parts of what the rules write -/

/-- A part of what the rules write is a part of a side, or what parts of both sides unify to. -/
theorem Written.parts {entry : String × Json} (h : Written inner a b entry)
    (hpart : part ∈ partsUnder entry.1 entry.2) :
    Part a part ∨ Part b part ∨ (∃ x y, Part a x ∧ Part b y ∧ inner x y = .ok part) ∨
      unifyAllWith inner (mapValues a ++ mapValues b) = .ok part := by
  cases h with
  | kept hentry => exact Or.inl ⟨entry, hentry, hpart⟩
  | scalar hkey =>
    rw [partsUnder_of_joined hkey] at hpart
    exact absurd hpart List.not_mem_nil
  | array hkey =>
    rw [partsUnder_of_joined hkey] at hpart
    exact absurd hpart List.not_mem_nil
  | @items x y z hx hy hz =>
    obtain rfl := List.mem_singleton.1 (show part ∈ [z] from hpart)
    exact Or.inr (Or.inr (Or.inl ⟨x, y, ⟨_, hx, List.mem_singleton_self x⟩,
      ⟨_, hy, List.mem_singleton_self y⟩, hz⟩))
  | declared _ hmembers =>
    obtain ⟨new, hnew, rfl⟩ := List.mem_map.1 hpart
    rcases hmembers new hnew with hmem | hmem | ⟨x, hx, y, hy, hz⟩
    · exact Or.inl (.of_property hmem)
    · exact Or.inr (Or.inl (.of_property hmem))
    · exact Or.inr (Or.inr (Or.inl ⟨x.2, y.2, .of_property hx, .of_property hy, hz⟩))
  | values hvalues =>
    obtain rfl := mem_partsUnder_further hpart
    exact Or.inr (Or.inr (Or.inr hvalues))

/-! ### What unification hands on -/

/-- What holds of what two schemas unify to if it holds of them, and of the schema that accepts
everything. -/
structure HandedOn (P : Json → Prop) : Prop where
  any : P (.obj [])
  unify : ∀ {a b unified : Json}, P a → P b → unify a b = .ok unified → P unified

namespace HandedOn

theorem mapValues (hP : HandedOn P) (h : Throughout P schema) (hpart : part ∈ mapValues schema) :
    Throughout P part := by
  rcases Part.of_mapValues hpart with hpart | rfl
  · exact h.below hpart
  · exact throughout_of_nil hP.any

theorem throughout (hP : HandedOn P) {unified : Json} (ha : Throughout P a) (hb : Throughout P b)
    (h : Schema.unify a b = .ok unified) : Throughout P unified := by
  induction hn : max a.depth b.depth using Nat.strong_induction_on generalizing a b unified with
  | _ n ih =>
    subst hn
    refine throughout_iff.2 ⟨hP.unify ha.here hb.here h, fun part hpart => ?_⟩
    rw [unify_eq, unifyWith] at h
    split at h
    · obtain rfl := Except.ok.inj h
      exact ha.below hpart
    obtain ⟨out, rfl, hout⟩ := written_unifyKinds h
    obtain ⟨entry, hentry, hunder⟩ := hpart
    rcases (hout entry hentry).parts hunder with hpart | hpart | ⟨x, y, hx, hy, hz⟩ | hvalues
    · exact ha.below hpart
    · exact hb.below hpart
    · exact ih _ (max_lt_max hx.depth_lt hy.depth_lt) (ha.below hx) (hb.below hy) hz rfl
    · refine (unifyAllWith_preserves
        (P := fun value => Throughout P value ∧ value.depth < max a.depth b.depth)
        (fun hx hy hz => ?_) (fun value hvalue => ?_) hvalues).1
      · exact ⟨ih _ (max_lt hx.2 hy.2) hx.1 hy.1 hz rfl,
          NoDeeper.lt (noDeeper_unify _) le_rfl hx.2 hy.2 hz⟩
      · rcases List.mem_append.1 hvalue with hmem | hmem
        · exact ⟨hP.mapValues ha hmem, lt_max_of_lt_left (depth_lt_of_mem_mapValues hmem)⟩
        · exact ⟨hP.mapValues hb hmem, lt_max_of_lt_right (depth_lt_of_mem_mapValues hmem)⟩

theorem unifyAll (hP : HandedOn P) {schemas : List Json} {unified : Json}
    (hall : ∀ schema ∈ schemas, Throughout P schema) (h : Schema.unifyAll schemas = .ok unified) :
    Throughout P unified :=
  unifyAllWith_preserves (P := Throughout P) hP.throughout hall h

theorem comesTo (hP : HandedOn P) {c d : Json} (ha : Throughout P a) (hb : Throughout P b)
    (h : ComesTo (a, b) (c, d)) : Throughout P c ∧ Throughout P d := by
  have hcalls : Calls Schema.unify a b c d := h
  cases hcalls with
  | items _ _ _ hx hy => exact ⟨ha.below (.of_items hx), hb.below (.of_items hy)⟩
  | @property before after _ name _ _ _ _ _ hx _ hy =>
    have hmem : (name, c) ∈ properties a := hx ▸ List.mem_append_right _ List.mem_cons_self
    exact ⟨ha.below (.of_property hmem), hb.below (.of_property (Keyed.mem_of_get? hy))⟩
  | @value first _ _ before after _ _ _ hvalues hbefore =>
    have hall : ∀ value ∈ first :: (before ++ d :: after), Throughout P value := by
      intro value hvalue
      rcases List.mem_append.1 (hvalues ▸ hvalue) with hmem | hmem
      · exact hP.mapValues ha hmem
      · exact hP.mapValues hb hmem
    obtain ⟨hfirst, hrest⟩ := List.forall_mem_cons.1 hall
    obtain ⟨hfront, hback⟩ := List.forall_mem_append.1 hrest
    exact ⟨foldlM_preserves (P := Throughout P) hP.throughout hfirst hfront hbefore,
      hback d List.mem_cons_self⟩

theorem reaches (hP : HandedOn P) {later : Json × Json} (ha : Throughout P a)
    (hb : Throughout P b) (h : Relation.ReflTransGen ComesTo (a, b) later) :
    Throughout P later.1 ∧ Throughout P later.2 := by
  induction h with
  | refl => exact ⟨ha, hb⟩
  | tail _ hstep ih => exact hP.comesTo ih.1 ih.2 hstep

/-- Schemas throughout which a property holds unify or fail by themselves at schemas with the
property. -/
theorem exists_failsAt (hP : HandedOn P) {e : UnifyError} (ha : Throughout P a)
    (hb : Throughout P b) (h : Schema.unify a b = .error e) :
    ∃ c d, P c ∧ P d ∧ FailsAt c d e.root := by
  obtain ⟨c, d, hreaches, hfails⟩ := exists_error_unify_iff.1 ⟨e, h, rfl⟩
  obtain ⟨hc, hd⟩ := hP.reaches ha hb hreaches
  exact ⟨c, d, hc.here, hd.here, hfails⟩

theorem exists_failsAt_of_unifyAll (hP : HandedOn P) {schemas : List Json} {e : UnifyError}
    (hall : ∀ schema ∈ schemas, Throughout P schema) (h : Schema.unifyAll schemas = .error e) :
    (schemas = [] ∧ e = .empty) ∨ ∃ c d, P c ∧ P d ∧ FailsAt c d e.root := by
  cases schemas with
  | nil => exact Or.inl ⟨rfl, (Except.error.inj h).symm⟩
  | cons first rest =>
    obtain ⟨before, next, after, acc, rfl, hbefore, herror⟩ := foldlM_eq_error_iff.1 h
    obtain ⟨hfirst, hrest⟩ := List.forall_mem_cons.1 hall
    obtain ⟨hfront, hback⟩ := List.forall_mem_append.1 hrest
    have hacc := foldlM_preserves (P := Throughout P) hP.throughout hfirst hfront hbefore
    exact Or.inr (hP.exists_failsAt hacc (hback next List.mem_cons_self) herror)

end HandedOn

end ResourceCatalog.Schema
