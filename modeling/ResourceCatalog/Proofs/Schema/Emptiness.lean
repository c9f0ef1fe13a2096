import Mathlib
import ResourceCatalog.Proofs.Schema.Unfolding
import ResourceCatalog.Proofs.Schema.UnifiedKinds

/-!
# Maps without values

Two keywords make a schema one for maps, and the same two hold the schemas for its values, but not
quite in the same way: `patternProperties` makes a map also where it lists no pattern. Two different
maps of this form, and no other schemas, fail to unify because there is nothing to be unified. The
rules never make such a map, so schemas in which there is none never come to that.
-/

namespace ResourceCatalog.Schema

/-- A schema that is one for maps because of patterns that it does not have. -/
structure Hollow (schema : Json) : Prop where
  reference : schema.member? "$ref" = none
  type : schema.member? "type" = none ∨ schema.member? "type" = some (.str "object")
  record : isRecord schema = false
  further : describesValues (schema.member? "additionalProperties") = false
  patterns : schema.member? "patternProperties" = some (.obj [])

variable {a b schema unified document part : Json} {members : Members}

/-! ### Maps without schemas for their values -/

theorem mapValues_eq_nil_iff : mapValues schema = [] ↔
    describesValues (schema.member? "additionalProperties") = false ∧
      ∀ patterns, schema.member? "patternProperties" = some (.obj patterns) → patterns = [] := by
  rw [mapValues, List.append_eq_nil_iff]
  refine and_congr ?_ ?_
  · cases schema.member? "additionalProperties" with
    | none => exact iff_of_true rfl rfl
    | some setting =>
      cases setting with
      | bool flag =>
        cases flag with
        | false => exact iff_of_true rfl rfl
        | true => exact iff_of_false (List.cons_ne_nil _ _) fun h => by cases h
      | obj members => exact iff_of_false (List.cons_ne_nil _ _) fun h => by cases h
      | _ => exact iff_of_true rfl rfl
  · split
    · next patterns hsetting =>
      rw [Keyed.values, List.map_eq_nil_iff]
      refine ⟨fun hnil others heq => ?_, fun h => h patterns hsetting⟩
      rwa [← Json.obj.inj (Option.some.inj (hsetting.symm.trans heq))]
    · next hnone => exact iff_of_true rfl fun patterns heq => absurd heq (hnone patterns)

theorem isMap_without_values_iff : isMap schema = true ∧ mapValues schema = [] ↔
    isRecord schema = false ∧ describesValues (schema.member? "additionalProperties") = false ∧
      schema.member? "patternProperties" = some (.obj []) := by
  rw [isMap_eq, mapValues_eq_nil_iff, Bool.and_eq_true, Bool.or_eq_true, Bool.not_eq_true']
  constructor
  · rintro ⟨⟨hrecord, hmap⟩, hnone, hpatterns⟩
    obtain ⟨setting, hsetting, hobject⟩ :=
      (Option.any_eq_true _ _).1 (hmap.resolve_left (hnone ▸ Bool.false_ne_true))
    cases setting with
    | obj patterns => exact ⟨hrecord, hnone, hpatterns patterns hsetting ▸ hsetting⟩
    | _ => cases hobject
  · rintro ⟨hrecord, hnone, hpatterns⟩
    refine ⟨⟨hrecord, Or.inr ?_⟩, hnone, fun patterns hsetting => ?_⟩
    · rw [hpatterns]
      rfl
    · exact (Json.obj.inj (Option.some.inj (hpatterns.symm.trans hsetting))).symm

theorem Hollow.isMap (h : Hollow schema) : isMap schema = true ∧ mapValues schema = [] :=
  isMap_without_values_iff.2 ⟨h.record, h.further, h.patterns⟩

theorem hollow_iff_of_kind (hkind : kind schema = .map) :
    Hollow schema ↔ mapValues schema = [] := by
  refine ⟨fun h => h.isMap.2, fun hvalues => ?_⟩
  have htyped : (Schema.kind schema).isTyped = true := by rw [hkind]; rfl
  obtain ⟨members, rfl, hplain⟩ := exists_plain htyped
  obtain ⟨hrecord, hnone, hpatterns⟩ :=
    isMap_without_values_iff.1 ⟨(isMap_of_kind hplain hkind).2, hvalues⟩
  refine ⟨hplain.reference, ?_, hrecord, hnone, hpatterns⟩
  rcases type_eq_typeName hplain hkind rfl (by decide) with htype | ⟨htype, _⟩
  · exact Or.inr htype
  · exact Or.inl htype

/-- A hollow schema is one for maps, or else a combinator. -/
theorem Hollow.kind (h : Hollow schema) :
    kind schema = .map ∨ kind schema = .unsupported "combinator" :=
  kind_of_isMap h.reference h.type h.isMap.1

theorem failsAt_empty_iff : FailsAt a b .empty ↔ a.same b = false ∧ kind a = .map ∧ kind b = .map ∧
    Hollow a ∧ Hollow b := by
  constructor
  · intro h
    obtain ⟨hne, ⟨_, _, heq⟩ | ⟨ha, hb, hvalues, _⟩ | ⟨_, _, heq⟩ | heq | ⟨_, _, heq⟩⟩ := h.reasons
    · cases heq
    · obtain ⟨hvalues, hvalues'⟩ := List.append_eq_nil_iff.1 hvalues
      exact ⟨hne, ha, hb, (hollow_iff_of_kind ha).2 hvalues, (hollow_iff_of_kind hb).2 hvalues'⟩
    all_goals cases heq
  · rintro ⟨hne, ha, hb, hhollow, hhollow'⟩ inner
    rw [unifyWith_of_ne hne, unifyKinds_maps ha hb]
    exact unifyMaps_of_nil (List.append_eq_nil_iff.2 ⟨hhollow.isMap.2, hhollow'.isMap.2⟩)

/-- Two schemas fail to unify because there is nothing to be unified if and only if their
unification comes to two different hollow maps. -/
theorem exists_empty_iff : (∃ e, unify a b = .error e ∧ e.root = .empty) ↔
    ∃ c d, Relation.ReflTransGen ComesTo (a, b) (c, d) ∧ c.same d = false ∧ kind c = .map ∧
      kind d = .map ∧ Hollow c ∧ Hollow d := by
  simp only [exists_error_unify_iff, failsAt_empty_iff]

/-! ### The rules make no hollow map -/

/-- A well-formed schema that is not hollow. -/
structure Filled (schema : Json) : Prop where
  wellFormed : schema.WellFormed
  notHollow : ¬ Hollow schema

theorem Filled.unify (ha : Filled a) (hb : Filled b) (h : Schema.unify a b = .ok unified) :
    Filled unified := by
  refine ⟨wellFormed_unify ha.wellFormed hb.wellFormed h, fun hhollow => ?_⟩
  cases hsame : a.same b with
  | true => exact ha.notHollow (eq_of_unify_of_same hsame h ▸ hhollow)
  | false =>
    rcases kind_unify_cases ha.wellFormed hb.wellFormed hsame h with
      ⟨k, hk, hkind, hkind', hunified⟩ | hunified | hunified | ⟨_, hunified⟩
    · -- the rule for maps leaves no patterns, and no other rule makes a map
      by_cases hmap : k = .map
      · subst hmap
        have hpatterns := patterns_of_unify ha.wellFormed hb.wellFormed hkind hkind' hsame h
        cases hpatterns.symm.trans hhollow.patterns
      · have hmem := unifiedKind_mem (a := a) (b := b) hk hmap
        rw [← hunified] at hmem
        rcases hhollow.kind with hkindOut | hkindOut
        · exact absurd (hkindOut ▸ hmem) (by decide)
        · exact absurd (hkindOut ▸ hmem) (by decide)
    all_goals
      rcases hhollow.kind with hkindOut | hkindOut
      · cases hunified.symm.trans hkindOut
      · cases hunified.symm.trans hkindOut

theorem filled_any : Filled (.obj []) where
  wellFormed := declared_any.wellFormed
  notHollow h := by cases h.patterns

theorem handedOn_filled : HandedOn Filled := ⟨filled_any, Filled.unify⟩

/-- Schemas without a hollow map in them, one after the other, never leave nothing to be unified. -/
theorem unifyAll_filled {schemas : List Json} (hne : schemas ≠ [])
    (hall : ∀ schema ∈ schemas, Throughout Filled schema) {e : UnifyError}
    (h : unifyAll schemas = .error e) : e.root ≠ .empty := by
  intro hroot
  rcases handedOn_filled.exists_failsAt_of_unifyAll hall h with ⟨hnil, _⟩ | ⟨c, d, hc, _, hfails⟩
  · exact hne hnil
  · exact hc.notHollow (failsAt_empty_iff.1 (hroot ▸ hfails)).2.2.2.1

/-! ### Schemas of a document -/

/-- Nothing in a well-formed document is a hollow map. -/
structure NowhereHollow (document : Json) : Prop where
  wellFormed : document.WellFormed
  notHollow : ∀ part, document.Encloses part → ¬ Hollow part

theorem wellFormed_of_encloses (h : document.WellFormed) (hpart : document.Encloses part) :
    part.WellFormed := by
  induction hpart with
  | refl => exact h
  | @tail value child _ hchild ih =>
    cases value with
    | arr items => exact Json.wellFormed_arr.1 ih child hchild
    | obj members =>
      obtain ⟨entry, hentry, rfl⟩ := List.mem_map.1 hchild
      exact (Json.wellFormed_obj.1 ih).2 entry hentry
    | _ => exact hchild.elim

theorem nowhereHollow_str (text : String) : NowhereHollow (.str text) where
  wellFormed := trivial
  notHollow part hpart hhollow := by
    rcases hpart.cases_head with rfl | ⟨_, hchild, _⟩
    · cases hhollow.patterns
    · exact hchild.elim

theorem nowhereHollow_obj {members : Members} (hascending : Keyed.Ascending members)
    (hnone : ¬ Hollow (.obj members)) (hmembers : ∀ entry ∈ members, NowhereHollow entry.2) :
    NowhereHollow (.obj members) where
  wellFormed := Json.wellFormed_obj.2
    ⟨hascending, fun entry hentry => (hmembers entry hentry).wellFormed⟩
  notHollow part hpart hhollow := by
    rcases hpart.cases_head with rfl | ⟨child, hchild, hinside⟩
    · exact hnone hhollow
    · obtain ⟨entry, hentry, rfl⟩ := List.mem_map.1 hchild
      exact (hmembers entry hentry).notHollow part hinside hhollow

theorem NowhereHollow.throughout (h : NowhereHollow document) (hschema : document.Encloses schema) :
    Throughout Filled schema :=
  throughout_of_encloses
    (fun _ hpart => ⟨wellFormed_of_encloses h.wellFormed hpart, h.notHollow _ hpart⟩) hschema

theorem child_of_child? {value child : Json} {token : String}
    (h : value.child? token = some child) : value.Child child := by
  cases value with
  | arr items =>
    obtain ⟨i, _, hitem⟩ := Option.bind_eq_some_iff.1 h
    exact List.mem_of_getElem? hitem
  | obj members => exact List.mem_map_of_mem (Keyed.mem_of_get? h)
  | _ => cases h

theorem encloses_of_at? {tokens : List String} (h : document.at? tokens = some part) :
    document.Encloses part :=
  Json.holds_at? document.Encloses (fun hvalue hchild => hvalue.tail (child_of_child? hchild)) .refl h

theorem encloses_of_target? {reference : String} (h : target? document reference = some part) :
    document.Encloses part := by
  unfold target? at h
  split at h
  · obtain ⟨tokens, _, hfound⟩ := Option.bind_eq_some_iff.1 h
    exact encloses_of_at? hfound
  · cases h

theorem Part.of_branch {op found : Combinator} {branches : List Json}
    (h : branches? schema op = some (found, branches)) (hpart : part ∈ branches) :
    Part schema part := by
  unfold branches? at h
  split at h
  · next others hsetting =>
    obtain ⟨_, rfl⟩ := Prod.mk.inj (Option.some.inj h)
    refine ⟨(op.key, .arr others), mem_settings_of_member? hsetting, ?_⟩
    cases op <;> exact hpart
  · cases h

theorem Part.of_combinator {op : Combinator} {branches : List Json}
    (h : combinator? schema = some (op, branches)) (hpart : part ∈ branches) :
    Part schema part := by
  unfold combinator? at h
  simp only [Option.or_eq_some_iff] at h
  rcases h with h | ⟨_, h | ⟨_, h⟩⟩
  · exact .of_branch h hpart
  · exact .of_branch h hpart
  · exact .of_branch h hpart

theorem Part.of_itemsSchema (h : itemsSchema? schema = some part) : Part schema part := by
  unfold itemsSchema? at h
  split at h
  · next members hsetting =>
    obtain rfl := Option.some.inj h
    exact .of_items hsetting
  · cases h

theorem Part.of_segment {segment : String}
    (h : ((schema.member? "properties").bind fun settings => settings.member? segment) =
      some part) : Part schema part := by
  obtain ⟨settings, hsettings, hpart⟩ := Option.bind_eq_some_iff.1 h
  cases settings with
  | obj members =>
    have hmem : (segment, part) ∈ properties schema := by
      rw [properties, hsettings]
      exact Keyed.mem_of_get? hpart
    exact .of_property hmem
  | _ => cases hpart

/-! ### Resolved schemas -/

/-- What holds of a resolved schema and of all that it was resolved into. -/
inductive Resolved.Every (P : Json → Prop) : Resolved → Prop
  | concrete {schema : Json} {name : Option String} (h : P schema) : Every P (.concrete schema name)
  | array {schema : Json} {name : Option String} {items : Option Resolved} (h : P schema)
      (hitems : ∀ resolved, items = some resolved → Every P resolved) :
      Every P (.array schema name items)
  | combined {schema : Json} {name : Option String} {op : Combinator} {branches : List Resolved}
      (h : P schema) (hbranches : ∀ resolved ∈ branches, Every P resolved) :
      Every P (.combined schema name op branches)

theorem Resolved.Every.here {P : Json → Prop} {resolved : Resolved} (h : resolved.Every P) :
    P resolved.schema := by
  cases h with
  | concrete h => exact h
  | array h => exact h
  | combined h => exact h

/-- A schema as it is typed: no reference, and without a hollow map in it. -/
structure Typable (schema : Json) : Prop where
  throughout : Throughout Filled schema
  reference : schema.member? "$ref" = none

/-- What a schema without a hollow map unfolds to has none either. -/
theorem Unfolds.every_typable (hdocument : NowhereHollow document) {name : Option String}
    {resolved : Resolved} (h : Unfolds document name schema resolved)
    (hschema : Throughout Filled schema) : resolved.Every Typable := by
  induction h using @Unfolds.rec document _ (fun branches resolved _ =>
    (∀ branch ∈ branches, Throughout Filled branch) → ∀ r ∈ resolved, r.Every Typable) with
  | reference _ htarget _ ih => exact ih (hdocument.throughout (encloses_of_target? htarget))
  | combined href hbranches _ ih =>
    exact .combined ⟨hschema, href⟩
      (ih fun branch hbranch => hschema.below (.of_combinator hbranches hbranch))
  | items href _ _ hitems _ ih =>
    refine .array ⟨hschema, href⟩ fun inner hinner => ?_
    obtain rfl := Option.some.inj hinner
    exact ih (hschema.below (.of_itemsSchema hitems))
  | array href => exact .array ⟨hschema, href⟩ fun _ h => by cases h
  | concrete href => exact .concrete ⟨hschema, href⟩
  | nil hall r hr => exact absurd hr List.not_mem_nil
  | cons _ _ ih ihrest hall r hr =>
    obtain ⟨hfirst, hrest⟩ := List.forall_mem_cons.1 hall
    rcases List.mem_cons.1 hr with rfl | hr
    · exact ih hfirst
    · exact ihrest hrest r hr

end ResourceCatalog.Schema
