import Mathlib
import ResourceCatalog.Proofs.Schema.Keywords

/-!
# Rules for schemas of one type

A rule is sound when what it writes accepts what either side accepts, and is nested no deeper than
the two sides. The rule for arrays is so when it is applied to the items by a unification that is
sound on less deeply nested schemas.
-/

namespace ResourceCatalog.Schema

/-- A schema of bounded nesting that accepts what either of two schemas accepts. -/
structure Unifies (I : Interpretation) (depth : Nat) (a b unified : Json) : Prop where
  wellFormed : unified.WellFormed
  depth_le : unified.depth ≤ depth
  accepts : ∀ {side}, side = a ∨ side = b → ∀ {value}, Accepts I side value →
    Accepts I unified value

/-- A unification that is sound on schemas that are nested less deeply than a bound. -/
def SoundBelow (I : Interpretation) (bound : Nat)
    (inner : Json → Json → Except UnifyError Json) : Prop :=
  ∀ {a b unified depth}, a.WellFormed → b.WellFormed → a.depth ≤ depth → b.depth ≤ depth →
    depth < bound → inner a b = .ok unified → Unifies I depth a b unified

variable {I : Interpretation} {left right out : Members} {depth : Nat} {value : Json} {k : Kind}

/-! ### Kinds of what the rules write -/

theorem Kept.eq_none {a b : Json} {key : String} (h : Kept b a key) (hnone : a.member? key = none) :
    b.member? key = none := by
  cases hb : b.member? key with
  | none => rfl
  | some setting =>
    obtain ⟨other, hother, _⟩ := h setting hb
    rw [hnone] at hother
    cases hother

/-- The keywords of references and combinators. -/
def formKeys : List String := ["$ref", "anyOf", "oneOf", "allOf", "not"]

section Form

variable {handled : List String}

theorem AgreesOutside.plain (h : AgreesOutside handled left right out)
    (hleft : Keyed.Ascending left) (hplain : Plain left) (hform : ∀ key ∈ formKeys, key ∉ handled) :
    Plain out where
  reference := by
    have hkept := h.kept hleft (Or.inl rfl) (hform "$ref" List.mem_cons_self)
    exact hkept.eq_none hplain.reference
  combinators key hkey := by
    have hkept := h.kept hleft (Or.inl rfl) (hform key (List.mem_cons_of_mem _ hkey))
    exact hkept.eq_none (hplain.combinators key hkey)

/-- Two schemas of a kind either have the same type, which is kept, or one of them has none. -/
theorem AgreesOutside.type (h : AgreesOutside handled left right out)
    (hleft : Keyed.Ascending left) (hplain : Plain left) (hplain' : Plain right)
    (hkind : kind (.obj left) = k) (hkind' : kind (.obj right) = k) (htyped : k.isTyped = true)
    (hnumber : k ≠ .number) (hhandled : "type" ∉ handled) :
    Keyed.get? "type" out = some (.str k.typeName) ∨
      Keyed.get? "type" out = none ∧ ∃ side, (side = left ∨ side = right) ∧ untypedKind side = k := by
  rcases type_eq_typeName hplain hkind htyped hnumber with htype | ⟨htype, huntyped⟩
  · rcases type_eq_typeName hplain' hkind' htyped hnumber with htype' | ⟨htype', huntyped'⟩
    · refine Or.inl ?_
      rw [h "type" hhandled]
      exact get?_agreed_of_same hleft List.not_mem_nil htype htype' (Json.same_refl _)
    · exact Or.inr ⟨(h.kept hleft (Or.inr rfl) hhandled).eq_none htype', right, Or.inr rfl, huntyped'⟩
  · exact Or.inr ⟨(h.kept hleft (Or.inl rfl) hhandled).eq_none htype, left, Or.inl rfl, huntyped⟩

end Form

theorem kind_of_type (hplain : Plain out) {type : String}
    (htype : Keyed.get? "type" out = some (.str type)) :
    kind (.obj out) = namedKind (.obj out) type := by
  rw [kind_of_plain hplain, htype]

/-- Without a type, a schema that is not one for objects accepts the members of its enumeration, if it
is not told to be one for texts or arrays. -/
theorem accepts_of_untyped (hplain : Plain out) (htype : Keyed.get? "type" out = none)
    (hobject : ∀ key ∈ objectKeys, Keyed.get? key out = none)
    (henum : ∀ {values}, Keyed.get? "enum" out = some (.arr values) → value.memberOf values = true)
    (hstring : kind (.obj out) = .string → ∀ {values}, Keyed.get? "enum" out = some (.arr values) →
      (∀ value ∈ values, value.isString = true) → Accepts I (.obj out) value)
    (harray : kind (.obj out) = .array → (Keyed.get? "items" out).isSome = true →
      Accepts I (.obj out) value) :
    Accepts I (.obj out) value := by
  have hkind : kind (.obj out) = untypedKind out := by rw [kind_of_plain hplain, htype]
  rcases untypedKind_cases out with
    ⟨⟨key, hkey, hcontains⟩, _⟩ | ⟨_, ⟨hitems, h⟩ | ⟨_, h | ⟨values, hvalues, h⟩⟩⟩
  · rw [contains_eq_false.2 (hobject key hkey)] at hcontains
    cases hcontains
  · exact harray (hkind.trans h) hitems
  · rw [Accepts, hkind.trans h]
    trivial
  · rcases h with ⟨h, hstrings⟩ | h
    · exact hstring (hkind.trans h) hvalues hstrings
    · rw [Accepts, hkind.trans h]
      exact ⟨values, hvalues, henum hvalues⟩

/-! ### Texts -/

/-- The keywords that the rule for texts handles. -/
def textKeys : List String := ["enum", "minLength", "maxLength", "pattern"]

theorem agreesOutside_strings (hleft : Keyed.Ascending left) (right : Members) :
    ∃ out, unifyStrings (.obj left) (.obj right) = .obj out ∧
      AgreesOutside textKeys left right out := by
  refine ⟨_, rfl, AgreesOutside.joinPatterns ?_ (by decide) _ _⟩
  refine AgreesOutside.widen ?_ (by decide) _ _ _
  refine AgreesOutside.widen ?_ (by decide) _ _ _
  exact (agreesOutside_agreed hleft (by decide)).joinEnums (by decide) _ _

theorem fits_strings (hleft : Fits depth left) (hright : Fits depth right) :
    ∃ out, unifyStrings (.obj left) (.obj right) = .obj out ∧ Fits depth out := by
  refine ⟨_, rfl, Fits.joinPatterns ?_ hleft⟩
  refine Fits.widen ?_ hleft _ _
  refine Fits.widen ?_ hleft _ _
  exact (fits_agreed hleft _).joinEnums hleft hright

theorem relaxes_strings (hleft : Keyed.Ascending left) {side : Json}
    (hside : side = .obj left ∨ side = .obj right) :
    I.Relaxes .string (unifyStrings (.obj left) (.obj right)) .string side where
  enum := by
    intro values hvalues
    rw [unifyStrings, Json.member?, get?_joinPatterns_of_ne _ _ (by decide),
      get?_widen_of_ne _ _ (by decide), get?_widen_of_ne _ _ (by decide)] at hvalues
    exact enum_joinEnums hside (get?_agreed_of_mem hleft (by decide)) hvalues
  whole := fun h => by cases h
  bound := by
    intro key bound hbound
    refine ⟨hbound, fun {limit} hlimit => ?_⟩
    have hpattern : key ≠ "pattern" := by
      rintro rfl
      exact absurd hbound (by simp [Kind.bounds])
    rw [unifyStrings, Json.member?, get?_joinPatterns_of_ne _ _ hpattern] at hlimit
    refine bounds_widen hside (by decide) ?_ ?_ hbound hlimit
    · rw [get?_joinEnums_of_ne _ _ (by decide), get?_agreed_of_mem hleft (by decide)]
    · rw [get?_joinEnums_of_ne _ _ (by decide), get?_agreed_of_mem hleft (by decide)]
  pattern := by
    refine fun _ => ⟨rfl, fun {pattern} hpattern => pattern_joinPatterns hside ?_ hpattern⟩
    rw [get?_widen_of_ne _ _ (by decide), get?_widen_of_ne _ _ (by decide),
      get?_joinEnums_of_ne _ _ (by decide), get?_agreed_of_mem hleft (by decide)]
  keyword := by
    intro key hkey setting hsetting
    obtain ⟨out, hout, hagrees⟩ := agreesOutside_strings hleft right
    rw [hout] at hsetting
    have hkey' : key ∉ textKeys := fun hmem => hkey (List.mem_cons_of_mem _ hmem)
    exact ⟨hkey, hagrees.kept hleft hside hkey' setting hsetting⟩

theorem unifies_strings (hleft : Fits depth left) (hright : Fits depth right)
    (hplain : Plain left) (hplain' : Plain right) (hkind : kind (.obj left) = .string)
    (hkind' : kind (.obj right) = .string) :
    Unifies I depth (.obj left) (.obj right) (unifyStrings (.obj left) (.obj right)) := by
  obtain ⟨out, hout, hagrees⟩ := agreesOutside_strings hleft.ascending right
  obtain ⟨out', hout', hfits⟩ := fits_strings hleft hright
  obtain rfl := Json.obj.inj (hout.symm.trans hout')
  obtain ⟨hformed, hdepth⟩ := fits_iff.1 hfits
  refine ⟨hout ▸ hformed, hout ▸ hdepth, fun {side} hside {value} hvalue => ?_⟩
  have hside' : kind side = .string := by
    rcases hside with rfl | rfl
    · exact hkind
    · exact hkind'
  rw [Accepts, hside'] at hvalue
  obtain ⟨hold, text, rfl⟩ := hvalue
  have hmeets := (relaxes_strings hleft.ascending hside).meets hold
  rw [hout] at hmeets ⊢
  have haccepts : kind (.obj out) = .string → Accepts I (.obj out) (.str text) := by
    intro hk
    rw [Accepts, hk]
    exact ⟨hmeets, text, rfl⟩
  have hplainOut := hagrees.plain hleft.ascending hplain (by decide)
  rcases hagrees.type hleft.ascending hplain hplain' hkind hkind' rfl (by decide) (by decide) with
    htype | ⟨htype, other, hother, huntyped⟩
  · exact haccepts (kind_of_type hplainOut htype)
  · obtain ⟨hobject, hitems⟩ := keywords_of_untypedString huntyped
    have hnone : ∀ {key}, key ∉ textKeys → Keyed.get? key other = none → Keyed.get? key out = none := by
      intro key hkey hnone
      have hkept := hagrees.kept hleft.ascending (hother.imp (congrArg Json.obj) (congrArg Json.obj)) hkey
      exact hkept.eq_none hnone
    refine accepts_of_untyped hplainOut htype (fun key hkey => ?_) hmeets.enum
      (fun hk _ _ _ => haccepts hk) fun _ hsome => ?_
    · have hall : ∀ key ∈ objectKeys, key ∉ textKeys := by decide
      exact hnone (hall key hkey) (hobject key hkey)
    · rw [hnone (by decide) hitems] at hsome
      cases hsome

/-! ### Numbers -/

/-- The keywords that the rule for numbers handles. -/
def numberKeys : List String := ["type", "enum", "minimum", "maximum"]

theorem agreesOutside_numbers (hleft : Keyed.Ascending left) (right : Members) :
    ∃ out, unifyNumbers (.obj left) (.obj right) = .obj out ∧
      AgreesOutside numberKeys left right out := by
  refine ⟨_, rfl, AgreesOutside.widen ?_ (by decide) _ _ _⟩
  refine AgreesOutside.widen ?_ (by decide) _ _ _
  refine AgreesOutside.joinEnums ?_ (by decide) _ _
  exact (agreesOutside_agreed hleft (by decide)).insert (by decide) _

theorem fits_numbers (hleft : Fits depth left) (hright : Fits depth right) (hne : left ≠ []) :
    ∃ out, unifyNumbers (.obj left) (.obj right) = .obj out ∧ Fits depth out := by
  refine ⟨_, rfl, Fits.widen ?_ hleft _ _⟩
  refine Fits.widen ?_ hleft _ _
  refine Fits.joinEnums ?_ hleft hright
  exact (fits_agreed hleft _).insert trivial (hleft.pos hne)

theorem type_numbers (a b : Json) : (unifyNumbers a b).member? "type" =
    some (.str (if isInteger a && isInteger b then "integer" else "number")) := by
  rw [unifyNumbers, Json.member?, get?_widen_of_ne _ _ (by decide), get?_widen_of_ne _ _ (by decide),
    get?_joinEnums_of_ne _ _ (by decide), Keyed.get?_insert_self]

theorem relaxes_numbers (hleft : Keyed.Ascending left) {side : Json}
    (hside : side = .obj left ∨ side = .obj right) :
    I.Relaxes .number (unifyNumbers (.obj left) (.obj right)) .number side where
  enum := by
    intro values hvalues
    rw [unifyNumbers, Json.member?, get?_widen_of_ne _ _ (by decide),
      get?_widen_of_ne _ _ (by decide)] at hvalues
    refine enum_joinEnums hside ?_ hvalues
    rw [Keyed.get?_insert_of_ne (by decide), get?_agreed_of_mem hleft (by decide)]
  whole := by
    refine fun _ hinteger => ⟨rfl, ?_⟩
    rw [isInteger, type_numbers] at hinteger
    have hboth : (isInteger (.obj left) && isInteger (.obj right)) = true := by
      by_contra hneither
      rw [if_neg hneither] at hinteger
      exact absurd hinteger (by decide)
    rw [Bool.and_eq_true] at hboth
    rcases hside with rfl | rfl
    · exact hboth.1
    · exact hboth.2
  bound := by
    intro key bound hbound
    refine ⟨hbound, fun {limit} hlimit => ?_⟩
    refine bounds_widen hside (by decide) ?_ ?_ hbound hlimit
    · rw [get?_joinEnums_of_ne _ _ (by decide), Keyed.get?_insert_of_ne (by decide),
        get?_agreed_of_mem hleft (by decide)]
    · rw [get?_joinEnums_of_ne _ _ (by decide), Keyed.get?_insert_of_ne (by decide),
        get?_agreed_of_mem hleft (by decide)]
  pattern := fun h => by cases h
  keyword := by
    intro key hkey setting hsetting
    obtain ⟨out, hout, hagrees⟩ := agreesOutside_numbers hleft right
    rw [hout] at hsetting
    exact ⟨hkey, hagrees.kept hleft hside hkey setting hsetting⟩

theorem kind_numbers (hleft : Keyed.Ascending left) (hplain : Plain left) (right : Members) :
    kind (unifyNumbers (.obj left) (.obj right)) = .number := by
  obtain ⟨out, hout, hagrees⟩ := agreesOutside_numbers hleft right
  have htype := type_numbers (.obj left) (.obj right)
  rw [hout] at htype ⊢
  rw [kind_of_type (hagrees.plain hleft hplain (by decide)) htype]
  split
  · rfl
  · rfl

theorem unifies_numbers (hleft : Fits depth left) (hright : Fits depth right)
    (hplain : Plain left) (hkind : kind (.obj left) = .number)
    (hkind' : kind (.obj right) = .number) :
    Unifies I depth (.obj left) (.obj right) (unifyNumbers (.obj left) (.obj right)) := by
  have hne : left ≠ [] := ne_nil_of_isTyped (by rw [hkind]; rfl)
  obtain ⟨out, hout, hfits⟩ := fits_numbers hleft hright hne
  obtain ⟨hformed, hdepth⟩ := fits_iff.1 hfits
  refine ⟨hout ▸ hformed, hout ▸ hdepth, fun {side} hside {value} hvalue => ?_⟩
  have hside' : kind side = .number := by
    rcases hside with rfl | rfl
    · exact hkind
    · exact hkind'
  rw [Accepts, hside'] at hvalue
  have hmeets := (relaxes_numbers hleft.ascending hside).meets hvalue.1
  rw [Accepts, kind_numbers hleft.ascending hplain right]
  exact ⟨hmeets, hvalue.2⟩

/-! ### Truth values and null -/

theorem kind_agreed (hleft : Keyed.Ascending left) (hplain : Plain left) (hplain' : Plain right)
    (hk : k ∈ [Kind.boolean, .null]) (hkind : kind (.obj left) = k) (hkind' : kind (.obj right) = k) :
    kind (.obj (agreed (.obj left) (.obj right) [])) = k := by
  have hagrees : AgreesOutside [] left right (agreed (.obj left) (.obj right) []) :=
    agreesOutside_agreed hleft (by decide)
  have htyped : k.isTyped = true ∧ k ≠ .number := by
    rcases List.mem_pair.1 hk with rfl | rfl
    · decide
    · decide
  rcases hagrees.type hleft hplain hplain' hkind hkind' htyped.1 htyped.2 (by decide) with
    htype | ⟨_, other, _, huntyped⟩
  · rw [kind_of_type (hagrees.plain hleft hplain (by decide)) htype]
    rcases List.mem_pair.1 hk with rfl | rfl
    · rfl
    · rfl
  · exact absurd huntyped (untypedKind_ne hk)

theorem unifies_agreed (hleft : Fits depth left) (hplain : Plain left) (hplain' : Plain right)
    (hk : k ∈ [Kind.boolean, .null]) (hkind : kind (.obj left) = k) (hkind' : kind (.obj right) = k) :
    Unifies I depth (.obj left) (.obj right) (.obj (agreed (.obj left) (.obj right) [])) := by
  have hfits : Fits depth (agreed (.obj left) (.obj right) []) := fits_agreed hleft []
  obtain ⟨hformed, hdepth⟩ := fits_iff.1 hfits
  refine ⟨hformed, hdepth, fun {side} hside {value} hvalue => ?_⟩
  have hside' : kind side = k := by
    rcases hside with rfl | rfl
    · exact hkind
    · exact hkind'
  have hmeets : I.Meets k side value →
      I.Meets k (.obj (agreed (.obj left) (.obj right) [])) value :=
    (Interpretation.Relaxes.of_kept fun key => kept_agreed hleft.ascending hside [] key).meets
  rw [Accepts, hside'] at hvalue
  rw [Accepts, kind_agreed hleft.ascending hplain hplain' hk hkind hkind']
  rcases List.mem_pair.1 hk with rfl | rfl
  · exact ⟨hmeets hvalue.1, hvalue.2⟩
  · exact ⟨hmeets hvalue.1, hvalue.2⟩

/-! ### References -/

theorem kind_references (hleft : Keyed.Ascending left) {target : String}
    (hkind : kind (.obj left) = .reference target) (hkind' : kind (.obj right) = .reference target) :
    kind (.obj (agreed (.obj left) (.obj right) [])) = .reference target := by
  have htarget : Keyed.get? "$ref" (agreed (.obj left) (.obj right) []) = some (.str target) :=
    get?_agreed_of_same hleft List.not_mem_nil (reference_of_kind hkind)
      (reference_of_kind hkind') (Json.same_refl _)
  rw [kind, htarget]

theorem unifies_references (hleft : Fits depth left) {target : String}
    (hkind : kind (.obj left) = .reference target) (hkind' : kind (.obj right) = .reference target) :
    Unifies I depth (.obj left) (.obj right) (.obj (agreed (.obj left) (.obj right) [])) := by
  have hfits : Fits depth (agreed (.obj left) (.obj right) []) := fits_agreed hleft []
  obtain ⟨hformed, hdepth⟩ := fits_iff.1 hfits
  refine ⟨hformed, hdepth, fun {side} hside {value} hvalue => ?_⟩
  have hside' : kind side = .reference target := by
    rcases hside with rfl | rfl
    · exact hkind
    · exact hkind'
  rw [Accepts, hside'] at hvalue
  rw [Accepts, kind_references hleft.ascending hkind hkind']
  exact hvalue

/-! ### Objects of different kinds -/

theorem meets_of_object {side : Json} (hk : kind side ∈ [Kind.record, .map, .openObject])
    (h : Accepts I side value) :
    I.Meets (kind side) side value ∧ ∃ members, value = .obj members := by
  rw [Accepts] at h
  generalize hkind : kind side = k at hk h ⊢
  rcases List.mem_cons.1 hk with rfl | hk
  · obtain ⟨hmeets, members, hvalue, _⟩ := h
    exact ⟨hmeets, members, hvalue⟩
  · rcases List.mem_pair.1 hk with rfl | rfl
    · obtain ⟨hmeets, members, hvalue, _⟩ := h
      exact ⟨hmeets, members, hvalue⟩
    · exact h

/-- The keywords that the rule for open objects handles. -/
def openKeys : List String :=
  ["type", "properties", "additionalProperties", "patternProperties", "required"]

theorem agreesOutside_openObjects (hleft : Keyed.Ascending left) (right : Members) :
    ∃ out, unifyOpenObjects (.obj left) (.obj right) = .obj out ∧
      AgreesOutside openKeys left right out ∧
        Keyed.get? "type" out = some (.str "object") ∧
          ∀ key ∈ openKeys, key ≠ "type" → Keyed.get? key out = none := by
  refine ⟨_, rfl, (agreesOutside_agreed hleft (by decide)).insert (by decide) _,
    Keyed.get?_insert_self _ _ _, fun key hkey hne => ?_⟩
  rw [Keyed.get?_insert_of_ne hne]
  exact get?_agreed_of_mem hleft ((List.mem_cons.1 hkey).resolve_left hne)

theorem relaxes_openObjects (hleft : Keyed.Ascending left) {side : Json}
    (hside : side = .obj left ∨ side = .obj right) (hk : k ∈ [Kind.record, .map, .openObject]) :
    I.Relaxes .openObject (unifyOpenObjects (.obj left) (.obj right)) k side := by
  obtain ⟨out, hout, hagrees, _, hhandled⟩ := agreesOutside_openObjects hleft right
  rw [hout]
  constructor
  · exact (hagrees.kept hleft hside (by decide)).enum
  · exact fun h => by cases h
  · exact fun {key bound} h => absurd h List.not_mem_nil
  · exact fun h => by cases h
  · intro key hkey setting hsetting
    have hopen : key ∉ openKeys := by
      intro hmem
      have hnone := hhandled key hmem fun heq => hkey (heq ▸ List.mem_cons_self)
      cases hnone.symm.trans hsetting
    have hown : ∀ k ∈ [Kind.record, .map, .openObject], ∀ key ∈ k.ownKeys,
        key ∈ openKeys ∨ key ∈ Kind.openObject.ownKeys := by decide
    exact ⟨fun hmem => (hown k hk key hmem).elim hopen hkey,
      hagrees.kept hleft hside hopen setting hsetting⟩

theorem objectKind_of_none (hproperties : Keyed.get? "properties" out = none)
    (hadditional : Keyed.get? "additionalProperties" out = none)
    (hpatterns : Keyed.get? "patternProperties" out = none) :
    objectKind (.obj out) = .openObject := by
  have hrecord : isRecord (.obj out) = false := by
    rw [isRecord_eq, Json.member?, hproperties]
    rfl
  have hmap : isMap (.obj out) = false := by
    rw [isMap_eq, Json.member?, hadditional, Json.member?, hpatterns, hrecord]
    rfl
  rw [objectKind, hrecord, hmap]
  rfl

theorem kind_openObjects (hleft : Keyed.Ascending left) (hplain : Plain left) (right : Members) :
    kind (unifyOpenObjects (.obj left) (.obj right)) = .openObject := by
  obtain ⟨out, hout, hagrees, htype, hhandled⟩ := agreesOutside_openObjects hleft right
  rw [hout, kind_of_type (hagrees.plain hleft hplain (by decide)) htype]
  exact objectKind_of_none (hhandled _ (by decide) (by decide)) (hhandled _ (by decide) (by decide))
    (hhandled _ (by decide) (by decide))

theorem unifies_openObjects (hleft : Fits depth left) (hplain : Plain left)
    (hkind : kind (.obj left) ∈ [Kind.record, .map, .openObject])
    (hkind' : kind (.obj right) ∈ [Kind.record, .map, .openObject]) :
    Unifies I depth (.obj left) (.obj right) (unifyOpenObjects (.obj left) (.obj right)) := by
  have hne : left ≠ [] := by
    rintro rfl
    exact absurd hkind (by decide)
  have hfits : (unifyOpenObjects (.obj left) (.obj right)).WellFormed ∧
      (unifyOpenObjects (.obj left) (.obj right)).depth ≤ depth :=
    fits_iff.1 ((fits_agreed hleft _).insert trivial (hleft.pos hne))
  refine ⟨hfits.1, hfits.2, fun {side} hside {value} hvalue => ?_⟩
  have hside' : kind side ∈ [Kind.record, .map, .openObject] := by
    rcases hside with rfl | rfl
    · exact hkind
    · exact hkind'
  obtain ⟨hmeets, hobject⟩ := meets_of_object hside' hvalue
  rw [Accepts, kind_openObjects hleft.ascending hplain right]
  exact ⟨(relaxes_openObjects hleft.ascending hside hside').meets hmeets, hobject⟩

/-! ### Arrays -/

/-- The keywords that the rule for arrays handles. -/
def arrayKeys : List String := ["items", "minItems", "maxItems"]

/-- What the rule for arrays writes apart from the schema of the items. -/
def arrayBounds (left right : Members) : Members :=
  widen (.obj left) (.obj right) "maxItems" .upper (widen (.obj left) (.obj right) "minItems" .lower
    (agreed (.obj left) (.obj right) arrayKeys))

theorem agreesOutside_arrayBounds (hleft : Keyed.Ascending left) :
    AgreesOutside arrayKeys left right (arrayBounds left right) := by
  refine AgreesOutside.widen ?_ (by decide) _ _ _
  exact (agreesOutside_agreed hleft fun _ => id).widen (by decide) _ _ _

theorem fits_arrayBounds (hleft : Fits depth left) : Fits depth (arrayBounds left right) :=
  ((fits_agreed hleft _).widen hleft _ _).widen hleft _ _

theorem items_arrayBounds (hleft : Keyed.Ascending left) (right : Members) :
    Keyed.get? "items" (arrayBounds left right) = none := by
  rw [arrayBounds, get?_widen_of_ne _ _ (by decide), get?_widen_of_ne _ _ (by decide),
    get?_agreed_of_mem hleft (by decide)]

theorem relaxes_arrays (hleft : Keyed.Ascending left) {side : Json}
    (hside : side = .obj left ∨ side = .obj right)
    (hout : ∀ key, key ≠ "items" → Keyed.get? key out = Keyed.get? key (arrayBounds left right)) :
    I.Relaxes .array (.obj out) .array side where
  enum := by
    intro values hvalues
    refine ((agreesOutside_arrayBounds hleft).kept hleft hside (by decide)).enum ?_
    exact (hout "enum" (by decide)).symm.trans hvalues
  whole := fun h => by cases h
  bound := by
    intro key bound hbound
    have hne : key ≠ "items" := by
      rintro rfl
      exact absurd hbound (by simp [Kind.bounds])
    refine ⟨hbound, fun {limit} hlimit => ?_⟩
    refine bounds_widen hside (by decide) ?_ ?_ hbound ((hout key hne).symm.trans hlimit)
    · exact get?_agreed_of_mem hleft (by decide)
    · exact get?_agreed_of_mem hleft (by decide)
  pattern := fun h => by cases h
  keyword := by
    intro key hkey setting hsetting
    have hall : ∀ key ∈ arrayKeys, key ∈ Kind.array.ownKeys := by decide
    have hkey' : key ∉ arrayKeys := fun hmem => hkey (hall key hmem)
    have hne : key ≠ "items" := fun heq => hkey' (heq ▸ List.mem_cons_self)
    exact ⟨hkey, (agreesOutside_arrayBounds hleft).kept hleft hside hkey' setting
      ((hout key hne).symm.trans hsetting)⟩

/-- The parts of two schemas that are nested less deeply than a bound unify soundly. -/
theorem SoundBelow.unifies {inner : Json → Json → Except UnifyError Json}
    (h : SoundBelow I depth inner) {x y z : Json} (hx : x.WellFormed ∧ x.depth < depth)
    (hy : y.WellFormed ∧ y.depth < depth) (hz : inner x y = .ok z) :
    z.WellFormed ∧ z.depth < depth ∧ ∀ {side}, side = x ∨ side = y → ∀ {value}, Accepts I side value →
      Accepts I z value := by
  have hbound : max x.depth y.depth < depth := max_lt hx.2 hy.2
  obtain ⟨hformed, hdepth, haccepts⟩ :=
    h hx.1 hy.1 (le_max_left _ _) (le_max_right _ _) hbound hz
  exact ⟨hformed, lt_of_le_of_lt hdepth hbound, haccepts⟩

theorem unifyArrays_eq_ok {inner : Json → Json → Except UnifyError Json} {a b unified : Json}
    (h : unifyArrays inner a b = .ok unified) :
    let out := widen a b "maxItems" .upper (widen a b "minItems" .lower (agreed a b arrayKeys))
    ((a.member? "items" = none ∨ b.member? "items" = none) ∧ unified = .obj out) ∨
      ∃ x y z, a.member? "items" = some x ∧ b.member? "items" = some y ∧ inner x y = .ok z ∧
        unified = .obj (Keyed.insert "items" z out) := by
  rw [unifyArrays.eq_def] at h
  dsimp only at h
  cases hx : a.member? "items" with
  | none =>
    rw [hx] at h
    exact Or.inl ⟨Or.inl rfl, (Except.ok.inj h).symm⟩
  | some x =>
    cases hy : b.member? "items" with
    | none =>
      rw [hx, hy] at h
      exact Or.inl ⟨Or.inr rfl, (Except.ok.inj h).symm⟩
    | some y =>
      rw [hx, hy] at h
      dsimp only at h
      split at h
      · next z hz => exact Or.inr ⟨x, y, z, rfl, rfl, hz, (Except.ok.inj h).symm⟩
      · cases h

theorem exists_arrays {inner : Json → Json → Except UnifyError Json} {unified : Json}
    (hsound : SoundBelow I depth inner) (hleft : Fits depth left) (hright : Fits depth right)
    (h : unifyArrays inner (.obj left) (.obj right) = .ok unified) :
    ∃ out, unified = .obj out ∧ Fits depth out ∧
      (∀ key, key ≠ "items" → Keyed.get? key out = Keyed.get? key (arrayBounds left right)) ∧
        ∀ {z}, Keyed.get? "items" out = some z →
          ∀ {side : Json}, side = .obj left ∨ side = .obj right →
            ∃ x, side.member? "items" = some x ∧ ∀ {value}, Accepts I x value → Accepts I z value := by
  rcases unifyArrays_eq_ok h with ⟨_, rfl⟩ | ⟨x, y, z, hx, hy, hz, rfl⟩
  · refine ⟨_, rfl, fits_arrayBounds hleft, fun _ _ => rfl, fun {w} hw => ?_⟩
    cases (items_arrayBounds hleft.ascending right).symm.trans hw
  · obtain ⟨hformed, hdepth, haccepts⟩ := hsound.unifies (hleft.get? hx) (hright.get? hy) hz
    refine ⟨_, rfl, (fits_arrayBounds hleft).insert hformed hdepth,
      fun key hne => Keyed.get?_insert_of_ne hne _ _, fun {w} hw {side} hside => ?_⟩
    rw [Keyed.get?_insert_self] at hw
    obtain rfl := Option.some.inj hw
    rcases hside with rfl | rfl
    · exact ⟨x, hx, haccepts (Or.inl rfl)⟩
    · exact ⟨y, hy, haccepts (Or.inr rfl)⟩

theorem unifies_arrays {inner : Json → Json → Except UnifyError Json} {unified : Json}
    (hsound : SoundBelow I depth inner) (hleft : Fits depth left) (hright : Fits depth right)
    (hplain : Plain left) (hplain' : Plain right) (hkind : kind (.obj left) = .array)
    (hkind' : kind (.obj right) = .array)
    (h : unifyArrays inner (.obj left) (.obj right) = .ok unified) :
    Unifies I depth (.obj left) (.obj right) unified := by
  obtain ⟨out, rfl, hfits, hout, hitems⟩ := exists_arrays hsound hleft hright h
  obtain ⟨hformed, hdepth⟩ := fits_iff.1 hfits
  refine ⟨hformed, hdepth, fun {side} hside {value} hvalue => ?_⟩
  have hside' : kind side = .array := by
    rcases hside with rfl | rfl
    · exact hkind
    · exact hkind'
  rw [Accepts, hside'] at hvalue
  obtain ⟨hold, items, rfl, hinner⟩ := hvalue
  have hmeets := (relaxes_arrays hleft.ascending hside hout).meets hold
  have haccepts : kind (.obj out) = .array → Accepts I (.obj out) (.arr items) := by
    intro hk
    rw [Accepts, hk]
    refine ⟨hmeets, items, rfl, fun z hz item hitem => ?_⟩
    obtain ⟨x, hx, hxz⟩ := hitems hz hside
    exact hxz (hinner x hx item hitem)
  have hagrees : AgreesOutside arrayKeys left right out := by
    intro key hkey
    rw [hout key fun heq => hkey (heq ▸ List.mem_cons_self)]
    exact agreesOutside_arrayBounds hleft.ascending key hkey
  have hplainOut := hagrees.plain hleft.ascending hplain (by decide)
  rcases hagrees.type hleft.ascending hplain hplain' hkind hkind' rfl (by decide) (by decide) with
    htype | ⟨htype, other, hother, huntyped⟩
  · exact haccepts (kind_of_type hplainOut htype)
  · refine accepts_of_untyped hplainOut htype (fun key hkey => ?_) hmeets.enum
      (fun _ values hvalues hstrings => ?_) fun hk _ => haccepts hk
    · have hall : ∀ key ∈ objectKeys, key ∉ arrayKeys := by decide
      have hkept := hagrees.kept hleft.ascending (hother.imp (congrArg Json.obj) (congrArg Json.obj))
        (hall key hkey)
      exact hkept.eq_none (keywords_of_untypedArray huntyped key hkey)
    · -- No array is one of texts.
      obtain ⟨text, htext, hsame⟩ := Json.memberOf_iff.1 (hmeets.enum hvalues)
      have hstring := hstrings text htext
      obtain ⟨_, rfl, _⟩ := Json.same_arr_iff.1 hsame
      cases hstring

end ResourceCatalog.Schema
