import Mathlib
import ResourceCatalog.Proofs.Schema.Kinds

/-!
# What schemas accept

A schema accepts values by its kind. References, schemas without a rule, patterns and the keywords
that no rule reads mean what an interpretation says, which is arbitrary as long as it does not tell
equal values apart and a pattern of alternatives fits where one of them does.

A schema that relaxes another has no restriction that the other does not have, up to wider ones.
-/

namespace ResourceCatalog.Schema

/-- What the parts of schemas mean that their kind does not fix. -/
structure Interpretation where
  /-- The values that the target of a reference accepts. -/
  reference : String → Json → Prop
  /-- The values that a schema without a rule accepts. -/
  unsupported : Json → Json → Prop
  /-- The values that a keyword with a setting allows. -/
  keyword : String → Json → Json → Prop
  /-- The texts that a pattern fits. -/
  fits : String → String → Prop
  /-- The numbers that are integers. -/
  whole : Number → Prop
  unsupported_same : ∀ {a b value : Json}, a.same b = true → unsupported a value →
    unsupported b value
  keyword_same : ∀ {key : String} {a b value : Json}, a.same b = true → keyword key a value →
    keyword key b value
  fits_alternatives : ∀ {x y text : String},
    fits s!"({x})|({y})" text ↔ fits x text ∨ fits y text

/-- The keywords that a kind reads by itself. -/
def Kind.ownKeys : Kind → List String
  | .string => ["type", "enum", "minLength", "maxLength", "pattern"]
  | .number => ["type", "enum", "minimum", "maximum"]
  | .array => ["type", "enum", "items", "minItems", "maxItems"]
  | .record => ["type", "enum", "properties", "required"]
  | .map => ["type", "enum", "additionalProperties", "patternProperties"]
  | _ => ["type", "enum"]

/-- The bounds among them. -/
def Kind.bounds : Kind → List (String × Bound)
  | .string => [("minLength", .lower), ("maxLength", .upper)]
  | .number => [("minimum", .lower), ("maximum", .upper)]
  | .array => [("minItems", .lower), ("maxItems", .upper)]
  | _ => []

/-- What bounds are about: the length of a text or an array, or the number itself. -/
def magnitude : Json → Option Double
  | .str text => some (Double.ofInt text.length)
  | .num n => some n.toDouble
  | .arr items => some (Double.ofInt items.length)
  | _ => none

/-- Whether a bound with a limit allows a size. -/
def Bound.allows : Bound → Double → Double → Bool
  | .lower, limit, size => limit.le size
  | .upper, limit, size => size.le limit

/-- The restrictions of a schema of a kind that are not about the parts of a value. -/
structure Interpretation.Meets (I : Interpretation) (kind : Kind) (schema value : Json) : Prop where
  enum : ∀ {values}, schema.member? "enum" = some (.arr values) → value.memberOf values = true
  whole : kind = .number → isInteger schema = true → ∀ {n}, value = .num n → I.whole n
  bound : ∀ {key bound}, (key, bound) ∈ kind.bounds → ∀ {limit size},
    schema.member? key = some (.num limit) → magnitude value = some size →
      bound.allows limit.toDouble size = true
  pattern : kind = .string → ∀ {pattern text}, schema.member? "pattern" = some (.str pattern) →
    value = .str text → I.fits pattern text
  keyword : ∀ {key}, key ∉ kind.ownKeys → ∀ {setting}, schema.member? key = some setting →
    I.keyword key setting value

/-- A schema accepts a value. -/
def Accepts (I : Interpretation) (schema value : Json) : Prop :=
  match kind schema with
  | .any => True
  | .reference target => I.reference target value
  | .string => I.Meets .string schema value ∧ ∃ text, value = .str text
  | .number => I.Meets .number schema value ∧ ∃ n, value = .num n
  | .boolean => I.Meets .boolean schema value ∧ ∃ b, value = .bool b
  | .null => I.Meets .null schema value ∧ value = .null
  | .array =>
    I.Meets .array schema value ∧
      ∃ (items : List Json) (_ : value = .arr items), ∀ inner, schema.member? "items" = some inner →
        ∀ item, item ∈ items → Accepts I inner item
  | .record =>
    I.Meets .record schema value ∧
      ∃ (members : Members) (_ : value = .obj members),
        (∀ entry, entry ∈ members → ∃ inner,
          Keyed.get? entry.1 (properties schema) = some inner ∧ Accepts I inner entry.2) ∧
        ∀ name ∈ requiredNames schema, ∃ entry ∈ members, entry.1 = name
  | .map =>
    I.Meets .map schema value ∧
      ∃ (members : Members) (_ : value = .obj members), ∀ entry, entry ∈ members →
        ∃ inner ∈ mapValues schema, Accepts I inner entry.2
  | .openObject => I.Meets .openObject schema value ∧ ∃ members, value = .obj members
  | .unsupported reason =>
    if reason = untypedEnum then
      ∃ values, schema.member? "enum" = some (.arr values) ∧ value.memberOf values = true
    else I.unsupported schema value
termination_by sizeOf value
decreasing_by
  · have hitem := List.sizeOf_lt_of_mem ‹item ∈ items›
    subst_vars
    rw [Json.arr.sizeOf_spec]
    omega
  all_goals
    have hentry := List.sizeOf_lt_of_mem ‹entry ∈ members›
    have hvalue : sizeOf entry = 1 + sizeOf entry.1 + sizeOf entry.2 := rfl
    subst_vars
    rw [Json.obj.sizeOf_spec]
    omega

/-- Where a schema for open objects has `additionalProperties`, the setting is no schema for the
values under further keys. What it allows as a keyword includes the objects whose values it accepts
as a schema. -/
def Interpretation.ReadsFurtherKeys (I : Interpretation) : Prop :=
  ∀ {setting : Json} {members : Members}, describesValues (some setting) = false →
    (∀ entry ∈ members, I.unsupported setting entry.2) →
      I.keyword "additionalProperties" setting (.obj members)

variable {I : Interpretation} {a b value : Json}

/-! ### Relaxed schemas -/

/-- A keyword of a schema is there with an equal setting in another one. -/
def Kept (relaxed schema : Json) (key : String) : Prop :=
  ∀ setting, relaxed.member? key = some setting →
    ∃ other, schema.member? key = some other ∧ other.same setting = true

/-- Every restriction of a schema of a kind, apart from those on parts, is at most as strong as one
of another schema of a kind. -/
structure Interpretation.Relaxes (I : Interpretation) (relaxedKind : Kind) (relaxed : Json)
    (kind : Kind) (schema : Json) : Prop where
  enum : ∀ {values}, relaxed.member? "enum" = some (.arr values) →
    ∃ others, schema.member? "enum" = some (.arr others) ∧
      ∀ value : Json, value.memberOf others = true → value.memberOf values = true
  whole : relaxedKind = .number → isInteger relaxed = true →
    kind = .number ∧ isInteger schema = true
  bound : ∀ {key bound}, (key, bound) ∈ relaxedKind.bounds → (key, bound) ∈ kind.bounds ∧
    ∀ {limit}, relaxed.member? key = some (.num limit) →
      ∃ other, schema.member? key = some (.num other) ∧ ∀ size : Double,
        bound.allows other.toDouble size = true → bound.allows limit.toDouble size = true
  pattern : relaxedKind = .string → kind = .string ∧
    ∀ {pattern}, relaxed.member? "pattern" = some (.str pattern) →
      ∃ other, schema.member? "pattern" = some (.str other) ∧
        ∀ text, I.fits other text → I.fits pattern text
  keyword : ∀ {key}, key ∉ relaxedKind.ownKeys → ∀ {setting},
    relaxed.member? key = some setting →
      key ∉ kind.ownKeys ∧ ∃ other, schema.member? key = some other ∧ other.same setting = true

theorem Interpretation.Relaxes.meets {relaxedKind kind : Kind}
    (h : I.Relaxes relaxedKind b kind a) (hmeets : I.Meets kind a value) :
    I.Meets relaxedKind b value where
  enum := by
    intro values hvalues
    obtain ⟨others, hothers, hwider⟩ := h.enum hvalues
    exact hwider value (hmeets.enum hothers)
  whole := by
    intro hkind hinteger n hn
    obtain ⟨hkind', hinteger'⟩ := h.whole hkind hinteger
    exact hmeets.whole hkind' hinteger' hn
  bound := by
    intro key bound hbound limit size hlimit hsize
    obtain ⟨hbound', hwider⟩ := h.bound hbound
    obtain ⟨other, hother, hallows⟩ := hwider hlimit
    exact hallows size (hmeets.bound hbound' hother hsize)
  pattern := by
    intro hkind pattern text hpattern htext
    obtain ⟨hkind', hwider⟩ := h.pattern hkind
    obtain ⟨other, hother, hfits⟩ := hwider hpattern
    exact hfits text (hmeets.pattern hkind' hother htext)
  keyword := by
    intro key hkey setting hsetting
    obtain ⟨hkey', other, hother, hsame⟩ := h.keyword hkey hsetting
    exact I.keyword_same hsame (hmeets.keyword hkey' hother)

theorem Bound.allows_congr {bound : Bound} {m n : Number} (h : m.same n = true) {size : Double} :
    bound.allows m.toDouble size = true ↔ bound.allows n.toDouble size = true := by
  have hvalue := Number.value_eq_of_same h
  cases bound with
  | lower => rw [allows, allows, Double.le_iff, Double.le_iff, hvalue]
  | upper => rw [allows, allows, Double.le_iff, Double.le_iff, hvalue]

theorem Kept.enum (h : Kept b a "enum") {values : List Json}
    (hvalues : b.member? "enum" = some (.arr values)) :
    ∃ others, a.member? "enum" = some (.arr others) ∧
      ∀ value : Json, value.memberOf others = true → value.memberOf values = true := by
  obtain ⟨other, hother, hsame⟩ := h _ hvalues
  obtain ⟨others, rfl, _⟩ := Json.same_arr_iff.1 (Json.same_symm hsame)
  exact ⟨others, hother, fun value => Json.memberOf_of_same hsame⟩

theorem Kept.bound {key : String} (h : Kept b a key) {limit : Number}
    (hlimit : b.member? key = some (.num limit)) (bound : Bound) :
    ∃ other, a.member? key = some (.num other) ∧ ∀ size : Double,
      bound.allows other.toDouble size = true → bound.allows limit.toDouble size = true := by
  obtain ⟨other, hother, hsame⟩ := h _ hlimit
  obtain ⟨other, rfl, _⟩ := Json.same_num_iff.1 (Json.same_symm hsame)
  exact ⟨other, hother, fun size => (Bound.allows_congr hsame).1⟩

theorem Kept.str {key : String} (h : Kept b a key) {text : String}
    (htext : b.member? key = some (.str text)) : a.member? key = some (.str text) := by
  obtain ⟨other, hother, hsame⟩ := h _ htext
  rw [hother, Json.same_str_iff.1 (Json.same_symm hsame)]

theorem Kept.isInteger (h : Kept b a "type") (hb : isInteger b = true) : isInteger a = true := by
  rw [Schema.isInteger] at hb
  split at hb
  · next htype =>
    rw [Schema.isInteger, h.str htype]
    rfl
  · cases hb

/-- A schema that has every keyword of another one with an equal setting relaxes it. -/
theorem Interpretation.Relaxes.of_kept {kind : Kind} (h : ∀ key, Kept b a key) :
    I.Relaxes kind b kind a where
  enum := (h "enum").enum
  whole := fun hkind hb => ⟨hkind, (h "type").isInteger hb⟩
  bound := fun {key bound} hbound => ⟨hbound, fun hlimit => (h key).bound hlimit bound⟩
  pattern := fun hkind => ⟨hkind, fun hpattern => ⟨_, (h "pattern").str hpattern, fun _ => id⟩⟩
  keyword := fun {key} hkey _ hsetting => ⟨hkey, h key _ hsetting⟩

theorem kept_of_same (h : a.same b = true) (key : String) : Kept b a key := by
  intro setting hsetting
  obtain ⟨other, hother, hsame⟩ := Json.exists_member?_same (Json.same_symm h) hsetting
  exact ⟨other, hother, Json.same_symm hsame⟩

theorem properties_same (h : a.same b = true) :
    Json.sameMembers (properties a) (properties b) = true := by
  rw [properties, properties]
  have hrel := Json.member?_same h "properties"
  generalize a.member? "properties" = x, b.member? "properties" = y at hrel
  cases hrel with
  | none => rfl
  | @some x y hxy =>
    cases x with
    | obj _ =>
      cases y with
      | obj _ => exact hxy
      | _ => cases hxy
    | _ =>
      cases y with
      | obj _ => cases hxy
      | _ => rfl

theorem requiredNames_same (h : a.same b = true) : requiredNames a = requiredNames b := by
  rw [requiredNames, requiredNames]
  have hrel := Json.member?_same h "required"
  generalize a.member? "required" = x, b.member? "required" = y at hrel
  have hitem : ∀ {x y : Json}, x.same y = true → x.asString? = y.asString? := by
    intro x y hxy
    cases x with
    | str s =>
      cases y with
      | str t => rw [beq_iff_eq.1 (show (s == t) = true from hxy)]
      | _ => cases hxy
    | _ =>
      cases y with
      | str _ => cases hxy
      | _ => rfl
  cases hrel with
  | none => rfl
  | @some x y hxy =>
    cases x with
    | arr us =>
      cases y with
      | arr vs =>
        change us.filterMap Json.asString? = vs.filterMap Json.asString?
        induction Json.sameItems_iff.1 (show Json.sameItems us vs = true from hxy) with
        | nil => rfl
        | cons hfirst hrest ih =>
          rw [List.filterMap_cons, List.filterMap_cons, hitem hfirst, ih (Json.sameItems_iff.2 hrest)]
      | _ => cases hxy
    | _ =>
      cases y with
      | arr _ => cases hxy
      | _ => rfl

theorem mapValues_same (h : a.same b = true) {inner : Json} (hinner : inner ∈ mapValues a) :
    ∃ inner' ∈ mapValues b, inner.same inner' = true := by
  rw [mapValues, List.mem_append] at hinner
  rcases hinner with hinner | hinner
  · split at hinner
    · next hmember =>
      obtain rfl := List.mem_singleton.1 hinner
      obtain ⟨other, hother, hsame⟩ := Json.exists_member?_same h hmember
      obtain rfl := Json.same_bool_iff.1 hsame
      refine ⟨.obj [], List.mem_append_left _ ?_, rfl⟩
      rw [hother]
      exact List.mem_singleton_self _
    · next members hmember =>
      obtain rfl := List.mem_singleton.1 hinner
      obtain ⟨other, hother, hsame⟩ := Json.exists_member?_same h hmember
      obtain ⟨others, rfl, _⟩ := Json.same_obj_iff.1 hsame
      refine ⟨.obj others, List.mem_append_left _ ?_, hsame⟩
      rw [hother]
      exact List.mem_singleton_self _
    · exact absurd hinner List.not_mem_nil
  · split at hinner
    · next patterns hmember =>
      obtain ⟨other, hother, hsame⟩ := Json.exists_member?_same h hmember
      obtain ⟨others, rfl, hmembers⟩ := Json.same_obj_iff.1 hsame
      obtain ⟨entry, hentry, rfl⟩ := List.mem_map.1 hinner
      obtain ⟨entry', hentry', _, hvalue⟩ :=
        Json.exists_mem_of_forall₂ (Json.sameMembers_iff.1 hmembers) hentry
      refine ⟨entry'.2, List.mem_append_right _ ?_, hvalue⟩
      rw [hother]
      exact List.mem_map_of_mem hentry'
    · exact absurd hinner List.not_mem_nil

/-- Equal schemas accept the same values. -/
theorem accepts_of_same {a b value : Json} (h : a.same b = true) (hvalue : Accepts I a value) :
    Accepts I b value := by
  have hmeets : ∀ {kind}, I.Meets kind a value → I.Meets kind b value :=
    (Interpretation.Relaxes.of_kept (kept_of_same h)).meets
  rw [Accepts] at hvalue ⊢
  rcases kind_same h with hkind | ⟨reason, reason', ha, hb, hne, hne'⟩
  · rw [hkind] at hvalue
    cases hb : kind b with
    | any => trivial
    | reference target =>
      rw [hb] at hvalue
      exact hvalue
    | unsupported reason =>
      rw [hb] at hvalue
      dsimp only at hvalue ⊢
      split at hvalue
      · next huntyped =>
        obtain ⟨values, hvalues, hmem⟩ := hvalue
        obtain ⟨other, hother, hsame⟩ := Json.exists_member?_same h hvalues
        obtain ⟨others, rfl, hitems⟩ := Json.same_arr_iff.1 hsame
        rw [if_pos huntyped]
        exact ⟨others, hother, Json.memberOf_of_same hitems hmem⟩
      · next huntyped =>
        rw [if_neg huntyped]
        exact I.unsupported_same h hvalue
    | array =>
      rw [hb] at hvalue
      obtain ⟨hold, items, rfl, hitems⟩ := hvalue
      refine ⟨hmeets hold, items, rfl, fun inner' hinner' item hitem => ?_⟩
      obtain ⟨inner, hinner, hsame⟩ := Json.exists_member?_same (Json.same_symm h) hinner'
      exact accepts_of_same (Json.same_symm hsame) (hitems inner hinner item hitem)
    | record =>
      rw [hb] at hvalue
      obtain ⟨hold, members, rfl, hdeclared, hrequired⟩ := hvalue
      refine ⟨hmeets hold, members, rfl, fun entry hentry => ?_, ?_⟩
      · obtain ⟨inner, hinner, haccepts⟩ := hdeclared entry hentry
        obtain ⟨inner', hinner', hsame⟩ : ∃ inner', Keyed.get? entry.1 (properties b) = some inner' ∧
            inner.same inner' = true :=
          Json.exists_member?_same (a := .obj (properties a)) (b := .obj (properties b))
            (properties_same h) hinner
        exact ⟨inner', hinner', accepts_of_same hsame haccepts⟩
      · rw [← requiredNames_same h]
        exact hrequired
    | map =>
      rw [hb] at hvalue
      obtain ⟨hold, members, rfl, hvalues⟩ := hvalue
      refine ⟨hmeets hold, members, rfl, fun entry hentry => ?_⟩
      obtain ⟨inner, hinner, haccepts⟩ := hvalues entry hentry
      obtain ⟨inner', hinner', hsame⟩ := mapValues_same h hinner
      exact ⟨inner', hinner', accepts_of_same hsame haccepts⟩
    | _ =>
      rw [hb] at hvalue
      exact ⟨hmeets hvalue.1, hvalue.2⟩
  · rw [ha] at hvalue
    rw [hb]
    dsimp only at hvalue ⊢
    rw [if_neg hne] at hvalue
    rw [if_neg hne']
    exact I.unsupported_same h hvalue
termination_by sizeOf value
decreasing_by
  · have hitem := List.sizeOf_lt_of_mem ‹item ∈ items›
    subst_vars
    rw [Json.arr.sizeOf_spec]
    omega
  all_goals
    have hentry := List.sizeOf_lt_of_mem ‹entry ∈ members›
    have hpart : sizeOf entry = 1 + sizeOf entry.1 + sizeOf entry.2 := rfl
    subst_vars
    rw [Json.obj.sizeOf_spec]
    omega

end ResourceCatalog.Schema
