import Mathlib
import ResourceCatalog.Schema.Unification
import ResourceCatalog.Proofs.Json.Equality

/-!
# The kinds of schemas

The kind of a schema depends only on its keywords and their settings. Equal schemas are of one kind,
up to the reason for which there is no rule for them.
-/

namespace ResourceCatalog.Schema

/-- The reason for which an enumeration without a type has no rule. -/
def untypedEnum : String := "untyped enum"

variable {a b : Json}

/-! ### Equal schemas -/

theorem schemaReason_ne (text : String) : s!"schema {text}" ≠ untypedEnum := by
  intro h
  change "schema " ++ text = "untyped enum" at h
  have hlist := congrArg String.toList h
  rw [String.toList_append] at hlist
  cases hlist

theorem typeReason_ne (text : String) : s!"type {text}" ≠ untypedEnum := by
  intro h
  change "type " ++ text = "untyped enum" at h
  have hlist := congrArg String.toList h
  rw [String.toList_append] at hlist
  cases hlist

theorem isObject_same (h : a.same b = true) : a.isObject = b.isObject := by
  cases a with
  | obj _ =>
    cases b with
    | obj _ => rfl
    | _ => cases h
  | _ =>
    cases b with
    | obj _ => cases h
    | _ => rfl

theorem isRecord_eq (schema : Json) :
    isRecord schema = (schema.member? "properties").any Json.isObject := by
  rw [isRecord]
  cases schema.member? "properties" with
  | none => rfl
  | some setting => cases setting <;> rfl

theorem any_same {x y : Option Json} (h : Option.Rel (fun x y => x.same y = true) x y)
    {test : Json → Bool} (htest : ∀ {a b : Json}, a.same b = true → test a = test b) :
    x.any test = y.any test := by
  cases h with
  | none => rfl
  | some hxy => exact htest hxy

theorem isRecord_same (h : a.same b = true) : isRecord a = isRecord b := by
  rw [isRecord_eq, isRecord_eq]
  exact any_same (Json.member?_same h "properties") isObject_same

theorem describesValues_same {x y : Option Json}
    (h : Option.Rel (fun x y => x.same y = true) x y) : describesValues x = describesValues y := by
  cases h with
  | none => rfl
  | @some x y hxy =>
    cases x with
    | obj _ =>
      cases y with
      | obj _ => rfl
      | _ => cases hxy
    | bool p =>
      cases y with
      | bool q => rw [beq_iff_eq.1 (show (p == q) = true from hxy)]
      | _ => cases hxy
    | _ =>
      cases y with
      | obj _ => cases hxy
      | bool _ => cases hxy
      | _ => rfl

theorem isMap_eq (schema : Json) :
    isMap schema = (!isRecord schema && (describesValues (schema.member? "additionalProperties") ||
      (schema.member? "patternProperties").any Json.isObject)) := by
  rw [isMap]
  cases schema.member? "patternProperties" with
  | none => rfl
  | some setting => cases setting <;> rfl

theorem objectKind_same (h : a.same b = true) : objectKind a = objectKind b := by
  have hvalues := describesValues_same (Json.member?_same h "additionalProperties")
  have hpatterns : (a.member? "patternProperties").any Json.isObject =
      (b.member? "patternProperties").any Json.isObject :=
    any_same (Json.member?_same h "patternProperties") isObject_same
  rw [objectKind, objectKind, isMap_eq, isMap_eq, isRecord_same h, hvalues, hpatterns]

theorem namedKind_same (h : a.same b = true) (type : String) :
    namedKind a type = namedKind b type := by
  unfold namedKind
  rw [objectKind_same h]

theorem contains_same {xs ys : Members} (h : Json.sameMembers xs ys = true) (key : String) :
    Keyed.contains xs key = Keyed.contains ys key := by
  rw [Keyed.contains, Keyed.contains]
  have hrel := Json.get?_same h key
  cases hx : Keyed.get? key xs with
  | none =>
    rw [hx] at hrel
    cases hy : Keyed.get? key ys with
    | none => rfl
    | some _ =>
      rw [hy] at hrel
      cases hrel
  | some _ =>
    rw [hx] at hrel
    cases hy : Keyed.get? key ys with
    | none =>
      rw [hy] at hrel
      cases hrel
    | some _ => rfl

theorem isString_same (h : a.same b = true) : a.isString = b.isString := by
  cases a with
  | str _ =>
    cases b with
    | str _ => rfl
    | _ => cases h
  | _ =>
    cases b with
    | str _ => cases h
    | _ => rfl

theorem allStrings_same {xs ys : List Json} (h : Json.sameItems xs ys = true) :
    (!xs.isEmpty && xs.all Json.isString) = (!ys.isEmpty && ys.all Json.isString) := by
  have hall : xs.all Json.isString = ys.all Json.isString := by
    induction Json.sameItems_iff.1 h with
    | nil => rfl
    | cons hxy hrest ih =>
      rw [List.all_cons, List.all_cons, isString_same hxy, ih (Json.sameItems_iff.2 hrest)]
  rw [hall]
  cases Json.sameItems_iff.1 h with
  | nil => rfl
  | cons _ _ => rfl

theorem untypedKind_same {xs ys : Members} (h : Json.sameMembers xs ys = true) :
    untypedKind xs = untypedKind ys := by
  have hobject : objectKind (.obj xs) = objectKind (.obj ys) := objectKind_same (a := .obj xs) h
  rw [untypedKind, untypedKind, funext (contains_same h), hobject]
  have hrel := Json.get?_same h "enum"
  generalize Keyed.get? "enum" xs = x, Keyed.get? "enum" ys = y at hrel
  cases hrel with
  | none => rfl
  | @some x y hxy =>
    cases x with
    | arr us =>
      cases y with
      | arr vs =>
        simp only [Option.bind_some, Json.asArray?, allStrings_same (show Json.sameItems us vs = true from hxy)]
      | _ => cases hxy
    | _ =>
      cases y with
      | arr _ => cases hxy
      | _ => rfl

/-- Equal schemas are of the same kind, or there is no rule for either. -/
theorem kind_same (h : a.same b = true) :
    kind a = kind b ∨ ∃ reason reason', kind a = .unsupported reason ∧
      kind b = .unsupported reason' ∧ reason ≠ untypedEnum ∧ reason' ≠ untypedEnum := by
  cases a with
  | bool p =>
    cases b with
    | bool q => rw [beq_iff_eq.1 (show (p == q) = true from h)]; exact Or.inl rfl
    | _ => cases h
  | obj xs =>
    cases b with
    | obj ys =>
      have hreference := Json.get?_same h "$ref"
      have htype := Json.get?_same h "type"
      rw [kind, kind, funext (contains_same h)]
      generalize Keyed.get? "$ref" xs = x, Keyed.get? "$ref" ys = y at hreference
      cases hreference with
      | @some x y hxy =>
        cases x with
        | str s =>
          cases y with
          | str t => rw [beq_iff_eq.1 (show (s == t) = true from hxy)]; exact Or.inl rfl
          | _ => cases hxy
        | _ =>
          cases y with
          | str _ => cases hxy
          | _ => exact Or.inl rfl
      | none =>
        dsimp only
        split
        · exact Or.inl rfl
        · generalize Keyed.get? "type" xs = x, Keyed.get? "type" ys = y at htype
          cases htype with
          | none => exact Or.inl (untypedKind_same h)
          | @some x y hxy =>
            cases x with
            | str s =>
              cases y with
              | str t =>
                rw [beq_iff_eq.1 (show (s == t) = true from hxy)]
                exact Or.inl (namedKind_same (a := .obj xs) h t)
              | _ => cases hxy
            | _ =>
              cases y with
              | str _ => cases hxy
              | _ => exact Or.inr ⟨_, _, rfl, rfl, typeReason_ne _, typeReason_ne _⟩
    | _ => cases h
  | _ =>
    cases b with
    | bool _ => cases h
    | obj _ => cases h
    | _ => exact Or.inr ⟨_, _, rfl, rfl, schemaReason_ne _, schemaReason_ne _⟩

/-! ### Keywords that tell the kind -/

/-- A schema that is no reference and no combinator. -/
structure Plain (members : Members) : Prop where
  reference : Keyed.get? "$ref" members = none
  combinators : ∀ key ∈ ["anyOf", "oneOf", "allOf", "not"], Keyed.get? key members = none

/-- Whether schemas of the kind accept values of one type only. -/
def Kind.isTyped : Kind → Bool
  | .any | .reference _ | .unsupported _ => false
  | _ => true

theorem contains_eq_false {key : String} {members : Members} :
    Keyed.contains members key = false ↔ Keyed.get? key members = none := by
  rw [Keyed.contains, Option.isSome_eq_false_iff, Option.isNone_iff_eq_none]

theorem kind_of_plain {members : Members} (h : Plain members) :
    kind (.obj members) =
      match Keyed.get? "type" members with
      | some (.str type) => namedKind (.obj members) type
      | some other => .unsupported s!"type {other.compact}"
      | none => untypedKind members := by
  have hnone : ["anyOf", "oneOf", "allOf", "not"].any (Keyed.contains members) = false := by
    rw [List.any_eq_false]
    intro key hkey
    rw [contains_eq_false.2 (h.combinators key hkey)]
    exact Bool.false_ne_true
  rw [kind, h.reference]
  exact if_neg (Bool.eq_false_iff.1 hnone)

/-- What is no reference is plain or a combinator. -/
theorem plain_or_combinator {members : Members} (h : Keyed.get? "$ref" members = none) :
    Plain members ∨ kind (.obj members) = .unsupported "combinator" := by
  by_cases hcombinators : ["anyOf", "oneOf", "allOf", "not"].any (Keyed.contains members) = true
  · refine Or.inr ?_
    rw [kind, h]
    exact if_pos hcombinators
  · refine Or.inl ⟨h, fun key hkey => ?_⟩
    rw [Bool.not_eq_true, List.any_eq_false] at hcombinators
    exact contains_eq_false.1 (Bool.not_eq_true _ ▸ hcombinators key hkey)

theorem exists_plain {schema : Json} (h : (kind schema).isTyped = true) :
    ∃ members, schema = .obj members ∧ Plain members := by
  cases schema with
  | obj members =>
    have href : Keyed.get? "$ref" members = none := by
      rw [kind] at h
      split at h
      · cases h
      · cases h
      · next href => exact href
    refine ⟨members, rfl, (plain_or_combinator href).resolve_right fun hcombinator => ?_⟩
    rw [hcombinator] at h
    cases h
  | bool b => cases b <;> cases h
  | _ => cases h

theorem type_of_isTyped {members : Members} (hplain : Plain members)
    (h : (kind (.obj members)).isTyped = true) :
    (Keyed.get? "type" members = none ∧ kind (.obj members) = untypedKind members) ∨
      ∃ type, Keyed.get? "type" members = some (.str type) ∧
        kind (.obj members) = namedKind (.obj members) type := by
  rw [kind_of_plain hplain] at h ⊢
  cases htype : Keyed.get? "type" members with
  | none => exact Or.inl ⟨rfl, rfl⟩
  | some setting =>
    rw [htype] at h
    cases setting with
    | str type => exact Or.inr ⟨type, rfl, rfl⟩
    | _ => cases h

theorem objectKind_cases (schema : Json) :
    (objectKind schema = .record ∧ isRecord schema = true) ∨
      (objectKind schema = .map ∧ isRecord schema = false ∧ isMap schema = true) ∨
        (objectKind schema = .openObject ∧ isRecord schema = false ∧ isMap schema = false) := by
  rw [objectKind]
  cases isRecord schema with
  | true => exact Or.inl ⟨rfl, rfl⟩
  | false =>
    cases isMap schema with
    | true => exact Or.inr (Or.inl ⟨rfl, rfl, rfl⟩)
    | false => exact Or.inr (Or.inr ⟨rfl, rfl, rfl⟩)

/-- The kinds that a text as a type stands for. -/
theorem namedKind_cases (schema : Json) {type : String}
    (h : (namedKind schema type).isTyped = true) :
    (type = "string" ∧ namedKind schema type = .string) ∨
      ((type = "number" ∨ type = "integer") ∧ namedKind schema type = .number) ∨
        (type = "boolean" ∧ namedKind schema type = .boolean) ∨
          (type = "null" ∧ namedKind schema type = .null) ∨
            (type = "array" ∧ namedKind schema type = .array) ∨
              (type = "object" ∧ namedKind schema type = objectKind schema) := by
  unfold namedKind at h ⊢
  split at h
  case h_8 => cases h
  all_goals simp

/-- The keywords that make a schema without a type one for objects. -/
def objectKeys : List String := ["properties", "additionalProperties", "patternProperties"]

theorem untypedKind_cases (members : Members) :
    ((∃ key ∈ objectKeys, Keyed.contains members key = true) ∧
        untypedKind members = objectKind (.obj members)) ∨
      (∀ key ∈ objectKeys, Keyed.get? key members = none) ∧
        (((Keyed.get? "items" members).isSome = true ∧ untypedKind members = .array) ∨
          Keyed.get? "items" members = none ∧
            (untypedKind members = .any ∨
              ∃ values, Keyed.get? "enum" members = some (.arr values) ∧
                ((untypedKind members = .string ∧ ∀ value ∈ values, value.isString = true) ∨
                  untypedKind members = .unsupported untypedEnum))) := by
  rw [untypedKind]
  split
  · next hobject => exact Or.inl ⟨List.any_eq_true.1 hobject, rfl⟩
  · next hobject =>
    refine Or.inr ⟨fun key hkey => ?_, ?_⟩
    · rw [Bool.not_eq_true, List.any_eq_false] at hobject
      exact contains_eq_false.1 (Bool.not_eq_true _ ▸ hobject key hkey)
    · split
      · next hitems => exact Or.inl ⟨hitems, rfl⟩
      · next hitems =>
        refine Or.inr ⟨contains_eq_false.1 (Bool.not_eq_true _ ▸ hitems), ?_⟩
        split
        · next values henum =>
          obtain ⟨setting, hsetting, harray⟩ := Option.bind_eq_some_iff.1 henum
          cases setting with
          | arr items =>
            obtain rfl := Option.some.inj harray
            refine Or.inr ⟨_, hsetting, ?_⟩
            split
            · next hstrings =>
              rw [Bool.and_eq_true, List.all_eq_true] at hstrings
              exact Or.inl ⟨rfl, hstrings.2⟩
            · exact Or.inr rfl
          | _ => cases harray
        · exact Or.inl rfl

section Typed

variable {members : Members} {k : Kind}

theorem objectKind_mem (schema : Json) : objectKind schema ∈ [Kind.record, .map, .openObject] := by
  rcases objectKind_cases schema with ⟨h, _⟩ | ⟨h, _⟩ | ⟨h, _⟩
  · rw [h]; decide
  · rw [h]; decide
  · rw [h]; decide

theorem ne_nil_of_isTyped (h : (kind (.obj members)).isTyped = true) : members ≠ [] := by
  rintro rfl
  cases h

theorem namedKind_ne_reference (schema : Json) (type target : String) :
    namedKind schema type ≠ .reference target := by
  intro h
  unfold namedKind at h
  split at h
  case h_7 => exact absurd (h ▸ objectKind_mem schema) (by simp)
  all_goals cases h

theorem untypedKind_ne_reference (target : String) : untypedKind members ≠ .reference target := by
  intro h
  rcases untypedKind_cases members with ⟨_, hobject⟩ | ⟨_, ⟨_, harray⟩ | ⟨_, hany | ⟨_, _, hrest⟩⟩⟩
  · exact absurd (h.symm.trans hobject ▸ objectKind_mem (.obj members)) (by simp)
  · cases h.symm.trans harray
  · cases h.symm.trans hany
  · rcases hrest with ⟨hstring, _⟩ | huntyped
    · cases h.symm.trans hstring
    · cases h.symm.trans huntyped

theorem reference_of_kind {target : String} (h : kind (.obj members) = .reference target) :
    Keyed.get? "$ref" members = some (.str target) := by
  rw [kind] at h
  split at h
  · next found hfound => rw [hfound, Kind.reference.inj h]
  · cases h
  · split at h
    · cases h
    · split at h
      · exact absurd h (namedKind_ne_reference _ _ _)
      · cases h
      · exact absurd h (untypedKind_ne_reference _)

/-- The text that stands for a kind as a type. Numbers have two. -/
def Kind.typeName : Kind → String
  | .string => "string"
  | .boolean => "boolean"
  | .null => "null"
  | .array => "array"
  | _ => "object"

theorem type_eq_typeName (hplain : Plain members) (h : kind (.obj members) = k)
    (htyped : k.isTyped = true) (hnumber : k ≠ .number) :
    Keyed.get? "type" members = some (.str k.typeName) ∨
      Keyed.get? "type" members = none ∧ untypedKind members = k := by
  subst h
  rcases type_of_isTyped hplain htyped with ⟨htype, hkind⟩ | ⟨type, htype, hkind⟩
  · exact Or.inr ⟨htype, hkind.symm⟩
  · refine Or.inl ?_
    rw [htype]
    rw [hkind] at htyped hnumber ⊢
    rcases namedKind_cases _ htyped with
      ⟨rfl, hk⟩ | ⟨_, hk⟩ | ⟨rfl, hk⟩ | ⟨rfl, hk⟩ | ⟨rfl, hk⟩ | ⟨rfl, hk⟩
    · rw [hk]; rfl
    · exact absurd hk hnumber
    · rw [hk]; rfl
    · rw [hk]; rfl
    · rw [hk]; rfl
    · rw [hk]
      rcases objectKind_cases (.obj members) with ⟨h, _⟩ | ⟨h, _⟩ | ⟨h, _⟩
      · rw [h]; rfl
      · rw [h]; rfl
      · rw [h]; rfl

theorem keywords_of_untypedString (h : untypedKind members = .string) :
    (∀ key ∈ objectKeys, Keyed.get? key members = none) ∧ Keyed.get? "items" members = none := by
  rcases untypedKind_cases members with ⟨_, hobject⟩ | ⟨hnone, ⟨_, harray⟩ | ⟨hitems, _⟩⟩
  · exact absurd (h.symm.trans hobject ▸ objectKind_mem (.obj members)) (by decide)
  · rw [h] at harray
    cases harray
  · exact ⟨hnone, hitems⟩

theorem keywords_of_untypedArray (h : untypedKind members = .array) :
    ∀ key ∈ objectKeys, Keyed.get? key members = none := by
  rcases untypedKind_cases members with ⟨_, hobject⟩ | ⟨hnone, _⟩
  · exact absurd (h.symm.trans hobject ▸ objectKind_mem (.obj members)) (by decide)
  · exact hnone

/-- Without a type no schema is one for truth values or null. -/
theorem untypedKind_ne (hk : k ∈ [Kind.boolean, .null]) : untypedKind members ≠ k := by
  rintro rfl
  rcases untypedKind_cases members with ⟨_, hobject⟩ | ⟨_, ⟨_, harray⟩ | ⟨_, hany | ⟨_, _, h⟩⟩⟩
  · rw [hobject] at hk
    rcases objectKind_cases (.obj members) with ⟨h, _⟩ | ⟨h, _⟩ | ⟨h, _⟩
    · exact absurd (h ▸ hk) (by decide)
    · exact absurd (h ▸ hk) (by decide)
    · exact absurd (h ▸ hk) (by decide)
  · exact absurd (harray ▸ hk) (by decide)
  · exact absurd (hany ▸ hk) (by decide)
  · rcases h with ⟨hstring, _⟩ | huntyped
    · exact absurd (hstring ▸ hk) (by decide)
    · exact absurd (huntyped ▸ hk) (by decide)

/-- A schema of a kind for objects is told by the keywords of objects. -/
theorem kind_eq_objectKind (hplain : Plain members)
    (h : kind (.obj members) ∈ [Kind.record, .map, .openObject]) :
    kind (.obj members) = objectKind (.obj members) := by
  have htyped : (kind (.obj members)).isTyped = true := by
    generalize kind (.obj members) = k at h
    cases k <;> first | rfl | exact absurd h (by simp)
  rcases type_of_isTyped hplain htyped with ⟨_, hkind⟩ | ⟨type, _, hkind⟩
  · rw [hkind] at h ⊢
    rcases untypedKind_cases members with ⟨_, hobject⟩ | ⟨_, ⟨_, harray⟩ | ⟨_, hany | ⟨_, _, hrest⟩⟩⟩
    · exact hobject
    · exact absurd (harray ▸ h) (by decide)
    · exact absurd (hany ▸ h) (by decide)
    · rcases hrest with ⟨hstring, _⟩ | huntyped
      · exact absurd (hstring ▸ h) (by decide)
      · exact absurd (huntyped ▸ h) (by decide)
  · rw [hkind] at h htyped ⊢
    rcases namedKind_cases _ htyped with
      ⟨_, hk⟩ | ⟨_, hk⟩ | ⟨_, hk⟩ | ⟨_, hk⟩ | ⟨_, hk⟩ | ⟨_, hk⟩
    · exact absurd (hk ▸ h) (by decide)
    · exact absurd (hk ▸ h) (by decide)
    · exact absurd (hk ▸ h) (by decide)
    · exact absurd (hk ▸ h) (by decide)
    · exact absurd (hk ▸ h) (by decide)
    · exact hk

theorem isRecord_of_kind (hplain : Plain members) (h : kind (.obj members) = .record) :
    isRecord (.obj members) = true := by
  have hobject := kind_eq_objectKind hplain (by rw [h]; decide)
  rw [h] at hobject
  rcases objectKind_cases (.obj members) with ⟨_, hrecord⟩ | ⟨hk, _⟩ | ⟨hk, _⟩
  · exact hrecord
  · cases hobject.trans hk
  · cases hobject.trans hk

theorem isMap_of_kind (hplain : Plain members) (h : kind (.obj members) = .map) :
    isRecord (.obj members) = false ∧ isMap (.obj members) = true := by
  have hobject := kind_eq_objectKind hplain (by rw [h]; decide)
  rw [h] at hobject
  rcases objectKind_cases (.obj members) with ⟨hk, _⟩ | ⟨_, hmap⟩ | ⟨hk, _⟩
  · cases hobject.trans hk
  · exact hmap
  · cases hobject.trans hk

/-- A schema with a keyword of objects is one for objects if its type, when it has one, says so. -/
theorem kind_of_objectKey (hplain : Plain members)
    (htype : Keyed.get? "type" members = some (.str "object") ∨
      Keyed.get? "type" members = none)
    {key : String} (hkey : key ∈ objectKeys) {setting : Json}
    (hsetting : Keyed.get? key members = some setting) :
    kind (.obj members) = objectKind (.obj members) := by
  rw [kind_of_plain hplain]
  rcases htype with htype | htype
  · rw [htype]
    rfl
  · rw [htype]
    rcases untypedKind_cases members with ⟨_, hobject⟩ | ⟨hnone, _⟩
    · exact hobject
    · cases (hnone key hkey).symm.trans hsetting

/-- A schema that is for maps by its keywords is one unless it is a combinator. -/
theorem kind_of_isMap {schema : Json} (href : schema.member? "$ref" = none)
    (htype : schema.member? "type" = none ∨ schema.member? "type" = some (.str "object"))
    (hmap : isMap schema = true) :
    kind schema = .map ∨ kind schema = .unsupported "combinator" := by
  cases schema with
  | obj members =>
    refine (plain_or_combinator href).imp_left fun hplain => ?_
    have hkeywords := hmap
    rw [isMap_eq, Bool.and_eq_true, Bool.not_eq_true', Bool.or_eq_true] at hkeywords
    obtain ⟨hrecord, hvalues⟩ := hkeywords
    have hkey : ∃ key ∈ objectKeys, ∃ setting, Keyed.get? key members = some setting := by
      rcases hvalues with hfurther | hpatterns
      · refine ⟨"additionalProperties", by decide, Option.isSome_iff_exists.1 ?_⟩
        cases hmember : Keyed.get? "additionalProperties" members with
        | none =>
          rw [Json.member?, hmember] at hfurther
          cases hfurther
        | some _ => rfl
      · obtain ⟨setting, hsetting, _⟩ := (Option.any_eq_true _ _).1 hpatterns
        exact ⟨"patternProperties", by decide, setting, hsetting⟩
    obtain ⟨key, hkey, setting, hsetting⟩ := hkey
    rw [kind_of_objectKey hplain htype.symm hkey hsetting, objectKind, hrecord, hmap]
    rfl
  | _ => cases hmap

end Typed

end ResourceCatalog.Schema
