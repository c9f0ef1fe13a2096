import Mathlib
import ResourceCatalog.Proofs.Schema.Throughout

/-!
# The kinds of unified schemas

Numbers, truth values, null, records and open objects unify to schemas of their kind. The kind of a
text, an array or a map can be lost: `type` is kept only where both sides have it, so what is left
has to tell the kind by itself. `unifiedKind` says what it tells. An enumeration that is left alone
may even have no rule, and then nothing more can be unified with the result. Texts and arrays that
declare their type never come to that, however many of them are unified and however deep.
-/

namespace ResourceCatalog.Schema

/-- Whether both schemas have a keyword. -/
def bothHave (key : String) (a b : Json) : Bool := a.hasMember key && b.hasMember key

/-- Whether an enumeration lists texts. -/
def listsTexts (values : List Json) : Bool := !values.isEmpty && values.all Json.isString

/-- The kind of a schema that has nothing but an enumeration to tell it. -/
def enumKind (enum : Option Json) : Kind :=
  match enum.bind Json.asArray? with
  | some values => if listsTexts values then .string else .unsupported untypedEnum
  | none => .any

/-- The enumeration of two texts that are unified. -/
def joinedEnum (a b : Json) : Option Json :=
  match a.member? "enum", b.member? "enum" with
  | some (.arr xs), some (.arr ys) => some (.arr (joinValues xs ys))
  | _, _ => none

/-- The enumeration of two arrays that are unified. -/
def sharedEnum (a b : Json) : Option Json :=
  (a.member? "enum").filter fun value => (b.member? "enum").any fun other => other.same value

/-- Whether any of several schemas is one for values. -/
def anyDescribes (schemas : List Json) : Bool :=
  schemas.any fun schema => describesValues (some schema)

/-- The kind of what two different schemas of one kind unify to. -/
def unifiedKind (a b : Json) : Kind → Kind
  | .string => if bothHave "type" a b then .string else enumKind (joinedEnum a b)
  | .array =>
    if bothHave "type" a b || bothHave "items" a b then .array else enumKind (sharedEnum a b)
  | .map => if anyDescribes (mapValues a ++ mapValues b) then .map else .openObject
  | k => k

variable {left right out : Members} {a b unified : Json} {k : Kind}
  {inner : Json → Json → Except UnifyError Json}

/-! ### Texts and arrays -/

theorem untypedKind_of_none (h : ∀ key ∈ objectKeys, Keyed.get? key out = none) :
    untypedKind out =
      if (Keyed.get? "items" out).isSome then .array else enumKind (Keyed.get? "enum" out) := by
  have hobject : ["properties", "additionalProperties", "patternProperties"].any
      (Keyed.contains out) = false := by
    rw [List.any_eq_false]
    intro key hkey
    rw [contains_eq_false.2 (h key hkey)]
    exact Bool.false_ne_true
  rw [untypedKind, hobject]
  rfl

theorem bothHave_obj (key : String) : bothHave key (.obj left) (.obj right) = true ↔
    (Keyed.get? key left).isSome = true ∧ (Keyed.get? key right).isSome = true :=
  Bool.and_eq_true_iff

/-- Where a side has no `type`, what is left of the two is told by its items or its enumeration. -/
theorem AgreesOutside.kind_of_untyped {handled : List String}
    (h : AgreesOutside handled left right out) (hleft : Keyed.Ascending left) (hplain : Plain left)
    (hk : k ∈ [Kind.string, .array])
    (hhandled : ∀ key ∈ "type" :: (formKeys ++ objectKeys), key ∉ handled) {side : Members}
    (hside : side = left ∨ side = right) (hnone : Keyed.get? "type" side = none)
    (huntyped : untypedKind side = k) :
    kind (.obj out) =
      if (Keyed.get? "items" out).isSome then .array else enumKind (Keyed.get? "enum" out) := by
  have hkept : ∀ key ∈ "type" :: (formKeys ++ objectKeys), Kept (.obj out) (.obj side) key :=
    fun key hkey => h.kept hleft (hside.imp (congrArg Json.obj) (congrArg Json.obj))
      (hhandled key hkey)
  have hobject : ∀ key ∈ objectKeys, Keyed.get? key side = none := by
    rcases List.mem_pair.1 hk with rfl | rfl
    · exact (keywords_of_untypedString huntyped).1
    · exact keywords_of_untypedArray huntyped
  have hplainOut := h.plain hleft hplain fun key hkey =>
    hhandled key (List.mem_cons_of_mem _ (List.mem_append_left _ hkey))
  have htypeOut : Keyed.get? "type" out = none := (hkept _ List.mem_cons_self).eq_none hnone
  rw [kind_of_plain hplainOut, htypeOut]
  refine untypedKind_of_none fun key hkey => ?_
  exact (hkept key (List.mem_cons_of_mem _ (List.mem_append_right _ hkey))).eq_none
    (hobject key hkey)

/-- What becomes of two schemas of one kind that have a `type` both or not: with it they are told by
it, without it by the keywords that are left. -/
theorem AgreesOutside.typed_or_untyped {handled : List String}
    (h : AgreesOutside handled left right out) (hleft : Keyed.Ascending left) (hplain : Plain left)
    (hplain' : Plain right) (hk : k ∈ [Kind.string, .array]) (hkind : kind (.obj left) = k)
    (hkind' : kind (.obj right) = k)
    (hhandled : ∀ key ∈ "type" :: (formKeys ++ objectKeys), key ∉ handled) :
    (bothHave "type" (.obj left) (.obj right) = true ∧
        Keyed.get? "type" out = some (.str k.typeName) ∧ kind (.obj out) = k) ∨
      (bothHave "type" (.obj left) (.obj right) = false ∧
        (∃ side, (side = left ∨ side = right) ∧ untypedKind side = k) ∧
          kind (.obj out) =
            if (Keyed.get? "items" out).isSome then .array
            else enumKind (Keyed.get? "enum" out)) := by
  have htyped : k.isTyped = true ∧ k ≠ .number := by
    rcases List.mem_pair.1 hk with rfl | rfl
    · decide
    · decide
  have hplainOut := h.plain hleft hplain fun key hkey =>
    hhandled key (List.mem_cons_of_mem _ (List.mem_append_left _ hkey))
  rcases type_eq_typeName hplain hkind htyped.1 htyped.2 with htype | ⟨hnone, hsideKind⟩
  · rcases type_eq_typeName hplain' hkind' htyped.1 htyped.2 with htype' | ⟨hnone', hsideKind'⟩
    · have htypeOut : Keyed.get? "type" out = some (.str k.typeName) := by
        rw [h "type" (hhandled _ List.mem_cons_self)]
        exact get?_agreed_of_same hleft List.not_mem_nil htype htype' (Json.same_refl _)
      refine Or.inl ⟨(bothHave_obj _).2 ⟨by rw [htype]; rfl, by rw [htype']; rfl⟩, htypeOut, ?_⟩
      rw [kind_of_type hplainOut htypeOut]
      rcases List.mem_pair.1 hk with rfl | rfl
      · rfl
      · rfl
    · refine Or.inr ⟨Bool.eq_false_iff.2 fun hboth => ?_, ⟨right, Or.inr rfl, hsideKind'⟩,
        h.kind_of_untyped hleft hplain hk hhandled (Or.inr rfl) hnone' hsideKind'⟩
      rw [bothHave_obj, hnone'] at hboth
      exact absurd hboth.2 Bool.false_ne_true
  · refine Or.inr ⟨Bool.eq_false_iff.2 fun hboth => ?_, ⟨left, Or.inl rfl, hsideKind⟩,
      h.kind_of_untyped hleft hplain hk hhandled (Or.inl rfl) hnone hsideKind⟩
    rw [bothHave_obj, hnone] at hboth
    exact absurd hboth.1 Bool.false_ne_true

theorem get?_enum_joinEnums (hout : Keyed.get? "enum" out = none) :
    Keyed.get? "enum" (joinEnums a b out) = joinedEnum a b := by
  by_cases hboth : ∃ xs ys, a.member? "enum" = some (.arr xs) ∧ b.member? "enum" = some (.arr ys)
  · obtain ⟨xs, ys, hxs, hys⟩ := hboth
    rw [joinEnums.eq_def, joinedEnum.eq_def, hxs, hys]
    exact Keyed.get?_insert_self _ _ _
  · have hkept : joinEnums a b out = out := by
      rw [joinEnums.eq_def]
      split
      · next xs ys hxs hys => exact absurd ⟨xs, ys, hxs, hys⟩ hboth
      · rfl
    have hnone : joinedEnum a b = none := by
      rw [joinedEnum.eq_def]
      split
      · next xs ys hxs hys => exact absurd ⟨xs, ys, hxs, hys⟩ hboth
      · rfl
    rw [hkept, hout, hnone]

theorem enum_strings (hleft : Keyed.Ascending left) :
    (unifyStrings (.obj left) (.obj right)).member? "enum" =
      joinedEnum (.obj left) (.obj right) := by
  rw [unifyStrings, Json.member?, get?_joinPatterns_of_ne _ _ (by decide),
    get?_widen_of_ne _ _ (by decide), get?_widen_of_ne _ _ (by decide)]
  exact get?_enum_joinEnums (get?_agreed_of_mem hleft (by decide))

theorem kind_strings (hleft : Keyed.Ascending left) (hplain : Plain left) (hplain' : Plain right)
    (hkind : kind (.obj left) = .string) (hkind' : kind (.obj right) = .string) :
    kind (unifyStrings (.obj left) (.obj right)) =
      unifiedKind (.obj left) (.obj right) .string := by
  have henum : (unifyStrings (.obj left) (.obj right)).member? "enum" =
      joinedEnum (.obj left) (.obj right) := enum_strings hleft
  obtain ⟨out, hout, hagrees⟩ := agreesOutside_strings hleft right
  rw [hout] at henum ⊢
  rw [unifiedKind]
  rcases hagrees.typed_or_untyped hleft hplain hplain' (by decide) hkind hkind' (by decide) with
    ⟨hboth, _, hk⟩ | ⟨hboth, ⟨side, hside, huntyped⟩, hk⟩
  · rw [hboth, hk]
    rfl
  · have hitems : Keyed.get? "items" out = none := by
      have hkept : Kept (.obj out) (.obj side) "items" :=
        hagrees.kept hleft (hside.imp (congrArg Json.obj) (congrArg Json.obj)) (by decide)
      exact hkept.eq_none (keywords_of_untypedString huntyped).2
    rw [hboth, hk, hitems, ← henum]
    rfl

theorem enum_arrays (hleft : Keyed.Ascending left) :
    Keyed.get? "enum" (arrayBounds left right) = sharedEnum (.obj left) (.obj right) := by
  rw [arrayBounds, get?_widen_of_ne _ _ (by decide), get?_widen_of_ne _ _ (by decide),
    get?_agreed hleft]
  rfl

/-- What the rule for arrays writes. -/
theorem exists_unifiedArray (hleft : Keyed.Ascending left)
    (h : unifyArrays inner (.obj left) (.obj right) = .ok unified) :
    ∃ out, unified = .obj out ∧ AgreesOutside arrayKeys left right out ∧
      (Keyed.get? "items" out).isSome = bothHave "items" (.obj left) (.obj right) ∧
        Keyed.get? "enum" out = sharedEnum (.obj left) (.obj right) := by
  rcases unifyArrays_eq_ok h with ⟨hnone, rfl⟩ | ⟨x, y, z, hx, hy, _, rfl⟩
  · refine ⟨arrayBounds left right, rfl, agreesOutside_arrayBounds hleft, ?_, enum_arrays hleft⟩
    rw [items_arrayBounds hleft right]
    refine (Bool.eq_false_iff.2 fun hboth => ?_).symm
    rw [bothHave_obj] at hboth
    rcases hnone with hnone | hnone
    · rw [show Keyed.get? "items" left = none from hnone] at hboth
      exact absurd hboth.1 Bool.false_ne_true
    · rw [show Keyed.get? "items" right = none from hnone] at hboth
      exact absurd hboth.2 Bool.false_ne_true
  · refine ⟨_, rfl, (agreesOutside_arrayBounds hleft).insert (by decide) z, ?_, ?_⟩
    · rw [Keyed.get?_insert_self, (bothHave_obj _).2 ⟨?_, ?_⟩]
      · rfl
      · rw [show Keyed.get? "items" left = some x from hx]
        rfl
      · rw [show Keyed.get? "items" right = some y from hy]
        rfl
    · rw [Keyed.get?_insert_of_ne (by decide)]
      exact enum_arrays hleft

theorem kind_arrays (hleft : Keyed.Ascending left) (hplain : Plain left) (hplain' : Plain right)
    (hkind : kind (.obj left) = .array) (hkind' : kind (.obj right) = .array)
    (h : unifyArrays inner (.obj left) (.obj right) = .ok unified) :
    kind unified = unifiedKind (.obj left) (.obj right) .array := by
  obtain ⟨out, rfl, hagrees, hitems, henum⟩ := exists_unifiedArray hleft h
  rw [unifiedKind]
  rcases hagrees.typed_or_untyped hleft hplain hplain' (by decide) hkind hkind' (by decide) with
    ⟨hboth, _, hk⟩ | ⟨hboth, _, hk⟩
  · rw [hboth, hk]
    rfl
  · rw [hboth, hk, hitems, henum]
    rfl

/-! ### Maps -/

theorem unifyKinds_unsupported {reason : String}
    (h : kind a = .unsupported reason ∨ kind b = .unsupported reason) :
    ∃ reason, unifyKinds inner a b = .error (.unsupported reason) := by
  rw [unifyKinds.eq_def]
  rcases h with h | h
  · rw [h]
    exact ⟨_, rfl⟩
  · rw [h]
    cases kind a <;> exact ⟨_, rfl⟩

/-- A schema for values unifies with schemas for values only. -/
theorem describes_unify {x y z : Json} (h : unify x y = .ok z) :
    describesValues (some x) = describesValues (some z) ∧
      describesValues (some y) = describesValues (some z) := by
  rw [unify_eq, unifyWith] at h
  split at h
  · next hsame =>
    obtain rfl := Except.ok.inj h
    exact ⟨rfl, (describesValues_same (.some hsame)).symm⟩
  · obtain ⟨out, rfl, _⟩ := written_unifyKinds h
    have hside : ∀ {schema}, schema = x ∨ schema = y → describesValues (some schema) = true := by
      intro schema hschema
      refine Bool.not_eq_false _ ▸ fun hnone => ?_
      have hkind := kind_of_undescribed hnone
      obtain ⟨_, herror⟩ : ∃ reason, unifyKinds unify x y = .error (.unsupported reason) := by
        rcases hschema with rfl | rfl
        · exact unifyKinds_unsupported (Or.inl hkind)
        · exact unifyKinds_unsupported (Or.inr hkind)
      cases herror.symm.trans h
    exact ⟨hside (Or.inl rfl), hside (Or.inr rfl)⟩

theorem describes_foldlM {first : Json} {rest : List Json}
    (h : rest.foldlM unify first = .ok unified) : ∀ schema ∈ first :: rest,
      describesValues (some schema) = describesValues (some unified) := by
  induction rest generalizing first with
  | nil =>
    obtain rfl := Except.ok.inj h
    intro schema hschema
    rw [List.mem_singleton.1 hschema]
  | cons next rest ih =>
    rw [List.foldlM_cons] at h
    cases hjoined : unify first next with
    | error e =>
      rw [hjoined] at h
      cases h
    | ok joined =>
      rw [hjoined] at h
      obtain ⟨hleft, hright⟩ := describes_unify hjoined
      obtain ⟨hhead, hrest⟩ := List.forall_mem_cons.1 (ih h)
      exact List.forall_mem_cons.2
        ⟨hleft.trans hhead, List.forall_mem_cons.2 ⟨hright.trans hhead, hrest⟩⟩

theorem describes_unifyAll {schemas : List Json} (h : unifyAllWith unify schemas = .ok unified) :
    describesValues (some unified) = anyDescribes schemas := by
  cases schemas with
  | nil => cases h
  | cons first rest =>
    have hall := describes_foldlM h
    rw [Bool.eq_iff_iff, anyDescribes, List.any_eq_true]
    refine ⟨fun hunified => ⟨first, List.mem_cons_self, ?_⟩, fun ⟨schema, hschema, hvalues⟩ => ?_⟩
    · exact (hall first List.mem_cons_self).trans hunified
    · exact (hall schema hschema).symm.trans hvalues

theorem kind_maps (hleft : Keyed.Ascending left) (hplain : Plain left) (hplain' : Plain right)
    (hkind : kind (.obj left) = .map) (hkind' : kind (.obj right) = .map)
    (h : unifyMaps unify (.obj left) (.obj right) = .ok unified) :
    kind unified = unifiedKind (.obj left) (.obj right) .map := by
  obtain ⟨values, hvalues, rfl⟩ := unifyMaps_eq_ok h
  have hagrees : AgreesOutside mapKeys left right _ := agreesOutside_maps hleft values
  have hkindOut := hagrees.kind_maps hleft hplain hplain' hkind hkind'
    (Keyed.get?_insert_self _ _ _) (patterns_maps hleft values)
  rw [describes_unifyAll hvalues] at hkindOut
  exact hkindOut

/-! ### Schemas of any kinds -/

theorem eq_of_unify_of_same (hsame : a.same b = true) (h : unify a b = .ok unified) :
    unified = a := by
  rw [unify_eq, unifyWith_of_same hsame] at h
  exact (Except.ok.inj h).symm

/-- The rule for maps leaves no patterns. -/
theorem patterns_of_unify (ha : a.WellFormed) (hb : b.WellFormed) (hkind : kind a = .map)
    (hkind' : kind b = .map) (hne : a.same b = false) (h : unify a b = .ok unified) :
    unified.member? "patternProperties" = none := by
  obtain ⟨left, rfl, hleft, _⟩ := exists_fits ha le_rfl hkind rfl
  obtain ⟨right, rfl, _⟩ := exists_fits hb le_rfl hkind' rfl
  rw [unify_eq, unifyWith_of_ne hne, unifyKinds_maps hkind hkind'] at h
  obtain ⟨values, _, rfl⟩ := unifyMaps_eq_ok h
  exact patterns_maps hleft.ascending values

/-- The kind of what two schemas of one kind unify to. -/
theorem kind_unify (ha : a.WellFormed) (hb : b.WellFormed) (hk : k.isTyped = true)
    (hkind : kind a = k) (hkind' : kind b = k) (hne : a.same b = false)
    (h : unify a b = .ok unified) : kind unified = unifiedKind a b k := by
  obtain ⟨left, rfl, hleft, hplain, hleftKind⟩ := exists_fits ha le_rfl hkind hk
  obtain ⟨right, rfl, hright, hplain', hrightKind⟩ := exists_fits hb le_rfl hkind' hk
  rw [unify_eq, unifyWith_of_ne hne, unifyKinds.eq_def, hkind, hkind'] at h
  cases k with
  | any | reference _ | unsupported _ => cases hk
  | string =>
    obtain rfl := Except.ok.inj h
    exact kind_strings hleft.ascending hplain hplain' hkind hkind'
  | number =>
    obtain rfl := Except.ok.inj h
    exact kind_numbers hleft.ascending hplain right
  | boolean =>
    obtain rfl := Except.ok.inj h
    exact kind_agreed (k := .boolean) hleft.ascending hplain hplain' (by decide) hkind hkind'
  | null =>
    obtain rfl := Except.ok.inj h
    exact kind_agreed (k := .null) hleft.ascending hplain hplain' (by decide) hkind hkind'
  | array => exact kind_arrays hleft.ascending hplain hplain' hkind hkind' h
  | record =>
    obtain ⟨merged, _, rfl⟩ := unifyRecords_eq_ok h
    exact (agreesOutside_records hleft.ascending _ _).kind_records hleft.ascending hplain hplain'
      hkind hkind' (properties_withRequired _ _ _)
  | map => exact kind_maps hleft.ascending hplain hplain' hkind hkind' h
  | openObject =>
    obtain rfl := Except.ok.inj h
    exact kind_openObjects hleft.ascending hplain right

/-- The kind of what two different schemas unify to. -/
theorem kind_unify_cases (ha : a.WellFormed) (hb : b.WellFormed) (hne : a.same b = false)
    (h : unify a b = .ok unified) :
    (∃ k, k.isTyped = true ∧ kind a = k ∧ kind b = k ∧ kind unified = unifiedKind a b k) ∨
      kind unified = .any ∨ kind unified = .openObject ∨
        ∃ target, kind unified = .reference target := by
  have hopen : ∀ {k}, kind a = k → k.isTyped = true → kind b ∈ [Kind.record, .map, .openObject] →
      kind (unifyOpenObjects a b) = .openObject := by
    intro k hkind hk hmem
    have htyped : ∀ k ∈ [Kind.record, .map, .openObject], k.isTyped = true := by decide
    obtain ⟨left, rfl, hleft, hplain, _⟩ := exists_fits ha le_rfl hkind hk
    obtain ⟨right, rfl, _, _, _⟩ := exists_fits hb le_rfl rfl (htyped _ hmem)
    exact kind_openObjects hleft.ascending hplain right
  have hsame : ∀ {k}, kind a = k → kind b = k → k.isTyped = true →
      ∃ k, k.isTyped = true ∧ kind a = k ∧ kind b = k ∧ kind unified = unifiedKind a b k :=
    fun hkind hkind' hk => ⟨_, hk, hkind, hkind', kind_unify ha hb hk hkind hkind' hne h⟩
  have hkinds : unifyKinds unify a b = .ok unified := by
    rw [← unifyWith_of_ne hne, ← unify_eq, h]
  rw [unifyKinds.eq_def] at hkinds
  split at hkinds
  case h_3 hk hk' =>
    obtain ⟨left, rfl, hleft, hkind⟩ := exists_fits_reference ha le_rfl hk
    obtain ⟨right, rfl, _, hkind'⟩ := exists_fits_reference hb le_rfl hk'
    split at hkinds
    · next heq =>
      subst heq
      obtain rfl := Except.ok.inj hkinds
      exact Or.inr (Or.inr (Or.inr ⟨_, kind_references hleft.ascending hkind hkind'⟩))
    · cases hkinds
  case h_6 | h_7 =>
    obtain rfl := Except.ok.inj hkinds
    exact Or.inr (Or.inl rfl)
  case h_8 hk hk' | h_9 hk hk' | h_10 hk hk' | h_11 hk hk' | h_12 hk hk' | h_13 hk hk' |
      h_14 hk hk' | h_17 hk hk' => exact Or.inl (hsame hk hk' rfl)
  case h_18 hk hk' | h_19 hk hk' | h_20 hk hk' | h_21 hk hk' =>
    obtain rfl := Except.ok.inj hkinds
    exact Or.inr (Or.inr (Or.inl (hopen hk rfl (by rw [hk']; decide))))
  all_goals cases hkinds

/-! ### The rule that is taken -/

/-- Two schemas of a kind, with neither references nor combinators. -/
structure OneKind (left right : Members) (k : Kind) : Prop where
  ascending : Keyed.Ascending left
  plainLeft : Plain left
  plainRight : Plain right
  kindLeft : kind (.obj left) = k
  kindRight : kind (.obj right) = k

/-- The rules, each with the schemas that it is for. -/
inductive ByRule (inner : Json → Json → Except UnifyError Json) : Json → Json → Json → Prop
  | references {left right : Members} {target : String} (hleft : Keyed.Ascending left)
      (hkind : kind (.obj left) = .reference target)
      (hkind' : kind (.obj right) = .reference target) :
      ByRule inner (.obj left) (.obj right) (.obj (agreed (.obj left) (.obj right) []))
  | any {a b : Json} : ByRule inner a b (.obj [])
  | strings {left right : Members} (h : OneKind left right .string) :
      ByRule inner (.obj left) (.obj right) (unifyStrings (.obj left) (.obj right))
  | numbers {left right : Members} (h : OneKind left right .number) :
      ByRule inner (.obj left) (.obj right) (unifyNumbers (.obj left) (.obj right))
  | agreed {left right : Members} {k : Kind} (hk : k ∈ [Kind.boolean, .null])
      (h : OneKind left right k) :
      ByRule inner (.obj left) (.obj right) (.obj (agreed (.obj left) (.obj right) []))
  | arrays {left right : Members} {unified : Json} (h : OneKind left right .array)
      (hunified : unifyArrays inner (.obj left) (.obj right) = .ok unified) :
      ByRule inner (.obj left) (.obj right) unified
  | records {left right : Members} {unified : Json} (h : OneKind left right .record)
      (hunified : unifyRecords inner (.obj left) (.obj right) = .ok unified) :
      ByRule inner (.obj left) (.obj right) unified
  | maps {left right : Members} {unified : Json} (h : OneKind left right .map)
      (hunified : unifyMaps inner (.obj left) (.obj right) = .ok unified) :
      ByRule inner (.obj left) (.obj right) unified
  | openObjects {left right : Members} (hleft : Keyed.Ascending left) (hplain : Plain left) :
      ByRule inner (.obj left) (.obj right) (unifyOpenObjects (.obj left) (.obj right))

theorem exists_oneKind {k : Kind} (ha : a.WellFormed) (hb : b.WellFormed) (hkind : kind a = k)
    (hkind' : kind b = k) (hk : k.isTyped = true) :
    ∃ left right, a = .obj left ∧ b = .obj right ∧ OneKind left right k := by
  obtain ⟨left, rfl, hleft, hplain, hleftKind⟩ := exists_fits ha le_rfl hkind hk
  obtain ⟨right, rfl, _, hplain', hrightKind⟩ := exists_fits hb le_rfl hkind' hk
  exact ⟨left, right, rfl, rfl, hleft.ascending, hplain, hplain', hleftKind, hrightKind⟩

theorem byRule_of_unifyKinds (ha : a.WellFormed) (hb : b.WellFormed)
    (h : unifyKinds inner a b = .ok unified) : ByRule inner a b unified := by
  rw [unifyKinds.eq_def] at h
  split at h
  case h_3 hk hk' =>
    obtain ⟨left, rfl, hleft, hkind⟩ := exists_fits_reference ha le_rfl hk
    obtain ⟨right, rfl, _, hkind'⟩ := exists_fits_reference hb le_rfl hk'
    split at h
    · next heq =>
      subst heq
      obtain rfl := Except.ok.inj h
      exact .references hleft.ascending hkind hkind'
    · cases h
  case h_6 | h_7 =>
    obtain rfl := Except.ok.inj h
    exact .any
  case h_8 hk hk' =>
    obtain ⟨left, right, rfl, rfl, hsides⟩ := exists_oneKind ha hb hk hk' rfl
    obtain rfl := Except.ok.inj h
    exact .strings hsides
  case h_9 hk hk' =>
    obtain ⟨left, right, rfl, rfl, hsides⟩ := exists_oneKind ha hb hk hk' rfl
    obtain rfl := Except.ok.inj h
    exact .numbers hsides
  case h_10 hk hk' | h_11 hk hk' =>
    obtain ⟨left, right, rfl, rfl, hsides⟩ := exists_oneKind ha hb hk hk' rfl
    obtain rfl := Except.ok.inj h
    exact .agreed (by decide) hsides
  case h_12 hk hk' =>
    obtain ⟨left, right, rfl, rfl, hsides⟩ := exists_oneKind ha hb hk hk' rfl
    exact .arrays hsides h
  case h_13 hk hk' =>
    obtain ⟨left, right, rfl, rfl, hsides⟩ := exists_oneKind ha hb hk hk' rfl
    exact .records hsides h
  case h_14 hk hk' =>
    obtain ⟨left, right, rfl, rfl, hsides⟩ := exists_oneKind ha hb hk hk' rfl
    exact .maps hsides h
  case h_17 hk hk' | h_18 hk hk' | h_19 hk hk' | h_20 hk hk' | h_21 hk hk' =>
    obtain ⟨left, rfl, hleft, hplain, _⟩ := exists_fits ha le_rfl hk rfl
    obtain ⟨right, rfl, _⟩ := exists_fits hb le_rfl hk' rfl
    obtain rfl := Except.ok.inj h
    exact .openObjects hleft.ascending hplain
  all_goals cases h

/-! ### When the kind is kept -/

/-- What tells the kind of two different schemas still when they have been unified. -/
def KeepsKind (a b : Json) : Kind → Prop
  | .string => bothHave "type" a b = true ∨ ∃ xs ys, a.member? "enum" = some (.arr xs) ∧
      b.member? "enum" = some (.arr ys) ∧ listsTexts (xs ++ ys) = true
  | .array => bothHave "type" a b = true ∨ bothHave "items" a b = true
  | .map => ∃ schema ∈ mapValues a ++ mapValues b, describesValues (some schema) = true
  | _ => True

/-- What leaves nothing to two different schemas but an enumeration that there is no rule for. -/
def LosesRule (a b : Json) : Kind → Prop
  | .string => bothHave "type" a b = false ∧ ∃ xs ys, a.member? "enum" = some (.arr xs) ∧
      b.member? "enum" = some (.arr ys) ∧ listsTexts (xs ++ ys) = false
  | .array => bothHave "type" a b = false ∧ bothHave "items" a b = false ∧
      ∃ xs ys, a.member? "enum" = some (.arr xs) ∧ b.member? "enum" = some (.arr ys) ∧
        Json.sameItems ys xs = true ∧ listsTexts xs = false
  | _ => False

theorem enumKind_eq_string_iff {enum : Option Json} :
    enumKind enum = .string ↔ ∃ values, enum = some (.arr values) ∧ listsTexts values = true := by
  rw [enumKind]
  cases enum with
  | none => exact iff_of_false (fun h => by cases h) fun ⟨_, h, _⟩ => by cases h
  | some value =>
    cases value with
    | arr values => cases hvalues : listsTexts values <;> simp [Json.asArray?, hvalues]
    | _ => simp [Json.asArray?]

theorem enumKind_unsupported_iff {enum : Option Json} :
    (∃ reason, enumKind enum = .unsupported reason) ↔
      ∃ values, enum = some (.arr values) ∧ listsTexts values = false := by
  rw [enumKind]
  cases enum with
  | none => exact iff_of_false (fun ⟨_, h⟩ => by cases h) fun ⟨_, h, _⟩ => by cases h
  | some value =>
    cases value with
    | arr values => cases hvalues : listsTexts values <;> simp [Json.asArray?, hvalues]
    | _ => simp [Json.asArray?]

theorem enumKind_mem (enum : Option Json) :
    enumKind enum ∈ [Kind.any, .string, .unsupported untypedEnum] := by
  rw [enumKind]
  split
  · split
    · decide
    · decide
  · decide

theorem enumKind_ne_array (enum : Option Json) : enumKind enum ≠ .array := by
  intro h
  have hmem := enumKind_mem enum
  rw [h] at hmem
  exact absurd hmem (by decide)

/-- A map comes of maps only, and what has no rule is told by an enumeration. -/
theorem unifiedKind_mem (hk : k.isTyped = true) (hmap : k ≠ .map) :
    unifiedKind a b k ∈ [Kind.any, .string, .unsupported untypedEnum, .number, .boolean, .null,
      .array, .record, .openObject] := by
  have henum : ∀ enum, enumKind enum ∈ [Kind.any, .string, .unsupported untypedEnum, .number,
      .boolean, .null, .array, .record, .openObject] :=
    fun enum => List.mem_append_left _ (enumKind_mem enum)
  cases k with
  | any | reference _ | unsupported _ => cases hk
  | map => exact absurd rfl hmap
  | string =>
    rw [unifiedKind]
    split
    · decide
    · exact henum _
  | array =>
    rw [unifiedKind]
    split
    · decide
    · exact henum _
  | _ => simp [unifiedKind]

theorem listsTexts_iff {values : List Json} :
    listsTexts values = true ↔ values ≠ [] ∧ ∀ value ∈ values, value.isString = true := by
  rw [listsTexts, Bool.and_eq_true, List.all_eq_true, Bool.not_eq_true', List.isEmpty_eq_false_iff]

theorem listsTexts_joinValues (xs ys : List Json) :
    listsTexts (joinValues xs ys) = listsTexts (xs ++ ys) := by
  have hjoined : ∀ {value}, value ∈ xs ++ ys →
      ∃ item ∈ joinValues xs ys, value.same item = true := by
    intro value hvalue
    refine Json.memberOf_iff.1 (memberOf_joinValues ?_)
    exact (List.mem_append.1 hvalue).imp
      (fun hmem => Json.memberOf_iff.2 ⟨value, hmem, Json.same_refl value⟩)
      fun hmem => Json.memberOf_iff.2 ⟨value, hmem, Json.same_refl value⟩
  have hlisted : ∀ {item}, item ∈ joinValues xs ys → item ∈ xs ++ ys :=
    fun hitem => List.mem_append.2 (mem_joinValues hitem)
  rw [Bool.eq_iff_iff, listsTexts_iff, listsTexts_iff]
  constructor
  · rintro ⟨hne, hall⟩
    obtain ⟨item, hitem⟩ := List.exists_mem_of_ne_nil _ hne
    refine ⟨List.ne_nil_of_mem (hlisted hitem), fun value hvalue => ?_⟩
    obtain ⟨text, htext, hsame⟩ := hjoined hvalue
    rw [isString_same hsame]
    exact hall text htext
  · rintro ⟨hne, hall⟩
    obtain ⟨value, hvalue⟩ := List.exists_mem_of_ne_nil _ hne
    obtain ⟨item, hitem, _⟩ := hjoined hvalue
    exact ⟨List.ne_nil_of_mem hitem, fun item hitem => hall item (hlisted hitem)⟩

theorem joinedEnum_eq_some_iff {values : List Json} : joinedEnum a b = some (.arr values) ↔
    ∃ xs ys, a.member? "enum" = some (.arr xs) ∧ b.member? "enum" = some (.arr ys) ∧
      joinValues xs ys = values := by
  rw [joinedEnum.eq_def]
  split
  · next xs ys hxs hys => simp [hxs, hys]
  · next hneither =>
    exact iff_of_false (fun h => by cases h) fun ⟨xs, ys, hxs, hys, _⟩ => hneither xs ys hxs hys

/-- Two enumerations joined list texts if and only if one after the other they do. -/
theorem exists_joinedEnum_iff {texts : Bool} :
    (∃ values, joinedEnum a b = some (.arr values) ∧ listsTexts values = texts) ↔
      ∃ xs ys, a.member? "enum" = some (.arr xs) ∧ b.member? "enum" = some (.arr ys) ∧
        listsTexts (xs ++ ys) = texts := by
  simp only [joinedEnum_eq_some_iff]
  constructor
  · rintro ⟨_, ⟨xs, ys, hxs, hys, rfl⟩, htexts⟩
    exact ⟨xs, ys, hxs, hys, listsTexts_joinValues xs ys ▸ htexts⟩
  · rintro ⟨xs, ys, hxs, hys, htexts⟩
    exact ⟨_, ⟨xs, ys, hxs, hys, rfl⟩, listsTexts_joinValues xs ys ▸ htexts⟩

theorem sharedEnum_eq_some_iff {values : List Json} : sharedEnum a b = some (.arr values) ↔
    ∃ ys, a.member? "enum" = some (.arr values) ∧ b.member? "enum" = some (.arr ys) ∧
      Json.sameItems ys values = true := by
  rw [sharedEnum, Option.filter_eq_some_iff, Option.any_eq_true]
  constructor
  · rintro ⟨hxs, other, hother, hsame⟩
    obtain ⟨ys, rfl, _⟩ := Json.same_arr_iff.1 (Json.same_symm hsame)
    exact ⟨ys, hxs, hother, hsame⟩
  · rintro ⟨ys, hxs, hys, hsame⟩
    exact ⟨hxs, .arr ys, hys, hsame⟩

theorem unifiedKind_eq_iff : unifiedKind a b k = k ↔ KeepsKind a b k := by
  cases k with
  | string =>
    rw [unifiedKind, KeepsKind]
    cases hboth : bothHave "type" a b with
    | true => exact iff_of_true rfl (Or.inl rfl)
    | false =>
      rw [if_neg Bool.false_ne_true, enumKind_eq_string_iff, exists_joinedEnum_iff]
      exact (or_iff_right Bool.false_ne_true).symm
  | array =>
    rw [unifiedKind, KeepsKind, ← Bool.or_eq_true]
    split
    · next hboth => exact iff_of_true rfl hboth
    · next hneither => exact iff_of_false (enumKind_ne_array _) hneither
  | map =>
    rw [unifiedKind, KeepsKind, anyDescribes, ← List.any_eq_true]
    split
    · next hany => exact iff_of_true rfl hany
    · next hnone => exact iff_of_false (fun h => by cases h) hnone
  | _ => exact iff_of_true rfl trivial

theorem unifiedKind_unsupported_iff (hk : k.isTyped = true) :
    (∃ reason, unifiedKind a b k = .unsupported reason) ↔ LosesRule a b k := by
  cases k with
  | string =>
    rw [unifiedKind, LosesRule]
    cases hboth : bothHave "type" a b with
    | true => exact iff_of_false (fun ⟨_, h⟩ => by cases h) fun h => by cases h.1
    | false =>
      rw [if_neg Bool.false_ne_true, enumKind_unsupported_iff, exists_joinedEnum_iff]
      exact (and_iff_right rfl).symm
  | array =>
    rw [unifiedKind, LosesRule]
    cases hboth : bothHave "type" a b with
    | true => exact iff_of_false (fun ⟨_, h⟩ => by cases h) fun h => by cases h.1
    | false =>
      cases hitems : bothHave "items" a b with
      | true => exact iff_of_false (fun ⟨_, h⟩ => by cases h) fun h => by cases h.2.1
      | false =>
        simp only [Bool.or_false, if_neg Bool.false_ne_true, enumKind_unsupported_iff,
          sharedEnum_eq_some_iff, true_and]
        constructor
        · rintro ⟨xs, ⟨ys, hxs, hys, hsame⟩, htexts⟩
          exact ⟨xs, ys, hxs, hys, hsame, htexts⟩
        · rintro ⟨xs, ys, hxs, hys, hsame, htexts⟩
          exact ⟨xs, ⟨ys, hxs, hys, hsame⟩, htexts⟩
  | map =>
    rw [unifiedKind]
    split
    · exact iff_of_false (fun ⟨_, h⟩ => by cases h) id
    · exact iff_of_false (fun ⟨_, h⟩ => by cases h) id
  | any | reference _ | unsupported _ => cases hk
  | _ => exact iff_of_false (fun ⟨_, h⟩ => by cases h) id

theorem LosesRule.isTyped (h : LosesRule a b k) : k.isTyped = true := by
  cases k with
  | string | array => rfl
  | _ => exact h.elim

/-! ### Declared types -/

/-- There is a rule for the schema. -/
def Supported (schema : Json) : Prop := ∀ reason, kind schema ≠ .unsupported reason

/-- A well-formed schema with a rule, which declares its type if it is one for texts or arrays. -/
structure Declared (schema : Json) : Prop where
  wellFormed : schema.WellFormed
  supported : Supported schema
  typed : kind schema ∈ [Kind.string, .array] → schema.hasMember "type" = true

theorem Declared.of_kind (hformed : unified.WellFormed) (hkind : kind unified = k)
    (hrule : ∀ reason, k ≠ .unsupported reason) (hk : k ∉ [Kind.string, .array]) :
    Declared unified where
  wellFormed := hformed
  supported reason := hkind ▸ hrule reason
  typed hmem := absurd (hkind ▸ hmem) hk

theorem wellFormed_unify (ha : a.WellFormed) (hb : b.WellFormed) (h : unify a b = .ok unified) :
    unified.WellFormed :=
  (soundBelow_unifyAt lenient_readsFurtherKeys _ ha hb (le_max_left _ _) (le_max_right _ _)
    (Nat.lt_succ_self _) h).wellFormed

/-- A type that both sides declare is kept. -/
theorem hasMember_type_unify (ha : a.WellFormed) (hb : b.WellFormed)
    (hk : k ∈ [Kind.string, .array]) (hkind : kind a = k) (hkind' : kind b = k)
    (hne : a.same b = false) (hboth : bothHave "type" a b = true) (h : unify a b = .ok unified) :
    unified.hasMember "type" = true := by
  have htyped : ∀ k ∈ [Kind.string, .array], k.isTyped = true := by decide
  obtain ⟨left, rfl, hleft, hplain, _⟩ := exists_fits ha le_rfl hkind (htyped k hk)
  obtain ⟨right, rfl, _, hplain', _⟩ := exists_fits hb le_rfl hkind' (htyped k hk)
  have hout : ∀ {handled out}, AgreesOutside handled left right out →
      (∀ key ∈ "type" :: (formKeys ++ objectKeys), key ∉ handled) →
        (Json.obj out).hasMember "type" = true := by
    intro handled out hagrees hhandled
    rcases hagrees.typed_or_untyped hleft.ascending hplain hplain' hk hkind hkind' hhandled with
      ⟨_, htype, _⟩ | ⟨hnone, _⟩
    · rw [Json.hasMember, Json.member?, htype]
      rfl
    · cases hboth.symm.trans hnone
  rw [unify_eq, unifyWith_of_ne hne, unifyKinds.eq_def, hkind, hkind'] at h
  rcases List.mem_pair.1 hk with rfl | rfl
  · obtain rfl := Except.ok.inj h
    obtain ⟨out, heq, hagrees⟩ := agreesOutside_strings hleft.ascending right
    exact heq ▸ hout hagrees (by decide)
  · obtain ⟨out, rfl, hagrees, _⟩ := exists_unifiedArray hleft.ascending h
    exact hout hagrees (by decide)

theorem Declared.bothHave (ha : Declared a) (hb : Declared b) (hk : k ∈ [Kind.string, .array])
    (hkind : kind a = k) (hkind' : kind b = k) : bothHave "type" a b = true :=
  Bool.and_eq_true_iff.2 ⟨ha.typed (hkind ▸ hk), hb.typed (hkind' ▸ hk)⟩

theorem Declared.unify (ha : Declared a) (hb : Declared b) (h : Schema.unify a b = .ok unified) :
    Declared unified := by
  cases hsame : a.same b with
  | true => exact eq_of_unify_of_same hsame h ▸ ha
  | false =>
    have hformed := wellFormed_unify ha.wellFormed hb.wellFormed h
    rcases kind_unify_cases ha.wellFormed hb.wellFormed hsame h with
      ⟨k, hk, hkind, hkind', hunified⟩ | hunified | hunified | ⟨_, hunified⟩
    · refine ⟨hformed, fun reason hreason => ?_, fun hmem => ?_⟩
      · have hloses := (unifiedKind_unsupported_iff hk).1 ⟨reason, hunified.symm.trans hreason⟩
        cases k with
        | string => cases hloses.1.symm.trans (ha.bothHave hb (by decide) hkind hkind')
        | array => cases hloses.1.symm.trans (ha.bothHave hb (by decide) hkind hkind')
        | _ => exact hloses
      · by_cases hmem' : k ∈ [Kind.string, .array]
        · exact hasMember_type_unify ha.wellFormed hb.wellFormed hmem' hkind hkind' hsame
            (ha.bothHave hb hmem' hkind hkind') h
        · have hkept : unifiedKind a b k ∉ [Kind.string, .array] := by
            cases k with
            | string | array => exact absurd (by decide) hmem'
            | map =>
              rw [unifiedKind]
              split <;> decide
            | _ => exact hmem'
          exact absurd (hunified ▸ hmem) hkept
    all_goals exact .of_kind hformed hunified (fun _ h => by cases h) (by simp)

theorem declared_any : Declared (.obj []) where
  wellFormed := Json.wellFormed_obj.2 ⟨List.Pairwise.nil, fun _ h => absurd h List.not_mem_nil⟩
  supported _ h := by cases h
  typed h := absurd h (by decide)

theorem handedOn_declared : HandedOn Declared := ⟨declared_any, Declared.unify⟩

theorem FailsAt.not_supported {reason : String} (h : FailsAt a b (.unsupported reason)) :
    ¬ Supported a ∨ ¬ Supported b := by
  obtain ⟨_, ⟨_, hkind | hkind, _⟩ | ⟨_, _, _, heq⟩ | ⟨_, _, heq⟩ | heq | ⟨_, _, heq⟩⟩ := h.reasons
  · exact Or.inl fun hsupported => hsupported _ hkind
  · exact Or.inr fun hsupported => hsupported _ hkind
  all_goals cases heq

/-- Schemas that declare their types throughout are unified one after the other without ever meeting
one that there is no rule for. -/
theorem unifyAll_declared {schemas : List Json}
    (hall : ∀ schema ∈ schemas, Throughout Declared schema) {e : UnifyError} {reason : String}
    (h : unifyAll schemas = .error e) : e.root ≠ .unsupported reason := by
  intro hroot
  rcases handedOn_declared.exists_failsAt_of_unifyAll hall h with ⟨_, rfl⟩ | ⟨c, d, hc, hd, hfails⟩
  · cases hroot
  · rcases (hroot ▸ hfails).not_supported with hnone | hnone
    · exact hnone hc.supported
    · exact hnone hd.supported

/-- Two schemas of a kind unify to one of that kind if and only if they are equal or what is left of
their keywords still tells it. What has a rule unifies to something without one only where texts or
arrays are left with nothing but an enumeration that tells nothing. Where texts and arrays declare
their types that does not happen, also not to the results on the way of unifying any number of
schemas, so the unification of these never fails for want of a rule. -/
theorem unify_keeps_kind (ha : a.WellFormed) (hb : b.WellFormed) (h : unify a b = .ok unified) :
    (∀ k, k.isTyped = true → kind a = k → kind b = k →
      (kind unified = k ↔ a.same b = true ∨ KeepsKind a b k)) ∧
    (Supported a → Supported b →
      ((∃ reason, kind unified = .unsupported reason) ↔
        a.same b = false ∧ ∃ k, kind a = k ∧ kind b = k ∧ LosesRule a b k)) ∧
    ∀ schemas : List Json, (∀ schema ∈ schemas, Throughout Declared schema) →
      (∀ all, unifyAll schemas = .ok all → Throughout Declared all) ∧
        ∀ e reason, unifyAll schemas = .error e → e.root ≠ .unsupported reason := by
  refine ⟨fun k hk hkind hkind' => ?_, fun hsupported _ => ?_, fun schemas hall =>
    ⟨fun _ hunified => handedOn_declared.unifyAll hall hunified,
      fun _ _ herror => unifyAll_declared hall herror⟩⟩
  · cases hsame : a.same b with
    | true =>
      rw [eq_of_unify_of_same hsame h]
      exact iff_of_true hkind (Or.inl rfl)
    | false =>
      rw [kind_unify ha hb hk hkind hkind' hsame h, unifiedKind_eq_iff]
      exact ⟨Or.inr, fun hkeeps => hkeeps.resolve_left Bool.false_ne_true⟩
  · cases hsame : a.same b with
    | true =>
      rw [eq_of_unify_of_same hsame h]
      refine iff_of_false (fun hreason => ?_) fun hloses => absurd hloses.1.symm Bool.false_ne_true
      obtain ⟨reason, hreason⟩ := hreason
      exact hsupported reason hreason
    | false =>
      constructor
      · rintro ⟨reason, hreason⟩
        refine ⟨rfl, ?_⟩
        rcases kind_unify_cases ha hb hsame h with
          ⟨k, hk, hkind, hkind', hunified⟩ | hunified | hunified | ⟨_, hunified⟩
        · exact ⟨k, hkind, hkind',
            (unifiedKind_unsupported_iff hk).1 ⟨reason, hunified.symm.trans hreason⟩⟩
        all_goals cases hunified.symm.trans hreason
      · rintro ⟨_, k, hkind, hkind', hlost⟩
        have hk := hlost.isTyped
        obtain ⟨reason, hreason⟩ := (unifiedKind_unsupported_iff hk).2 hlost
        exact ⟨reason, (kind_unify ha hb hk hkind hkind' hsame h).trans hreason⟩

/-- Arrays of one value that is no text. -/
def listing (other : String × Json) : Json := .obj [("enum", .arr [.arr []]), other]

theorem listing_wellFormed {other : String × Json} (hkey : "enum" < other.1)
    (hother : other.2.WellFormed) : (listing other).WellFormed :=
  ⟨List.pairwise_pair.2 hkey, ⟨trivial, trivial⟩, hother, trivial⟩

/-- One array declares its type and another one its items, so that neither is left, and with the
enumeration alone nothing unifies any more. -/
theorem unify_keeps_kind_listing :
    let typed := listing ("type", .str "array")
    let itemized := listing ("items", .obj [])
    let unified := Json.obj [("enum", .arr [.arr []])]
    kind typed = .array ∧ kind itemized = .array ∧ unify typed itemized = .ok unified ∧
      kind unified ≠ .array ∧ (∃ reason, kind unified = .unsupported reason) ∧
        unifyAll [typed, itemized, typed] = .error (.unsupported untypedEnum) := by
  intro typed itemized unified
  have htyped : typed.WellFormed := listing_wellFormed (by decide) trivial
  have hitemized : itemized.WellFormed := listing_wellFormed (by decide)
    (Json.wellFormed_obj.2 ⟨List.Pairwise.nil, fun _ h => absurd h List.not_mem_nil⟩)
  have hunify : unify typed itemized = .ok unified := rfl
  obtain ⟨hkept, hlost, _⟩ := unify_keeps_kind htyped hitemized hunify
  have hkeeps : ¬ (typed.same itemized = true ∨ KeepsKind typed itemized .array) := by
    rintro (hsame | hboth | hboth)
    · cases hsame
    · cases hboth
    · cases hboth
  have hlosesRule : LosesRule typed itemized .array := ⟨rfl, rfl, _, _, rfl, rfl, rfl, rfl⟩
  refine ⟨rfl, rfl, hunify, fun hk => hkeeps ((hkept .array rfl rfl rfl).1 hk), ?_, rfl⟩
  exact (hlost (fun _ h => by cases h) fun _ h => by cases h).2 ⟨rfl, .array, rfl, rfl, hlosesRule⟩

end ResourceCatalog.Schema
