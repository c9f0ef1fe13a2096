import Mathlib
import ResourceCatalog.Proofs.Schema.Emptiness

/-!
# Ways down from a schema

Typing goes on from a schema to its parts, from a map to its values and from a record to its
properties. A trace is what can be seen of a way down when only the kinds of its steps are told
apart. Unification makes no new traces: whatever can be read on a way down from the unified schema
can be read on a way down from one of the sides. So schemas that occur nowhere in a document are
still bounded by what the document has.
-/

namespace ResourceCatalog.Schema

/-! ### Steps and traces -/

/-- The kinds of steps that typing takes. -/
inductive Label where
  /-- To what a reference refers to, to a branch or to the items. -/
  | part
  | value
  | property
  deriving DecidableEq

/-- A schema whose keywords for objects count: nothing comes before them. -/
structure ForObjects (schema : Json) : Prop where
  reference : schema.member? "$ref" = none
  combinator : combinator? schema = none
  type : schema.member? "type" = none ∨ schema.member? "type" = some (.str "object")

/-- A schema for objects that is no record and gives schemas for the values. -/
structure MapLike (schema : Json) : Prop extends ForObjects schema where
  isMap : isMap schema = true

/-- What typing goes on to by a step of a kind. -/
def Step (document : Json) : Label → Json → Json → Prop
  | .part, schema, next => Leads document schema next
  | .value, schema, next => MapLike schema ∧ next ∈ mapValues schema
  | .property, schema, next => ForObjects schema ∧ next ∈ Keyed.values (properties schema)

/-- Steps of these kinds can be taken one after the other, beginning at the schema. -/
def Trace (document : Json) : List Label → Json → Prop
  | [], _ => True
  | label :: rest, schema => ∃ next, Step document label schema next ∧ Trace document rest next

variable {document a b unified next : Json} {left right out : Members} {label : Label}
  {trace : List Label} {k : Kind}

theorem Leads.step (h : Leads document a next) : Step document .part a next := h

/-! ### Equal schemas -/

theorem branches?_same (h : a.same b = true) (op : Combinator) :
    Option.Rel (fun x y => x.1 = y.1 ∧ Json.sameItems x.2 y.2 = true) (branches? a op)
      (branches? b op) := by
  rw [branches?, branches?]
  have hrel := Json.member?_same h op.key
  generalize a.member? op.key = x, b.member? op.key = y at hrel
  cases hrel with
  | none => exact .none
  | @some x y hxy =>
    cases x with
    | arr _ =>
      cases y with
      | arr _ => exact .some ⟨rfl, hxy⟩
      | _ => cases hxy
    | _ =>
      cases y with
      | arr _ => cases hxy
      | _ => exact .none

theorem combinator?_same (h : a.same b = true) :
    Option.Rel (fun x y => x.1 = y.1 ∧ Json.sameItems x.2 y.2 = true) (combinator? a)
      (combinator? b) := by
  have hor : ∀ {α : Type} {R : α → α → Prop} {x y x' y' : Option α}, Option.Rel R x y →
      Option.Rel R x' y' → Option.Rel R (x.or x') (y.or y') := by
    intro α R x y x' y' hxy hrest
    cases hxy with
    | none => exact hrest
    | some hxy => exact .some hxy
  exact hor (branches?_same h .anyOf) (hor (branches?_same h .oneOf) (branches?_same h .allOf))

theorem itemsSchema?_same (h : a.same b = true) :
    Option.Rel (fun x y => x.same y = true) (itemsSchema? a) (itemsSchema? b) := by
  rw [itemsSchema?, itemsSchema?]
  have hrel := Json.member?_same h "items"
  generalize a.member? "items" = x, b.member? "items" = y at hrel
  cases hrel with
  | none => exact .none
  | @some x y hxy =>
    cases x with
    | obj _ =>
      cases y with
      | obj _ => exact .some hxy
      | _ => cases hxy
    | _ =>
      cases y with
      | obj _ => cases hxy
      | _ => exact .none

theorem hasMember_same (h : a.same b = true) (key : String) :
    a.hasMember key = b.hasMember key := by
  rw [Json.hasMember, Json.hasMember]
  have hrel := Json.member?_same h key
  generalize a.member? key = x, b.member? key = y at hrel
  cases hrel with
  | none => rfl
  | some _ => rfl

theorem member?_str_same (h : a.same b = true) {key text : String}
    (htext : a.member? key = some (.str text)) : b.member? key = some (.str text) := by
  obtain ⟨other, hother, hsame⟩ := Json.exists_member?_same h htext
  rw [hother, Json.same_str_iff.1 hsame]

theorem member?_none_same (h : a.same b = true) {key : String} (hnone : a.member? key = none) :
    b.member? key = none :=
  (kept_of_same h key).eq_none hnone

theorem isArraySchema_same (h : a.same b = true) (harray : isArraySchema a = true) :
    isArraySchema b = true := by
  unfold isArraySchema at harray ⊢
  split at harray
  · next type htype =>
    rw [member?_str_same h htype]
    exact harray
  · cases harray
  · next hnone =>
    rw [member?_none_same h hnone, ← hasMember_same h]
    exact harray

theorem isMap_same (h : a.same b = true) : isMap a = isMap b := by
  have hvalues := describesValues_same (Json.member?_same h "additionalProperties")
  have hpatterns : (a.member? "patternProperties").any Json.isObject =
      (b.member? "patternProperties").any Json.isObject :=
    any_same (Json.member?_same h "patternProperties") isObject_same
  rw [isMap_eq, isMap_eq, isRecord_same h, hvalues, hpatterns]

theorem ForObjects.same (h : a.same b = true) (ha : ForObjects a) : ForObjects b where
  reference := member?_none_same h ha.reference
  combinator := by
    have hrel := combinator?_same h
    rw [ha.combinator] at hrel
    cases hb : combinator? b with
    | none => rfl
    | some _ =>
      rw [hb] at hrel
      cases hrel
  type := ha.type.imp (member?_none_same h) (member?_str_same h)

theorem leads_same (h : a.same b = true) (hleads : Leads document a next) :
    ∃ other, Leads document b other ∧ next.same other = true := by
  unfold Leads parts at hleads
  split at hleads
  · next reference href =>
    refine ⟨next, ?_, Json.same_refl next⟩
    rw [Leads, parts_reference (member?_str_same h href)]
    exact hleads
  · exact absurd hleads List.not_mem_nil
  · next href =>
    have href' := member?_none_same h href
    have hcombinator := combinator?_same h
    split at hleads
    · next op branches hbranches =>
      rw [hbranches] at hcombinator
      generalize hothers : combinator? b = found at hcombinator
      cases hcombinator with
      | @some _ other hother =>
        obtain ⟨branch, hbranch, hsame⟩ :=
          Json.exists_mem_of_forall₂ (Json.sameItems_iff.1 hother.2) hleads
        exact ⟨branch, .branch href' hothers hbranch, hsame⟩
    · next hnone =>
      rw [hnone] at hcombinator
      generalize hothers : combinator? b = found at hcombinator
      cases hcombinator with
      | none =>
        split at hleads
        · next harray =>
          have hitems := itemsSchema?_same h
          rw [Option.mem_toList.1 hleads] at hitems
          generalize hfound : itemsSchema? b = found at hitems
          cases hitems with
          | @some _ other hsame =>
            exact ⟨other, .items href' hothers (isArraySchema_same h harray) hfound, hsame⟩
        · exact absurd hleads List.not_mem_nil

theorem Step.same (h : a.same b = true) (hstep : Step document label a next) :
    ∃ other, Step document label b other ∧ next.same other = true := by
  cases label with
  | part => exact leads_same h hstep
  | value =>
    obtain ⟨hmap, hvalue⟩ := hstep
    obtain ⟨other, hother, hsame⟩ := mapValues_same h hvalue
    exact ⟨other, ⟨⟨hmap.toForObjects.same h, isMap_same h ▸ hmap.isMap⟩, hother⟩, hsame⟩
  | property =>
    obtain ⟨hobject, hproperty⟩ := hstep
    obtain ⟨entry, hentry, rfl⟩ := List.mem_map.1 hproperty
    obtain ⟨other, hother, _, hsame⟩ :=
      Json.exists_mem_of_forall₂ (Json.sameMembers_iff.1 (properties_same h)) hentry
    exact ⟨other.2, ⟨hobject.same h, List.mem_map_of_mem hother⟩, hsame⟩

theorem Trace.same (h : a.same b = true) (htrace : Trace document trace a) :
    Trace document trace b := by
  induction trace generalizing a b with
  | nil => trivial
  | cons label rest ih =>
    obtain ⟨next, hstep, hrest⟩ := htrace
    obtain ⟨other, hother, hsame⟩ := hstep.same h
    exact ⟨other, hother, ih hsame hrest⟩

/-! ### Steps from schemas without references and combinators -/

theorem Plain.combinator? (h : Plain out) : combinator? (.obj out) = none := by
  have hnone : ∀ op : Combinator, branches? (.obj out) op = none := by
    intro op
    have hkey : Keyed.get? op.key out = none := h.combinators _ (by cases op <;> decide)
    rw [branches?, Json.member?, hkey]
  rw [Schema.combinator?, hnone, hnone, hnone]
  rfl

theorem Plain.leads_iff (h : Plain out) : Leads document (.obj out) next ↔
    isArraySchema (.obj out) = true ∧ itemsSchema? (.obj out) = some next := by
  have href : (Json.obj out).member? "$ref" = none := h.reference
  cases harray : isArraySchema (.obj out) with
  | true =>
    rw [Leads, parts_array href h.combinator? harray, Option.mem_toList]
    exact (and_iff_right rfl).symm
  | false =>
    rw [Leads, parts_concrete href h.combinator? harray]
    exact iff_of_false List.not_mem_nil fun hboth => Bool.false_ne_true hboth.1

theorem isArraySchema_of_type {type : String} (h : Keyed.get? "type" out = some (.str type)) :
    isArraySchema (.obj out) = (type == "array") := by
  rw [isArraySchema, Json.member?, h]

theorem isArraySchema_of_none (h : Keyed.get? "type" out = none) :
    isArraySchema (.obj out) = (Keyed.get? "items" out).isSome := by
  rw [isArraySchema, Json.member?, h]
  rfl

/-- No step can be taken from a schema whose type is neither that of objects nor that of arrays. -/
theorem not_step_of_type (h : Plain out) {type : String}
    (htype : Keyed.get? "type" out = some (.str type)) (harray : type ≠ "array")
    (hobject : type ≠ "object") : ¬ Step document label (.obj out) next := by
  have hforObjects : ¬ ForObjects (.obj out) := by
    intro hfor
    rcases hfor.type with hnone | hsome
    · cases htype.symm.trans hnone
    · exact hobject (Json.str.inj (Option.some.inj (htype.symm.trans hsome)))
  cases label with
  | part =>
    intro hstep
    have hisArray := (h.leads_iff.1 hstep).1
    rw [isArraySchema_of_type htype] at hisArray
    exact harray (beq_iff_eq.1 hisArray)
  | value => exact fun hstep => hforObjects hstep.1.toForObjects
  | property => exact fun hstep => hforObjects hstep.1

theorem mapValues_of_none (h : ∀ key ∈ objectKeys, Keyed.get? key out = none) :
    mapValues (.obj out) = [] := by
  rw [mapValues, Json.member?, h _ (by decide), Json.member?, h _ (by decide)]
  rfl

theorem isRecord_of_mem_properties {schema : Json} {entry : String × Json}
    (h : entry ∈ properties schema) : isRecord schema = true := by
  rw [properties] at h
  rw [isRecord_eq]
  cases hmember : schema.member? "properties" with
  | none =>
    rw [hmember] at h
    exact absurd h List.not_mem_nil
  | some setting =>
    rw [hmember] at h
    cases setting with
    | obj _ => rfl
    | _ => exact absurd h List.not_mem_nil

theorem properties_of_none (h : Keyed.get? "properties" out = none) :
    properties (.obj out) = [] := by
  rw [properties, Json.member?, h]
  rfl

/-- Without the keywords for objects there are no steps but the one to the items. -/
theorem Step.eq_part (hstep : Step document label (.obj out) next)
    (h : ∀ key ∈ objectKeys, Keyed.get? key out = none) : label = .part := by
  cases label with
  | part => rfl
  | value =>
    have hvalue := hstep.2
    rw [mapValues_of_none h] at hvalue
    exact absurd hvalue List.not_mem_nil
  | property =>
    have hproperty := hstep.2
    rw [properties_of_none (h _ (by decide))] at hproperty
    exact absurd hproperty List.not_mem_nil

theorem not_step_of_none (hplain : Plain out) (h : ∀ key ∈ objectKeys, Keyed.get? key out = none)
    (harray : isArraySchema (.obj out) = false) : ¬ Step document label (.obj out) next := by
  intro hstep
  obtain rfl := hstep.eq_part h
  exact Bool.false_ne_true (harray.symm.trans (hplain.leads_iff.1 hstep).1)

theorem plain_nil : Plain [] := ⟨rfl, fun _ _ => rfl⟩

theorem not_step_nil : ¬ Step document label (.obj []) next :=
  not_step_of_none plain_nil (fun _ _ => rfl) rfl

theorem eq_nil_of_trace_nil (h : Trace document trace (.obj [])) : trace = [] := by
  cases trace with
  | nil => rfl
  | cons label rest =>
    obtain ⟨next, hstep, _⟩ := h
    exact absurd hstep not_step_nil

/-! ### Where a step from a unified schema comes from -/

/-- The sides have steps of the kind, and what they lead to unifies to a schema that has all traces
of the next one. -/
def ComesOf (document : Json) (label : Label) (a b next : Json) : Prop :=
  ∃ values unified, (∀ value ∈ values, Step document label a value ∨ Step document label b value) ∧
    unifyAll values = .ok unified ∧
      ∀ trace, Trace document trace next → Trace document trace unified

theorem ComesOf.of_step {value : Json}
    (h : Step document label a value ∨ Step document label b value)
    (hsame : next.same value = true) : ComesOf document label a b next := by
  refine ⟨[value], value, fun other hother => ?_, rfl, fun trace => Trace.same hsame⟩
  rw [List.mem_singleton.1 hother]
  exact h

/-- The sides of a kind that declares its type have none of their own if the result has none. -/
theorem AgreesOutside.exists_untyped {handled : List String}
    (h : AgreesOutside handled left right out) (hsides : OneKind left right k)
    (htyped : k.isTyped = true) (hnumber : k ≠ .number) (hhandled : "type" ∉ handled)
    (hnone : Keyed.get? "type" out = none) :
    ∃ side, (side = left ∨ side = right) ∧ Plain side ∧ Keyed.get? "type" side = none ∧
      untypedKind side = k := by
  obtain ⟨hleft, hplain, hplain', hkind, hkind'⟩ := hsides
  rcases type_eq_typeName hplain hkind htyped hnumber with htype | ⟨htype, huntyped⟩
  · rcases type_eq_typeName hplain' hkind' htyped hnumber with htype' | ⟨htype', huntyped⟩
    · have hboth := get?_agreed_of_same hleft List.not_mem_nil htype htype' (Json.same_refl _)
      cases hnone.symm.trans ((h "type" hhandled).trans hboth)
    · exact ⟨right, Or.inr rfl, hplain', htype', huntyped⟩
  · exact ⟨left, Or.inl rfl, hplain, htype, huntyped⟩

theorem exists_itemsSchema? {schema : Json} (h : itemsSchema? schema = some next) :
    schema.member? "items" = some next ∧ ∃ members, next = .obj members := by
  rw [itemsSchema?] at h
  split at h
  · next members hmember =>
    obtain rfl := Option.some.inj h
    exact ⟨hmember, members, rfl⟩
  · cases h

theorem itemsSchema?_of_member? {schema : Json} {members : Members}
    (h : schema.member? "items" = some (.obj members)) :
    itemsSchema? schema = some (.obj members) := by
  rw [itemsSchema?, h]

/-- Records and maps go on to items only where they declare no type, and then one of the sides does
the same. -/
theorem AgreesOutside.comesOf_items {handled : List String}
    (h : AgreesOutside handled left right out) (hsides : OneKind left right k)
    (hk : k ∈ [Kind.record, .map]) (hhandled : ∀ key ∈ "type" :: "items" :: formKeys, key ∉ handled)
    (hleads : Leads document (.obj out) next) :
    ComesOf document .part (.obj left) (.obj right) next := by
  have hleft := hsides.ascending
  have htyped : k.isTyped = true ∧ k ≠ .number ∧ k.typeName ≠ "array" := by
    rcases List.mem_pair.1 hk with rfl | rfl
    · decide
    · decide
  have hplainOut : Plain out := h.plain hleft hsides.plainLeft fun key hkey =>
    hhandled key (List.mem_cons_of_mem _ (List.mem_cons_of_mem _ hkey))
  obtain ⟨harray, hitems⟩ := hplainOut.leads_iff.1 hleads
  have hnone : Keyed.get? "type" out = none := by
    rcases h.type hleft hsides.plainLeft hsides.plainRight hsides.kindLeft hsides.kindRight
      htyped.1 htyped.2.1 (hhandled _ List.mem_cons_self) with htype | ⟨hnone, _⟩
    · rw [isArraySchema_of_type htype] at harray
      exact absurd (beq_iff_eq.1 harray) htyped.2.2
    · exact hnone
  obtain ⟨side, hside, hplainSide, htypeSide, _⟩ :=
    h.exists_untyped hsides htyped.1 htyped.2.1 (hhandled _ List.mem_cons_self) hnone
  obtain ⟨hmember, members, rfl⟩ := exists_itemsSchema? hitems
  have hkept : Kept (.obj out) (.obj side) "items" :=
    h.kept hleft (hside.imp (congrArg Json.obj) (congrArg Json.obj))
      (hhandled _ (List.mem_cons_of_mem _ List.mem_cons_self))
  obtain ⟨other, hother, hsame⟩ := hkept _ hmember
  obtain ⟨others, rfl, _⟩ := Json.same_obj_iff.1 (Json.same_symm hsame)
  have hleadsSide : Leads document (.obj side) (.obj others) := by
    refine hplainSide.leads_iff.2 ⟨?_, itemsSchema?_of_member? hother⟩
    rw [isArraySchema_of_none htypeSide, show Keyed.get? "items" side = _ from hother]
    rfl
  refine .of_step ?_ (Json.same_symm hsame)
  rcases hside with rfl | rfl
  · exact Or.inl hleadsSide
  · exact Or.inr hleadsSide

/-! ### The rules -/

theorem isArraySchema_of_kind (hplain : Plain left) (hkind : kind (.obj left) = .array)
    (hitems : (Keyed.get? "items" left).isSome = true) : isArraySchema (.obj left) = true := by
  rcases type_eq_typeName hplain hkind rfl (by decide) with htype | ⟨hnone, _⟩
  · rw [isArraySchema_of_type htype]
    rfl
  · rw [isArraySchema_of_none hnone, hitems]

theorem forObjects_of_kind (hplain : Plain left) (hk : k ∈ [Kind.record, .map])
    (hkind : kind (.obj left) = k) : ForObjects (.obj left) where
  reference := hplain.reference
  combinator := hplain.combinator?
  type := by
    have htyped : k.isTyped = true ∧ k ≠ .number ∧ k.typeName = "object" := by
      rcases List.mem_pair.1 hk with rfl | rfl
      · decide
      · decide
    rcases type_eq_typeName hplain hkind htyped.1 htyped.2.1 with htype | ⟨hnone, _⟩
    · rw [htyped.2.2] at htype
      exact Or.inr htype
    · exact Or.inl hnone

theorem unify_any (hne : a.same b = false) (hany : kind a = .any ∨ kind b = .any)
    (h : unify a b = .ok unified) : unified = .obj [] := by
  rw [unify_eq, unifyWith_of_ne hne, unifyKinds.eq_def] at h
  split at h
  case h_6 | h_7 => exact (Except.ok.inj h).symm
  all_goals simp_all

theorem unifyAll_pair (h : unify a b = .ok unified) : unifyAll [a, b] = .ok unified := by
  rw [unifyAll, unifyAllWith, List.foldlM_cons, h]
  rfl

/-- The items of a unified array come of the items of the sides. -/
theorem comesOf_unifiedItems {x y : Json} {members : Members}
    (hx : ∀ others, x = .obj others → Step document .part a x)
    (hy : ∀ others, y = .obj others → Step document .part b y)
    (h : unify x y = .ok (.obj members)) : ComesOf document .part a b (.obj members) := by
  -- where one of the items accepts everything, so does what they unify to
  have hnil : ∀ {value}, Step document .part a value ∨ Step document .part b value →
      members = [] → ComesOf document .part a b (.obj members) := by
    rintro value hstep rfl
    refine ⟨[value], value, fun other hother => List.mem_singleton.1 hother ▸ hstep, rfl, ?_⟩
    intro trace htrace
    rw [eq_nil_of_trace_nil htrace]
    trivial
  obtain ⟨hxDescribes, hyDescribes⟩ := describes_unify h
  cases x with
  | obj others =>
    cases y with
    | obj others' =>
      refine ⟨[.obj others, .obj others'], _, ?_, unifyAll_pair h, fun _ => id⟩
      refine List.forall_mem_cons.2 ⟨Or.inl (hx _ rfl), fun value hvalue => ?_⟩
      rw [List.mem_singleton.1 hvalue]
      exact Or.inr (hy _ rfl)
    | bool flag =>
      cases flag with
      | true => exact hnil (Or.inl (hx _ rfl)) (Json.obj.inj (unify_any rfl (Or.inr rfl) h))
      | false => cases hyDescribes
    | _ => cases hyDescribes
  | bool flag =>
    cases flag with
    | true =>
      cases y with
      | obj others' => exact hnil (Or.inr (hy _ rfl)) (Json.obj.inj (unify_any rfl (Or.inl rfl) h))
      | bool flag' =>
        cases flag' with
        | true => cases h
        | false => cases hyDescribes
      | _ => cases hyDescribes
    | false => cases hxDescribes
  | _ => cases hxDescribes

theorem comesOf_arrays (hsides : OneKind left right .array)
    (h : unifyArrays unify (.obj left) (.obj right) = .ok unified)
    (hstep : Step document label unified next) :
    ComesOf document label (.obj left) (.obj right) next := by
  obtain ⟨hleft, hplain, hplain', hkind, hkind'⟩ := hsides
  obtain ⟨out, rfl, hagrees, _⟩ := exists_unifiedArray hleft h
  have hpart : label = .part := by
    rcases hagrees.type hleft hplain hplain' hkind hkind' rfl (by decide) (by decide) with
      htype | ⟨_, side, hside, huntyped⟩
    · have hforObjects : ¬ ForObjects (.obj out) := by
        intro hfor
        rcases hfor.type with hnone | hsome
        · cases htype.symm.trans hnone
        · have htext := Json.str.inj (Option.some.inj (htype.symm.trans hsome))
          exact absurd htext (by decide)
      cases label with
      | part => rfl
      | value => exact absurd hstep.1.toForObjects hforObjects
      | property => exact absurd hstep.1 hforObjects
    · refine hstep.eq_part fun key hkey => ?_
      have hhandled : ∀ key ∈ objectKeys, key ∉ arrayKeys := by decide
      have hkept : Kept (.obj out) (.obj side) key :=
        hagrees.kept hleft (hside.imp (congrArg Json.obj) (congrArg Json.obj)) (hhandled key hkey)
      exact hkept.eq_none (keywords_of_untypedArray huntyped key hkey)
  subst hpart
  have hplainOut := hagrees.plain hleft hplain (by decide)
  obtain ⟨hmember, members, rfl⟩ := exists_itemsSchema? (hplainOut.leads_iff.1 hstep).2
  rcases unifyArrays_eq_ok h with ⟨_, hout⟩ | ⟨x, y, z, hx, hy, hz, hout⟩
  · rw [hout] at hmember
    cases (items_arrayBounds hleft right).symm.trans hmember
  · rw [hout, Json.member?, Keyed.get?_insert_self] at hmember
    obtain rfl := Option.some.inj hmember
    have hleads : ∀ {side : Members} {item : Json}, Plain side → kind (.obj side) = .array →
        Keyed.get? "items" side = some item → ∀ others, item = .obj others →
          Leads document (.obj side) item := by
      rintro side item hplainSide hkindSide hitem others rfl
      refine hplainSide.leads_iff.2 ⟨isArraySchema_of_kind hplainSide hkindSide ?_, ?_⟩
      · rw [hitem]
        rfl
      · exact itemsSchema?_of_member? hitem
    exact comesOf_unifiedItems (hleads hplain hkind hx) (hleads hplain' hkind' hy) hz

/-- Texts that are unified lead nowhere, with a type or without. -/
theorem not_step_strings (hsides : OneKind left right .string) :
    ¬ Step document label (unifyStrings (.obj left) (.obj right)) next := by
  obtain ⟨hleft, hplain, hplain', hkind, hkind'⟩ := hsides
  obtain ⟨out, hout, hagrees⟩ := agreesOutside_strings hleft right
  have hplainOut := hagrees.plain hleft hplain (by decide)
  rw [hout]
  rcases hagrees.type hleft hplain hplain' hkind hkind' rfl (by decide) (by decide) with
    htype | ⟨htype, side, hside, huntyped⟩
  · exact not_step_of_type hplainOut htype (by decide) (by decide)
  · obtain ⟨hobject, hitems⟩ := keywords_of_untypedString huntyped
    have hkept : ∀ {key}, key ∉ textKeys → Keyed.get? key side = none → Keyed.get? key out = none :=
      fun hkey hnone => Kept.eq_none (a := .obj side) (b := .obj out)
        (hagrees.kept hleft (hside.imp (congrArg Json.obj) (congrArg Json.obj)) hkey) hnone
    have hhandled : ∀ key ∈ objectKeys, key ∉ textKeys := by decide
    refine not_step_of_none hplainOut (fun key hkey => ?_) ?_
    · exact hkept (hhandled key hkey) (hobject key hkey)
    · rw [isArraySchema_of_none htype, hkept (by decide) hitems]
      rfl

theorem not_step_numbers (hleft : Keyed.Ascending left) (hplain : Plain left) :
    ¬ Step document label (unifyNumbers (.obj left) (.obj right)) next := by
  obtain ⟨out, hout, hagrees⟩ := agreesOutside_numbers hleft right
  have hplainOut := hagrees.plain hleft hplain (by decide)
  have htype := type_numbers (.obj left) (.obj right)
  rw [hout] at htype ⊢
  have hname : ∀ {flag : Bool}, (if flag then "integer" else "number") ≠ "array" ∧
      (if flag then "integer" else "number") ≠ "object" := by decide
  exact not_step_of_type hplainOut htype hname.1 hname.2

theorem not_step_openObjects (hleft : Keyed.Ascending left) (hplain : Plain left) :
    ¬ Step document label (unifyOpenObjects (.obj left) (.obj right)) next := by
  obtain ⟨out, hout, hagrees, htype, hnone⟩ := agreesOutside_openObjects hleft right
  have hplainOut := hagrees.plain hleft hplain (by decide)
  have hkeys : ∀ key ∈ objectKeys, key ∈ openKeys ∧ key ≠ "type" := by decide
  rw [hout]
  refine not_step_of_none hplainOut (fun key hkey => ?_) ?_
  · exact hnone key (hkeys key hkey).1 (hkeys key hkey).2
  · rw [isArraySchema_of_type htype]
    rfl

/-- Truth values and null declare their type. -/
theorem not_step_agreed (hk : k ∈ [Kind.boolean, .null]) (hsides : OneKind left right k) :
    ¬ Step document label (.obj (agreed (.obj left) (.obj right) [])) next := by
  obtain ⟨hleft, hplain, hplain', hkind, hkind'⟩ := hsides
  have hall : ∀ k ∈ [Kind.boolean, .null], k.isTyped = true ∧ k ≠ .number ∧
      k.typeName ≠ "array" ∧ k.typeName ≠ "object" := by decide
  obtain ⟨htyped, hnumber, harray, hobject⟩ := hall k hk
  have hagrees : AgreesOutside [] left right (agreed (.obj left) (.obj right) []) :=
    agreesOutside_agreed hleft (by decide)
  rcases hagrees.type hleft hplain hplain' hkind hkind' htyped hnumber (by decide) with
    htype | ⟨_, side, _, huntyped⟩
  · exact not_step_of_type (hagrees.plain hleft hplain (by decide)) htype harray hobject
  · exact absurd huntyped (untypedKind_ne hk)

theorem comesOf_records (hsides : OneKind left right .record)
    (h : unifyRecords unify (.obj left) (.obj right) = .ok unified)
    (hstep : Step document label unified next) :
    ComesOf document label (.obj left) (.obj right) next := by
  obtain ⟨merged, hmerged, rfl⟩ := unifyRecords_eq_ok h
  have hmembers := properties_withRequired
    ((requiredNames (.obj left)).filter (requiredNames (.obj right)).contains)
    (addMissing merged (properties (.obj right))) (agreed (.obj left) (.obj right) recordKeys)
  have hfor := forObjects_of_kind hsides.plainLeft (by decide) hsides.kindLeft
  have hfor' := forObjects_of_kind hsides.plainRight (by decide) hsides.kindRight
  cases label with
  | part =>
    exact (agreesOutside_records hsides.ascending _ _).comesOf_items hsides (by decide) (by decide)
      hstep
  | value =>
    have hmap := hstep.1.isMap
    rw [isMap_eq, isRecord_eq, Json.member?, hmembers] at hmap
    cases hmap
  | property =>
    obtain ⟨new, hnew, rfl⟩ := List.mem_map.1 hstep.2
    rw [properties, Json.member?, hmembers] at hnew
    rcases mem_unifiedProperties hmerged hnew with hmem | hmem | ⟨x, hx, y, hy, hz⟩
    · exact .of_step (Or.inl ⟨hfor, List.mem_map_of_mem hmem⟩) (Json.same_refl _)
    · exact .of_step (Or.inr ⟨hfor', List.mem_map_of_mem hmem⟩) (Json.same_refl _)
    · refine ⟨[x.2, y.2], new.2, List.forall_mem_cons.2 ⟨?_, fun value hvalue => ?_⟩,
        unifyAll_pair hz, fun _ => id⟩
      · exact Or.inl ⟨hfor, List.mem_map_of_mem hx⟩
      · rw [List.mem_singleton.1 hvalue]
        exact Or.inr ⟨hfor', List.mem_map_of_mem hy⟩

theorem comesOf_maps (hsides : OneKind left right .map)
    (h : unifyMaps unify (.obj left) (.obj right) = .ok unified)
    (hstep : Step document label unified next) :
    ComesOf document label (.obj left) (.obj right) next := by
  have hleft := hsides.ascending
  have hmap := isMap_of_kind hsides.plainLeft hsides.kindLeft
  have hmap' := isMap_of_kind hsides.plainRight hsides.kindRight
  obtain ⟨values, hvalues, rfl⟩ := unifyMaps_eq_ok h
  have hagrees : AgreesOutside mapKeys left right _ := agreesOutside_maps hleft values
  cases label with
  | part =>
    exact hagrees.comesOf_items hsides (by decide) (by decide) hstep
  | value =>
    have hstepSides : ∀ value ∈ mapValues (.obj left) ++ mapValues (.obj right),
        Step document .value (.obj left) value ∨ Step document .value (.obj right) value := by
      intro value hvalue
      have hfor := forObjects_of_kind hsides.plainLeft (by decide) hsides.kindLeft
      have hfor' := forObjects_of_kind hsides.plainRight (by decide) hsides.kindRight
      exact (List.mem_append.1 hvalue).imp (fun hmem => ⟨⟨hfor, hmap.2⟩, hmem⟩)
        fun hmem => ⟨⟨hfor', hmap'.2⟩, hmem⟩
    refine ⟨_, values, hstepSides, hvalues, fun trace htrace => ?_⟩
    have hvalue := hstep.2
    rw [mapValues, Json.member?, Keyed.get?_insert_self, Json.member?,
      patterns_maps hleft] at hvalue
    dsimp only at hvalue
    rw [List.append_nil] at hvalue
    split at hvalue
    · obtain rfl := List.mem_singleton.1 hvalue
      rw [eq_nil_of_trace_nil htrace]
      trivial
    · next members heq =>
      obtain rfl := List.mem_singleton.1 hvalue
      rwa [Option.some.inj heq]
    · exact absurd hvalue List.not_mem_nil
  | property =>
    have hrecord := isRecord_of_kept (hagrees.kept hleft (Or.inl rfl) (by decide)) hmap.1
    obtain ⟨entry, hentry, _⟩ := List.mem_map.1 hstep.2
    have hsome := isRecord_of_mem_properties hentry
    exact absurd (hrecord.symm.trans hsome) Bool.false_ne_true

/-- A step from a reference goes to its target. -/
theorem Step.leads_of_reference {reference : String}
    (href : a.member? "$ref" = some (.str reference)) (hstep : Step document label a next) :
    label = .part ∧ target? document reference = some next := by
  have hnone : ¬ ForObjects a := fun hfor => by cases href.symm.trans hfor.reference
  cases label with
  | part =>
    have hleads : next ∈ parts document a := hstep
    rw [parts_reference href] at hleads
    exact ⟨rfl, Option.mem_toList.1 hleads⟩
  | value => exact absurd hstep.1.toForObjects hnone
  | property => exact absurd hstep.1 hnone

theorem comesOf_references (hleft : Keyed.Ascending left) {target : String}
    (hkind : kind (.obj left) = .reference target) (hkind' : kind (.obj right) = .reference target)
    (hstep : Step document label (.obj (agreed (.obj left) (.obj right) [])) next) :
    ComesOf document label (.obj left) (.obj right) next := by
  have href : (Json.obj (agreed (.obj left) (.obj right) [])).member? "$ref" =
      some (.str target) :=
    get?_agreed_of_same hleft List.not_mem_nil (reference_of_kind hkind) (reference_of_kind hkind')
      (Json.same_refl _)
  obtain ⟨rfl, htarget⟩ := hstep.leads_of_reference href
  exact .of_step (Or.inl (.target (reference_of_kind hkind) htarget)) (Json.same_refl next)

/-- Where a step from what two different schemas unify to comes from. -/
theorem comesOf_unify (ha : a.WellFormed) (hb : b.WellFormed) (hne : a.same b = false)
    (h : unify a b = .ok unified) (hstep : Step document label unified next) :
    ComesOf document label a b next := by
  rw [unify_eq, unifyWith_of_ne hne] at h
  cases byRule_of_unifyKinds ha hb h with
  | references hleft hkind hkind' => exact comesOf_references hleft hkind hkind' hstep
  | any => exact absurd hstep not_step_nil
  | strings hsides => exact absurd hstep (not_step_strings hsides)
  | numbers hsides => exact absurd hstep (not_step_numbers hsides.ascending hsides.plainLeft)
  | agreed hk hsides => exact absurd hstep (not_step_agreed hk hsides)
  | arrays hsides hunified => exact comesOf_arrays hsides hunified hstep
  | records hsides hunified => exact comesOf_records hsides hunified hstep
  | maps hsides hunified => exact comesOf_maps hsides hunified hstep
  | openObjects hleft hplain => exact absurd hstep (not_step_openObjects hleft hplain)

/-! ### Traces of unified schemas -/

/-- A step goes to a part of the schema, or into the document, or to the schema that accepts
everything. -/
theorem Step.origin (hstep : Step document label a next) :
    document.Encloses next ∨ Part a next ∨ next = .obj [] := by
  cases label with
  | part =>
    have hleads : next ∈ parts document a := hstep
    rw [parts] at hleads
    split at hleads
    · exact Or.inl (encloses_of_target? (Option.mem_toList.1 hleads))
    · exact absurd hleads List.not_mem_nil
    · split at hleads
      · next hbranches => exact Or.inr (Or.inl (.of_combinator hbranches hleads))
      · split at hleads
        · exact Or.inr (Or.inl (.of_itemsSchema (Option.mem_toList.1 hleads)))
        · exact absurd hleads List.not_mem_nil
  | value => exact Or.inr (Part.of_mapValues hstep.2)
  | property =>
    obtain ⟨entry, hentry, rfl⟩ := List.mem_map.1 hstep.2
    exact Or.inr (Or.inl (.of_property hentry))

theorem Step.wellFormed (hdocument : document.WellFormed) (ha : a.WellFormed)
    (hstep : Step document label a next) : next.WellFormed := by
  rcases hstep.origin with hinside | hpart | rfl
  · exact wellFormed_of_encloses hdocument hinside
  · exact wellFormed_of_encloses ha hpart.encloses
  · exact filled_any.wellFormed

/-- A trace of what several schemas unify to, if this is so for two. -/
theorem exists_trace_of_unifyAll {schemas : List Json}
    (hunify : ∀ {a b unified : Json}, a.WellFormed → b.WellFormed → unify a b = .ok unified →
      Trace document trace unified → Trace document trace a ∨ Trace document trace b)
    (hall : ∀ schema ∈ schemas, schema.WellFormed) (h : unifyAll schemas = .ok unified)
    (htrace : Trace document trace unified) : ∃ schema ∈ schemas, Trace document trace schema := by
  refine (unifyAllWith_preserves (P := fun value => value.WellFormed ∧
    (Trace document trace value → ∃ schema ∈ schemas, Trace document trace schema))
    (fun {x y z} hx hy hz => ?_) (fun schema hschema => ?_) h).2 htrace
  · exact ⟨wellFormed_unify hx.1 hy.1 hz, fun hz' => (hunify hx.1 hy.1 hz hz').elim hx.2 hy.2⟩
  · exact ⟨hall schema hschema, fun hschema' => ⟨schema, hschema, hschema'⟩⟩

theorem trace_unify (hdocument : document.WellFormed) (ha : a.WellFormed) (hb : b.WellFormed)
    (h : unify a b = .ok unified) (htrace : Trace document trace unified) :
    Trace document trace a ∨ Trace document trace b := by
  -- on the trace and not on the schemas, since a step through a reference goes anywhere
  induction trace generalizing a b unified with
  | nil => exact Or.inl trivial
  | cons label rest ih =>
    cases hsame : a.same b with
    | true =>
      obtain rfl := eq_of_unify_of_same hsame h
      exact Or.inl htrace
    | false =>
      obtain ⟨next, hstep, hrest⟩ := htrace
      obtain ⟨values, joined, hvalues, hjoined, htraces⟩ := comesOf_unify ha hb hsame h hstep
      have hformed : ∀ value ∈ values, value.WellFormed := fun value hvalue =>
        (hvalues value hvalue).elim (Step.wellFormed hdocument ha) (Step.wellFormed hdocument hb)
      obtain ⟨value, hvalue, htrace⟩ :=
        exists_trace_of_unifyAll ih hformed hjoined (htraces rest hrest)
      exact (hvalues value hvalue).imp (fun hstep => ⟨value, hstep, htrace⟩)
        fun hstep => ⟨value, hstep, htrace⟩

/-- Every trace of the schema is one of the sources. -/
def Covered (document : Json) (sources : List Json) (schema : Json) : Prop :=
  ∀ trace, Trace document trace schema → ∃ source ∈ sources, Trace document trace source

/-- Unification makes no new traces. -/
theorem covered_unifyAll (hdocument : document.WellFormed) {schemas : List Json}
    (hall : ∀ schema ∈ schemas, schema.WellFormed) (h : unifyAll schemas = .ok unified) :
    Covered document schemas unified :=
  fun _ htrace => exists_trace_of_unifyAll (trace_unify hdocument) hall h htrace

end ResourceCatalog.Schema
