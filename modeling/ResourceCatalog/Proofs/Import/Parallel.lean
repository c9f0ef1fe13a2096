import Mathlib
import ResourceCatalog.Import.Builder
import ResourceCatalog.Proofs.Import.Sketch

/-!
# Typing twice

A document is typed from two starts, for one resource or for two. `Typing.Parallel` is the judgement
that two computations, in states that show one sketch, both have a result or both an error and leave
states that show one sketch again. The results are twins, one thing placed behind either start, and
the errors are the same unless they are of the graph. Every rule of typing has one lemma, so a
document has the same properties from both starts, apart from the identities of the definitions they
mention.
-/

namespace ResourceCatalog

/-! ### Texts of types -/

namespace PropertyType

mutual

/-- A type has the same text, or none, under two namings that agree where they give names. -/
theorem toOption_render_congr {nameOf other : Identity → Except GraphError String}
    (h : ∀ id, (nameOf id).toOption = (other id).toOption) (type : PropertyType) :
    (type.render nameOf).toOption = (type.render other).toOption := by
  have hmap : ∀ {α β : Type} {x y : Except GraphError α} (change : α → β),
      x.toOption = y.toOption → (x.map change).toOption = (y.map change).toOption := by
    intro α β x y change hsame
    cases x <;> cases y <;> cases hsame <;> rfl
  cases type with
  | ref definition => exact h definition
  | array element => exact hmap _ (toOption_render_congr h element)
  | map element => exact hmap _ (toOption_render_congr h element)
  | union types => exact hmap _ (toOption_renderAll_congr h types)
  | _ => rfl

theorem toOption_renderAll_congr {nameOf other : Identity → Except GraphError String}
    (h : ∀ id, (nameOf id).toOption = (other id).toOption) (types : List PropertyType) :
    (renderAll nameOf types).toOption = (renderAll other types).toOption := by
  cases types with
  | nil => rfl
  | cons type rest =>
    have hhead := toOption_render_congr h type
    have htail := toOption_renderAll_congr h rest
    rw [renderAll, renderAll]
    cases hx : type.render nameOf <;> cases hy : type.render other <;> rw [hx, hy] at hhead <;>
      cases hhead
    · rfl
    · cases hxs : renderAll nameOf rest <;> cases hys : renderAll other rest <;>
        rw [hxs, hys] at htail <;> cases htail <;> rfl

end

end PropertyType

namespace Typing

/-! ### The judgement -/

/-- Two states show one sketch behind two starts. -/
def Mirrors (a b : Start) (left right : TypingState) : Prop :=
  ∃ sketch : Sketch, sketch.Named ∧ sketch.Shows a left ∧ sketch.Shows b right

/-- One thing is placed behind two starts. -/
def Twins (a b : Start) {α : Type} (rename : (Identity → Identity) → α → α) (x y : α) : Prop :=
  ∃ sketched, x = rename a.supply.place sketched ∧ y = rename b.supply.place sketched

/-- Errors of the graph, or the same error. -/
def SameError (e e' : TypingError) : Prop := e.isFatal = true ∧ e'.isFatal = true ∨ e = e'

/-- Two computations go alike from two starts. -/
def Parallel (a b : Start) {α : Type} (m m' : Typing α)
    (same : α → α → Prop) : Prop :=
  ∀ state state', Mirrors a b state state' →
    EndTogether m m' state state'
      (fun x y left right => Mirrors a b left right ∧ same x y)
      (fun e e' left right => Mirrors a b left right ∧ SameError e e')

variable {a b : Start}

section Rules

variable {α β : Type} {same : α → α → Prop}

theorem Parallel.pure {x y : α} (h : same x y) :
    Parallel a b (pure x) (pure y) same :=
  fun _ _ hstates => ⟨hstates, h⟩

theorem Parallel.throw {e e' : TypingError} (h : SameError e e') :
    Parallel a b (throw e : Typing α) (throw e') same :=
  fun _ _ hstates => ⟨hstates, h⟩

theorem parallel_throw (e : TypingError) :
    Parallel a b (throw e : Typing α) (throw e) same := Parallel.throw (Or.inr rfl)

theorem Parallel.bind {m m' : Typing β} {f f' : β → Typing α} {middle : β → β → Prop}
    (hm : Parallel a b m m' middle)
    (hf : ∀ x y, middle x y → Parallel a b (f x) (f' y) same) :
    Parallel a b (m >>= f) (m' >>= f') same := by
  intro state state' hstates
  refine EndTogether.bind ((hm state state' hstates).mono ?_ fun _ _ _ _ h => h)
  exact fun x y left right h => hf x y h.2 left right h.1

/-- What does not look at the state goes alike from everywhere. -/
theorem parallel_lift (result : Except TypingError α) :
    Parallel a b (liftM result) (liftM result) Eq := by
  intro state state' hstates
  cases result with
  | ok x => exact ⟨hstates, rfl⟩
  | error e => exact ⟨hstates, Or.inr rfl⟩

theorem Parallel.mapM {f f' : β → Typing α} (hf : ∀ x, Parallel a b (f x) (f' x) Eq)
    (items : List β) : Parallel a b (items.mapM f) (items.mapM f') Eq := by
  induction items with
  | nil =>
    rw [List.mapM_nil, List.mapM_nil]
    exact Parallel.pure rfl
  | cons item rest ih =>
    rw [List.mapM_cons, List.mapM_cons]
    refine (hf item).bind fun x _ hx => ?_
    subst hx
    refine ih.bind fun others _ hothers => ?_
    subst hothers
    exact Parallel.pure rfl

theorem parallel_resolve (document schema : Json) :
    Parallel a b (resolve (a.subject document) schema) (resolve (b.subject document) schema) Eq :=
  parallel_lift ((Schema.resolve document schema).mapError TypingError.reference)

theorem parallel_unification (result : Except Schema.UnifyError α) :
    Parallel a b (ofUnification result) (ofUnification result) Eq := parallel_lift _

/-- The same failure is recorded, or both errors are passed on. -/
theorem parallel_recordFailure (path : String) {e e' : TypingError} (h : SameError e e') :
    Parallel a b (recordFailure path e) (recordFailure path e') Eq := by
  rw [recordFailure, recordFailure]
  rcases h with ⟨hfatal, hfatal'⟩ | rfl
  · rw [hfatal, hfatal']
    exact Parallel.throw (Or.inl ⟨hfatal, hfatal'⟩)
  · split
    · exact parallel_throw e
    · rintro state state' ⟨sketch, hnamed, hleft, hright⟩
      exact ⟨⟨sketch.withFailure ⟨path, e⟩, hnamed.withFailure _, hleft.withFailure _,
        hright.withFailure _⟩, rfl⟩

/-- Computations whose failures are recorded. -/
theorem Parallel.attempt {m m' : Typing α} (h : Parallel a b m m' same)
    (path : String) :
    Parallel a b
      (tryCatch (some <$> m) fun error => do
        recordFailure path error
        return none)
      (tryCatch (some <$> m') fun error => do
        recordFailure path error
        return none)
      (Option.Rel same) := by
  intro state state' hstates
  have hsome : Parallel a b (some <$> m) (some <$> m') (Option.Rel same) := by
    rw [map_eq_pure_bind, map_eq_pure_bind]
    exact h.bind fun x y hxy => Parallel.pure (.some hxy)
  refine EndTogether.tryCatch ((hsome state state' hstates).mono (fun _ _ _ _ h => h) ?_)
  intro e e' left right herror
  exact ((parallel_recordFailure path herror.2).bind fun _ _ _ => Parallel.pure .none) left right
    herror.1

end Rules

/-- Twins have the same text. -/
theorem parallel_render {type type' : PropertyType} (h : Twins a b PropertyType.rename type type') :
    Parallel a b (render type) (render type') Eq := by
  rintro state state' ⟨sketch, hnamed, hleft, hright⟩
  obtain ⟨sketched, rfl, rfl⟩ := h
  have hname : ∀ id, (state.database.typeName (a.supply.place id)).toOption =
      (state'.database.typeName (b.supply.place id)).toOption := by
    intro id
    by_cases hid : ∃ d ∈ sketch.definitions, d.id = id
    · obtain ⟨d, hd, rfl⟩ := hid
      rw [hleft.typeName_of_mem hd, hright.typeName_of_mem hd]
    · rw [hleft.typeName_of_not_mem hid, hright.typeName_of_not_mem hid]
  have htext : (state.database.render (sketched.rename a.supply.place)).toOption =
      (state'.database.render (sketched.rename b.supply.place)).toOption := by
    rw [Database.render, Database.render, PropertyType.render_rename, PropertyType.render_rename]
    exact PropertyType.toOption_render_congr hname sketched
  have hstates : Mirrors a b state state' := ⟨sketch, hnamed, hleft, hright⟩
  rw [render, render]
  refine EndTogether.bind (endTogether_get.2 ?_)
  generalize state.database.render _ = text at htext ⊢
  generalize state'.database.render _ = text' at htext ⊢
  cases text <;> cases text' <;> cases htext
  · exact ⟨hstates, Or.inl ⟨rfl, rfl⟩⟩
  · exact ⟨hstates, rfl⟩

/-! ### Definitions -/

theorem parallel_addUse (document : Json) {id id' : Identity}
    (h : Twins a b (fun f id => f id) id id') (path : String) :
    Parallel a b (addUse (a.subject document) id path) (addUse (b.subject document) id' path)
      Eq := by
  rintro state state' ⟨sketch, hnamed, hleft, hright⟩
  obtain ⟨sketched, rfl, rfl⟩ := h
  exact ⟨⟨sketch.withUse sketched path, hnamed.withUse sketched path,
    hleft.withUse sketched path, hright.withUse sketched path⟩, rfl⟩

theorem parallel_startDefinition (fingerprint name : String) :
    Parallel a b (startDefinition fingerprint name) (startDefinition fingerprint name)
      (Twins a b fun f id => f id) := by
  rintro state state' ⟨sketch, hnamed, hleft, hright⟩
  have hnames : freeName state'.names name = freeName state.names name := by
    rw [hright.names, hleft.names]
  have hfree : freeName state.names name ∉ sketch.names := hleft.names ▸ freeName_not_mem _ _
  refine ⟨⟨sketch.withDefinition fingerprint (freeName state.names name),
    hnamed.withDefinition fingerprint hfree, hleft.withDefinition _ _, ?_⟩,
    ⟨_, hleft.next_eq, hright.next_eq⟩⟩
  rw [← hnames]
  exact hright.withDefinition fingerprint _

theorem parallel_finishDefinition {id id' : Identity} (hid : Twins a b (fun f id => f id) id id')
    (documentation : Option String) {properties properties' : PropertyMap}
    (h : Twins a b PropertyMap.rename properties properties') :
    Parallel a b (finishDefinition id documentation properties)
      (finishDefinition id' documentation properties') Eq := by
  rintro state state' ⟨sketch, hnamed, hleft, hright⟩
  obtain ⟨sketched, rfl, rfl⟩ := hid
  obtain ⟨properties, rfl, rfl⟩ := h
  rw [finishDefinition, finishDefinition]
  refine EndTogether.bind (endTogether_get.2 (EndTogether.bind ?_))
  by_cases hmem : ∃ d ∈ sketch.definitions, d.id = sketched
  · obtain ⟨c, hc, hcoherent, hall⟩ := Collection.update_eq_ok
      hleft.coherent.definitions.coherent (hleft.mem_ids_iff.2 hmem)
      fun definition : TypeDefinition =>
        { definition with documentation, properties := properties.rename a.supply.place }
    obtain ⟨c', hc', hcoherent', hall'⟩ := Collection.update_eq_ok
      hright.coherent.definitions.coherent (hright.mem_ids_iff.2 hmem)
      fun definition : TypeDefinition =>
        { definition with documentation, properties := properties.rename b.supply.place }
    rw [hc, hc']
    exact ⟨⟨sketch.finish sketched documentation properties, hnamed.finish _ _ _,
      hleft.finish hcoherent hall, hright.finish hcoherent' hall'⟩, rfl⟩
  · rw [Collection.update, Collection.update,
      Collection.row?_eq_none fun hid => hmem (hleft.mem_ids_iff.1 hid),
      Collection.row?_eq_none fun hid => hmem (hright.mem_ids_iff.1 hid)]
    exact ⟨⟨sketch, hnamed, hleft, hright⟩, Or.inl ⟨rfl, rfl⟩⟩

/-! ### Rules by way of the rules one level further in -/

/-- The rules one level further in go alike. -/
def InnerParallel (a b : Start)
    (inner inner' : String → String → Schema.Resolved → Typing PropertyType) : Prop :=
  ∀ path hint resolved, Parallel a b (inner path hint resolved)
    (inner' path hint resolved) (Twins a b PropertyType.rename)

section Level

variable {inner inner' : String → String → Schema.Resolved → Typing PropertyType} {document : Json}

theorem parallel_typeInner (hinner : InnerParallel a b inner inner') (path hint : String)
    (schema : Json) :
    Parallel a b (typeInner inner (a.subject document) path hint schema)
      (typeInner inner' (b.subject document) path hint schema) (Twins a b PropertyType.rename) :=
  (parallel_resolve document schema).bind fun resolved _ hsame => hsame ▸ hinner path hint resolved

theorem parallel_propertyOf (hinner : InnerParallel a b inner inner') (path name : String)
    (schema : Json) :
    Parallel a b (propertyOf inner (a.subject document) path name schema)
      (propertyOf inner' (b.subject document) path name schema) (Twins a b Property.rename) := by
  refine (parallel_resolve document schema).bind fun resolved _ hsame => ?_
  subst hsame
  refine (hinner path name resolved).bind fun type type' htwins => ?_
  obtain ⟨sketched, rfl, rfl⟩ := htwins
  exact Parallel.pure ⟨{ Property.ofType sketched with
    documentation := (documentation? schema).or (documentation? resolved.schema)
    default := (schema.member? "default").or (resolved.schema.member? "default")
    deprecated := ((schema.member? "deprecated").bind Json.asBool?).getD false }, rfl, rfl⟩

theorem twins_nil : Twins a b PropertyMap.rename [] [] := ⟨[], rfl, rfl⟩

theorem Twins.insert {property property' : Property} {others others' : PropertyMap}
    (h : Twins a b Property.rename property property')
    (hothers : Twins a b PropertyMap.rename others others') (name : String) :
    Twins a b PropertyMap.rename (Keyed.insert name property others)
      (Keyed.insert name property' others') := by
  obtain ⟨sketched, rfl, rfl⟩ := h
  obtain ⟨rest, rfl, rfl⟩ := hothers
  exact ⟨Keyed.insert name sketched rest, Keyed.insert_mapValues _ _ _ _,
    Keyed.insert_mapValues _ _ _ _⟩

theorem parallel_propertiesOf (hinner : InnerParallel a b inner inner') (base : String)
    (required : List String) (members : Members) :
    Parallel a b (propertiesOf inner (a.subject document) base required members)
      (propertiesOf inner' (b.subject document) base required members) (Twins a b PropertyMap.rename) := by
  induction members with
  | nil => exact Parallel.pure twins_nil
  | cons member rest ih =>
    obtain ⟨name, schema⟩ := member
    rw [propertiesOf]
    refine ((parallel_propertyOf hinner (joinPath base name) name schema).attempt _).bind
      fun found found' hfound => ih.bind fun others others' hothers => ?_
    cases hfound with
    | none => exact Parallel.pure hothers
    | some hproperty =>
      obtain ⟨sketched, rfl, rfl⟩ := hproperty
      exact Parallel.pure (Twins.insert
        ⟨{ sketched with required := required.contains name }, rfl, rfl⟩ hothers name)

theorem parallel_definitionOf (hinner : InnerParallel a b inner inner')
    (path name : String) (schema : Json) :
    Parallel a b (definitionOf inner (a.subject document) path name schema)
      (definitionOf inner' (b.subject document) path name schema) (Twins a b fun f id => f id) := by
  rintro state state' ⟨sketch, hnamed, hleft, hright⟩
  have hlookup := hleft.lookup_seen (Schema.fingerprint schema)
  have hlookup' := hright.lookup_seen (Schema.fingerprint schema)
  rw [definitionOf]
  refine EndTogether.bind (endTogether_get.2 ?_)
  rw [hlookup, hlookup']
  cases sketch.seen.lookup (Schema.fingerprint schema) with
  | some id =>
    exact (parallel_addUse document ⟨id, rfl, rfl⟩ path).bind
      (fun _ _ _ => Parallel.pure ⟨id, rfl, rfl⟩) state state' ⟨sketch, hnamed, hleft, hright⟩
  | none =>
    refine (parallel_startDefinition (Schema.fingerprint schema) name).bind (fun id id' hid => ?_)
      state state' ⟨sketch, hnamed, hleft, hright⟩
    refine (parallel_addUse document hid path).bind fun _ _ _ => ?_
    refine (parallel_propertiesOf hinner path _ _).bind fun properties properties' hproperties => ?_
    exact (parallel_finishDefinition hid _ hproperties).bind fun _ _ _ => Parallel.pure hid

theorem parallel_typeOfValues (hinner : InnerParallel a b inner inner') (path name : String)
    (values : List Json) :
    Parallel a b (typeOfValues inner (a.subject document) path name values)
      (typeOfValues inner' (b.subject document) path name values) (Twins a b PropertyType.rename) := by
  unfold typeOfValues
  split
  · exact parallel_typeInner hinner path name _
  · refine (Parallel.mapM (parallel_resolve document) _).bind fun resolved _ hsame => ?_
    subst hsame
    exact (parallel_unification _).bind fun unified _ hsame =>
      hsame ▸ parallel_typeInner hinner path _ unified

theorem Parallel.wrap {m m' : Typing PropertyType} {wrap : PropertyType → PropertyType}
    (h : Parallel a b m m' (Twins a b PropertyType.rename))
    (hwrap : ∀ f type, (wrap type).rename f = wrap (type.rename f)) :
    Parallel a b (do return wrap (← m)) (do return wrap (← m'))
      (Twins a b PropertyType.rename) := by
  refine h.bind fun type type' htwins => ?_
  obtain ⟨sketched, rfl, rfl⟩ := htwins
  exact Parallel.pure ⟨wrap sketched, (hwrap _ _).symm, (hwrap _ _).symm⟩

/-- A type that mentions no definition is the same from everywhere. -/
theorem parallel_plain {type : PropertyType} (h : ∀ f, type.rename f = type) :
    Parallel a b (pure type) (pure type) (Twins a b PropertyType.rename) :=
  Parallel.pure ⟨type, (h _).symm, (h _).symm⟩

theorem parallel_typeOfObject (hinner : InnerParallel a b inner inner')
    (path name : String) (schema : Json) :
    Parallel a b (typeOfObject inner (a.subject document) path name schema)
      (typeOfObject inner' (b.subject document) path name schema) (Twins a b PropertyType.rename) := by
  rw [typeOfObject, typeOfObject]
  split
  · refine (parallel_definitionOf hinner path name schema).bind fun id id' hid => ?_
    obtain ⟨sketched, rfl, rfl⟩ := hid
    exact Parallel.pure ⟨.ref sketched, rfl, rfl⟩
  · split
    · exact (parallel_typeOfValues hinner path name _).wrap fun _ _ => rfl
    · exact parallel_plain fun _ => rfl

theorem parallel_typeOfConcrete (hinner : InnerParallel a b inner inner')
    (path name : String) (schema : Json) :
    Parallel a b (typeOfConcrete inner (a.subject document) path name schema)
      (typeOfConcrete inner' (b.subject document) path name schema) (Twins a b PropertyType.rename) := by
  have hobject : Parallel a b (typeOfObject inner (a.subject document) path name schema)
      (typeOfObject inner' (b.subject document) path name schema) (Twins a b PropertyType.rename) :=
    parallel_typeOfObject hinner path name schema
  rw [typeOfConcrete, typeOfConcrete]
  repeat' split
  all_goals first
    | exact hobject
    | exact parallel_plain fun _ => rfl
    | exact parallel_throw _

theorem parallel_typeOfAll (hinner : InnerParallel a b inner inner') (path hint : String)
    (branches : List Schema.Resolved) :
    Parallel a b (typeOfAll inner (a.subject document) path hint branches)
      (typeOfAll inner' (b.subject document) path hint branches) (Twins a b PropertyType.rename) :=
  (parallel_unification _).bind fun unified _ hsame =>
    hsame ▸ parallel_typeInner hinner path _ unified

theorem parallel_unionOf (path : String) {types types' : List PropertyType}
    (h : Twins a b PropertyType.renameAll types types') :
    Parallel a b (typeOf.unionOf path types) (typeOf.unionOf path types')
      (Twins a b PropertyType.rename) := by
  obtain ⟨sketched, rfl, rfl⟩ := h
  match sketched with
  | [] => exact parallel_throw _
  | [single] => exact Parallel.pure ⟨single, rfl, rfl⟩
  | first :: second :: rest => exact Parallel.pure ⟨.union (first :: second :: rest), rfl, rfl⟩

mutual

theorem parallel_typeOf (hinner : InnerParallel a b inner inner') (path hint : String)
    (resolved : Schema.Resolved) :
    Parallel a b (typeOf inner (a.subject document) path hint resolved)
      (typeOf inner' (b.subject document) path hint resolved) (Twins a b PropertyType.rename) := by
  cases resolved with
  | concrete schema name => exact parallel_typeOfConcrete hinner path _ schema
  | array schema name items =>
    cases items with
    | none => exact parallel_plain fun _ => rfl
    | some items =>
      rw [typeOf, typeOf]
      exact (parallel_typeOf hinner path hint items).wrap fun _ _ => rfl
  | combined schema name op branches =>
    cases op with
    | allOf =>
      rw [typeOf, typeOf]
      split
      · exact parallel_plain fun _ => rfl
      · exact parallel_typeOfConstrained hinner path hint branches
      · exact parallel_typeOfAll hinner path hint _
    | anyOf =>
      rw [typeOf, typeOf]
      exact (parallel_typesOf hinner path hint [] branches).bind fun _ _ htypes =>
        parallel_unionOf path htypes
    | oneOf =>
      rw [typeOf, typeOf]
      exact (parallel_typesOf hinner path hint [] branches).bind fun _ _ htypes =>
        parallel_unionOf path htypes

theorem parallel_typeOfConstrained (hinner : InnerParallel a b inner inner')
    (path hint : String) (branches : List Schema.Resolved) :
    Parallel a b (typeOfConstrained inner (a.subject document) path hint branches)
      (typeOfConstrained inner' (b.subject document) path hint branches) (Twins a b PropertyType.rename) := by
  cases branches with
  | nil => exact parallel_plain fun _ => rfl
  | cons branch rest =>
    rw [typeOfConstrained, typeOfConstrained]
    split
    · exact parallel_typeOf hinner path hint branch
    · exact parallel_typeOfConstrained hinner path hint rest

theorem parallel_typesOf (hinner : InnerParallel a b inner inner')
    (path hint : String) (texts : List String) (branches : List Schema.Resolved) :
    Parallel a b (typesOf inner (a.subject document) path hint texts branches)
      (typesOf inner' (b.subject document) path hint texts branches) (Twins a b PropertyType.renameAll) := by
  cases branches with
  | nil => exact Parallel.pure ⟨[], rfl, rfl⟩
  | cons branch rest =>
    rw [typesOf, typesOf]
    refine (parallel_typeOf hinner path hint branch).bind fun type type' htype => ?_
    refine (parallel_render htype).bind fun text _ hsame => ?_
    subst hsame
    split
    · exact parallel_typesOf hinner path hint texts rest
    · refine (parallel_typesOf hinner path hint (text :: texts) rest).bind
        fun types types' htypes => ?_
      obtain ⟨sketched, rfl, rfl⟩ := htype
      obtain ⟨others, rfl, rfl⟩ := htypes
      exact Parallel.pure ⟨sketched :: others, rfl, rfl⟩

end

end Level

/-! ### Typing a document -/

theorem parallel_typeWithin (document : Json) (levels : Nat) :
    InnerParallel a b (typeWithin (a.subject document) levels)
      (typeWithin (b.subject document) levels) := by
  induction levels with
  | zero => exact fun path _ _ => parallel_throw _
  | succ levels ih => exact fun path hint resolved => parallel_typeOf ih path hint resolved

theorem parallel_attributeSchema (document : Json) (name : String) (schema : Json)
    (segments : List String) :
    Parallel a b (attributeSchema (a.subject document) name schema segments)
      (attributeSchema (b.subject document) name schema segments) Eq := by
  induction segments generalizing schema with
  | nil => exact parallel_throw _
  | cons segment rest ih =>
    rw [attributeSchema, attributeSchema]
    split
    · exact parallel_throw _
    · split
      · exact Parallel.pure rfl
      · exact (parallel_resolve document _).bind fun resolved _ hsame => hsame ▸ ih resolved.schema

theorem parallel_attributesOf (document : Json) (names : List String) :
    Parallel a b (attributesOf (a.subject document) names) (attributesOf (b.subject document) names)
      (Twins a b PropertyMap.rename) := by
  induction names with
  | nil => exact Parallel.pure twins_nil
  | cons name rest ih =>
    rw [attributesOf, attributesOf]
    have htyped : Parallel a b (do
        let schema ← attributeSchema (a.subject document) name document (Text.split '.' name)
        Typing.property (a.subject document) name (String.ofList (Text.afterLast '.' name.toList))
          schema)
        (do
        let schema ← attributeSchema (b.subject document) name document (Text.split '.' name)
        Typing.property (b.subject document) name (String.ofList (Text.afterLast '.' name.toList)) schema)
        (Twins a b Property.rename) :=
      (parallel_attributeSchema document name _ _).bind fun schema _ hsame =>
        hsame ▸ parallel_propertyOf (parallel_typeWithin document _) name _ schema
    refine (htyped.attempt name).bind fun found found' hfound =>
      ih.bind fun others others' hothers => ?_
    cases hfound with
    | none => exact Parallel.pure hothers
    | some hproperty => exact Parallel.pure (hproperty.insert hothers name)

end Typing

end ResourceCatalog
