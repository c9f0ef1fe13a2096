import Mathlib
import ResourceCatalog.Proofs.Import.Failures
import ResourceCatalog.Proofs.Import.Runs
import ResourceCatalog.Proofs.Schema.Emptiness

/-!
# Typing and maps without values

The type of a map comes of the schemas for its values, unified. Where there are none, typing fails
because there is nothing to be unified, and that is so for every hollow map. In a document without
one no property and no attribute fails in this way: what typing goes on to are parts of the document
and what these unify to, and neither is hollow.
-/

namespace ResourceCatalog

/-- The error says that there was nothing to be unified. -/
def TypingError.OfNothing : TypingError → Prop
  | .unification e => e.root = .empty
  | _ => False

/-- No failure so far says that there was nothing to be unified. -/
def TypingState.Spared (state : TypingState) : Prop :=
  ∀ failure ∈ state.failures, ¬ failure.error.OfNothing

namespace Typing

/-! ### The judgement -/

/-- A computation neither fails nor records a failure because there was nothing to be unified, and
its result has a property. -/
def Spares {α : Type} (m : Typing α) (post : α → Prop) : Prop :=
  ∀ state : TypingState, state.Spared →
    Ends m state (fun a left => left.Spared ∧ post a) fun e left => left.Spared ∧ ¬ e.OfNothing

section Rules

variable {α β : Type} {post : α → Prop}

theorem Spares.pure {a : α} (h : post a) : Spares (pure a) post := fun _ hstate => ⟨hstate, h⟩

theorem Spares.throw {e : TypingError} (h : ¬ e.OfNothing) : Spares (throw e : Typing α) post :=
  fun _ hstate => ⟨hstate, h⟩

theorem Spares.bind {m : Typing β} {f : β → Typing α} {middle : β → Prop} (hm : Spares m middle)
    (hf : ∀ b, middle b → Spares (f b) post) : Spares (m >>= f) post := fun state hstate =>
  ends_bind.2 ((hm state hstate).mono (fun b left h => hf b h.2 left h.1) fun _ _ h => h)

theorem Spares.mapM {f : β → Typing α} {items : List β}
    (hf : ∀ item ∈ items, Spares (f item) post) :
    Spares (items.mapM f) fun results => results.length = items.length ∧ ∀ a ∈ results, post a := by
  induction items with
  | nil =>
    rw [List.mapM_nil]
    exact Spares.pure ⟨rfl, fun _ h => absurd h List.not_mem_nil⟩
  | cons item rest ih =>
    obtain ⟨hitem, hrest⟩ := List.forall_mem_cons.1 hf
    rw [List.mapM_cons]
    refine hitem.bind fun a ha => (ih hrest).bind fun others hothers => Spares.pure ⟨?_, ?_⟩
    · exact congrArg Nat.succ hothers.1
    · exact List.forall_mem_cons.2 ⟨ha, hothers.2⟩

theorem spares_lift {ε : Type} {result : Except ε α} {wrap : ε → TypingError}
    (hok : ∀ a, result = .ok a → post a) (hwrap : ∀ e, result = .error e → ¬ (wrap e).OfNothing) :
    Spares (liftM (result.mapError wrap) : Typing α) post := by
  intro state hstate
  rw [ends_lift]
  cases result with
  | ok a => exact ⟨hstate, hok a rfl⟩
  | error e => exact ⟨hstate, hwrap e rfl⟩

theorem spares_get : Spares get TypingState.Spared := fun _ hstate => ⟨hstate, hstate⟩

theorem spares_set {state : TypingState} (h : state.Spared) : Spares (set state) fun _ => True :=
  fun _ _ => ⟨h, trivial⟩

theorem spares_ofGraph (result : Except GraphError α) : Spares (ofGraph result) fun _ => True :=
  spares_lift (fun _ _ => trivial) fun _ _ => id

theorem spares_render (type : PropertyType) : Spares (render type) fun _ => True :=
  spares_get.bind fun _ _ => spares_ofGraph _

theorem spares_addUse (subject : Subject) (id : Identity) (path : String) :
    Spares (addUse subject id path) fun _ => True := fun _ hstate => ⟨hstate, trivial⟩

theorem spares_startDefinition (fingerprint name : String) :
    Spares (startDefinition fingerprint name) fun _ => True :=
  spares_get.bind fun _ hstate => Spares.bind (spares_set hstate) fun _ _ => Spares.pure trivial

theorem spares_finishDefinition (definition : Identity) (documentation : Option String)
    (properties : PropertyMap) :
    Spares (finishDefinition definition documentation properties) fun _ => True :=
  spares_get.bind fun _ hstate => (spares_ofGraph _).bind fun _ _ => spares_set hstate

theorem spares_recordFailure {path : String} {e : TypingError} (h : ¬ e.OfNothing) :
    Spares (recordFailure path e) fun _ => True := by
  intro state hstate
  rw [recordFailure]
  split
  · exact ⟨hstate, h⟩
  · refine ⟨fun failure hfailure => ?_, trivial⟩
    rcases List.mem_cons.1 hfailure with rfl | hfailure
    · exact h
    · exact hstate failure hfailure

theorem Spares.attempt {m : Typing α} (h : Spares m post) (path : String) :
    Spares (tryCatch (some <$> m) fun error => do
        recordFailure path error
        return none) fun _ => True := by
  intro state hstate
  rw [ends_tryCatch, ends_map]
  refine (h state hstate).mono (fun _ _ h => ⟨h.1, trivial⟩) fun e left h => ?_
  exact (spares_recordFailure h.2).bind (fun _ _ => Spares.pure trivial) left h.1

/-- Schemas without a hollow map in them unify to a schema without one, or do not unify for another
reason. -/
theorem spares_unifyAll {schemas : List Json} (hne : schemas ≠ [])
    (hall : ∀ schema ∈ schemas, Schema.Throughout Schema.Filled schema) :
    Spares (ofUnification (Schema.unifyAll schemas)) (Schema.Throughout Schema.Filled) :=
  spares_lift (fun _ hunified => Schema.handedOn_filled.unifyAll hall hunified)
    fun _ hunified => Schema.unifyAll_filled hne hall hunified

theorem spares_unionOf (path : String) (types : List PropertyType) :
    Spares (typeOf.unionOf path types) fun _ => True := by
  unfold typeOf.unionOf
  split
  · exact Spares.throw id
  · exact Spares.pure trivial
  · exact Spares.pure trivial

end Rules

section Level

variable {inner : String → String → Schema.Resolved → Typing PropertyType} {subject : Subject}

/-- The rules one level further in spare what has no hollow map in it. -/
def InnerSpares (inner : String → String → Schema.Resolved → Typing PropertyType) : Prop :=
  ∀ path hint resolved, resolved.Every Schema.Typable →
    Spares (inner path hint resolved) fun _ => True

variable (hdocument : Schema.NowhereHollow subject.document)

include hdocument

theorem spares_resolve {schema : Json} (hschema : Schema.Throughout Schema.Filled schema) :
    Spares (resolve subject schema) fun resolved => resolved.Every Schema.Typable :=
  spares_lift (fun _ hresolved =>
    (Schema.resolve_eq_ok_iff.1 hresolved).every_typable hdocument hschema) fun _ _ => id

variable (hinner : InnerSpares inner)

include hinner

theorem spares_typeInner (path hint : String) {schema : Json}
    (hschema : Schema.Throughout Schema.Filled schema) :
    Spares (typeInner inner subject path hint schema) fun _ => True :=
  (spares_resolve hdocument hschema).bind fun resolved hresolved =>
    hinner path hint resolved hresolved

theorem spares_propertyOf (path name : String) {schema : Json}
    (hschema : Schema.Throughout Schema.Filled schema) :
    Spares (propertyOf inner subject path name schema) fun _ => True :=
  (spares_resolve hdocument hschema).bind fun resolved hresolved =>
    (hinner path name resolved hresolved).bind fun _ _ => Spares.pure trivial

theorem spares_propertiesOf (path : String) (required : List String) {members : Members}
    (hmembers : ∀ entry ∈ members, Schema.Throughout Schema.Filled entry.2) :
    Spares (propertiesOf inner subject path required members) fun _ => True := by
  induction members with
  | nil => exact Spares.pure trivial
  | cons member rest ih =>
    obtain ⟨name, schema⟩ := member
    obtain ⟨hschema, hrest⟩ := List.forall_mem_cons.1 hmembers
    refine ((spares_propertyOf hdocument hinner _ name hschema).attempt _).bind fun found _ => ?_
    refine (ih hrest).bind fun others _ => ?_
    cases found with
    | none => exact Spares.pure trivial
    | some property => exact Spares.pure trivial

theorem spares_declaredProperties (path : String) {schema : Json} (excluded : List String)
    (hschema : ∀ entry ∈ Schema.properties schema, Schema.Throughout Schema.Filled entry.2) :
    Spares (declaredProperties inner subject path schema excluded) fun _ => True :=
  spares_propertiesOf hdocument hinner path _ fun entry hentry =>
    hschema entry (List.mem_filter.1 hentry).1

theorem spares_definitionOf (path name : String) {schema : Json}
    (hschema : Schema.Throughout Schema.Filled schema) :
    Spares (definitionOf inner subject path name schema) fun _ => True := by
  have hall : ∀ entry ∈ Schema.properties schema, Schema.Throughout Schema.Filled entry.2 :=
    fun entry hentry => hschema.below (.of_property hentry)
  have hproperties := spares_declaredProperties hdocument hinner path [] hall
  refine spares_get.bind fun state _ => ?_
  split
  · exact (spares_addUse subject _ path).bind fun _ _ => Spares.pure trivial
  · refine (spares_startDefinition _ name).bind fun id _ => ?_
    refine (spares_addUse subject id path).bind fun _ _ => ?_
    refine hproperties.bind fun properties _ => ?_
    exact (spares_finishDefinition id _ properties).bind fun _ _ => Spares.pure trivial

theorem spares_typeOfValues (path name : String) {values : List Json} (hne : values ≠ [])
    (hall : ∀ value ∈ values, Schema.Throughout Schema.Filled value) :
    Spares (typeOfValues inner subject path name values) fun _ => True := by
  unfold typeOfValues
  split
  · exact spares_typeInner hdocument hinner path name (hall _ (List.mem_singleton_self _))
  · refine (Spares.mapM fun value hvalue => spares_resolve hdocument (hall value hvalue)).bind
      fun resolved hresolved => ?_
    -- there are as many resolved schemas as there are values
    have hschemas : resolved.map Schema.Resolved.schema ≠ [] := by
      rw [ne_eq, List.map_eq_nil_iff, ← List.length_eq_zero_iff, hresolved.1,
        List.length_eq_zero_iff]
      exact hne
    refine (spares_unifyAll hschemas fun schema hschema => ?_).bind
      fun unified hunified => spares_typeInner hdocument hinner path _ hunified
    obtain ⟨one, hone, rfl⟩ := List.mem_map.1 hschema
    exact (hresolved.2 one hone).here.throughout

theorem spares_typeOfObject (path name : String) {schema : Json} (hschema : Schema.Typable schema)
    (htype : schema.member? "type" = none ∨ schema.member? "type" = some (.str "object")) :
    Spares (typeOfObject inner subject path name schema) fun _ => True := by
  rw [typeOfObject]
  split
  · exact (spares_definitionOf hdocument hinner path name hschema.throughout).bind
      fun _ _ => Spares.pure trivial
  next hrecord =>
    split
    · next hmap =>
      -- a map without values is hollow, as it has no reference and no other type
      have hne : Schema.mapValues schema ≠ [] := by
        intro hnil
        obtain ⟨hrecord, hfurther, hpatterns⟩ := Schema.isMap_without_values_iff.1 ⟨hmap, hnil⟩
        exact hschema.throughout.here.notHollow
          ⟨hschema.reference, htype, hrecord, hfurther, hpatterns⟩
      refine (spares_typeOfValues hdocument hinner path name hne fun value hvalue => ?_).bind
        fun _ _ => Spares.pure trivial
      exact Schema.handedOn_filled.mapValues hschema.throughout hvalue
    · exact Spares.pure trivial

theorem spares_typeOfConcrete (path name : String) {schema : Json}
    (hschema : Schema.Typable schema) :
    Spares (typeOfConcrete inner subject path name schema) fun _ => True := by
  have hplain : ∀ type : PropertyType, Spares (Pure.pure type : Typing PropertyType)
      fun _ => True := fun _ => Spares.pure trivial
  have hfails : ∀ reason, Spares (throw (.unsupported path reason) : Typing PropertyType)
      fun _ => True := fun _ => Spares.throw id
  have hobject := spares_typeOfObject hdocument hinner path name hschema
  rw [typeOfConcrete]
  split
  · next type htype =>
    split
    · split
      · exact hplain .dateTime
      · exact hplain .string
    · exact hplain .number
    · exact hplain .number
    · exact hplain .boolean
    · exact hplain .null
    · exact hobject (Or.inr htype)
    · exact hfails _
  · exact hfails _
  · next htype =>
    split
    · exact hobject (Or.inl htype)
    · split
      · exact hplain .string
      · split
        · exact hplain .json
        · exact hfails _

theorem spares_typeOfAll (path hint : String) {branches : List Schema.Resolved}
    (hne : branches ≠ []) (hbranches : ∀ branch ∈ branches, branch.Every Schema.Typable) :
    Spares (typeOfAll inner subject path hint branches) fun _ => True := by
  have hschemas : branches.map Schema.Resolved.schema ≠ [] :=
    fun hnil => hne (List.map_eq_nil_iff.1 hnil)
  refine (spares_unifyAll hschemas fun schema hschema => ?_).bind
    fun unified hunified => spares_typeInner hdocument hinner path _ hunified
  obtain ⟨branch, hbranch, rfl⟩ := List.mem_map.1 hschema
  exact (hbranches branch hbranch).here.throughout

omit hdocument hinner

mutual

theorem spares_typeOf (hdocument : Schema.NowhereHollow subject.document)
    (hinner : InnerSpares inner) (path hint : String) {resolved : Schema.Resolved}
    (hresolved : resolved.Every Schema.Typable) :
    Spares (typeOf inner subject path hint resolved) fun _ => True := by
  cases hresolved with
  | concrete hschema => exact spares_typeOfConcrete hdocument hinner path _ hschema
  | @array _ _ items hschema hitems =>
    cases items with
    | none => exact Spares.pure trivial
    | some items =>
      rw [typeOf]
      exact (spares_typeOf hdocument hinner path hint (hitems items rfl)).bind
        fun _ _ => Spares.pure trivial
  | @combined _ _ op branches hschema hbranches =>
    cases op with
    | allOf =>
      rw [typeOf]
      split
      · exact Spares.pure trivial
      · exact spares_typeOfConstrained hdocument hinner path hint hbranches
      · next hnil _ =>
        exact spares_typeOfAll hdocument hinner path hint hnil fun branch hbranch =>
          hbranches branch (List.mem_filter.1 hbranch).1
    | anyOf =>
      rw [typeOf]
      exact (spares_typesOf hdocument hinner path hint [] hbranches).bind
        fun types _ => spares_unionOf path types
    | oneOf =>
      rw [typeOf]
      exact (spares_typesOf hdocument hinner path hint [] hbranches).bind
        fun types _ => spares_unionOf path types

theorem spares_typeOfConstrained (hdocument : Schema.NowhereHollow subject.document)
    (hinner : InnerSpares inner) (path hint : String) {branches : List Schema.Resolved}
    (hbranches : ∀ branch ∈ branches, branch.Every Schema.Typable) :
    Spares (typeOfConstrained inner subject path hint branches) fun _ => True := by
  cases branches with
  | nil => exact Spares.pure trivial
  | cons branch rest =>
    obtain ⟨hbranch, hrest⟩ := List.forall_mem_cons.1 hbranches
    rw [typeOfConstrained]
    split
    · exact spares_typeOf hdocument hinner path hint hbranch
    · exact spares_typeOfConstrained hdocument hinner path hint hrest

theorem spares_typesOf (hdocument : Schema.NowhereHollow subject.document)
    (hinner : InnerSpares inner) (path hint : String) (texts : List String)
    {branches : List Schema.Resolved}
    (hbranches : ∀ branch ∈ branches, branch.Every Schema.Typable) :
    Spares (typesOf inner subject path hint texts branches) fun _ => True := by
  cases branches with
  | nil => exact Spares.pure trivial
  | cons branch rest =>
    obtain ⟨hbranch, hrest⟩ := List.forall_mem_cons.1 hbranches
    rw [typesOf]
    refine (spares_typeOf hdocument hinner path hint hbranch).bind fun type _ => ?_
    refine (spares_render type).bind fun text _ => ?_
    split
    · exact spares_typesOf hdocument hinner path hint texts hrest
    · exact (spares_typesOf hdocument hinner path hint (text :: texts) hrest).bind
        fun _ _ => Spares.pure trivial

end

end Level

/-! ### Typing a document -/

section Document

variable {subject : Subject} (hdocument : Schema.NowhereHollow subject.document)

include hdocument

theorem spares_typeWithin (levels : Nat) : InnerSpares (typeWithin subject levels) := by
  induction levels with
  | zero => exact fun _ _ _ _ => Spares.throw id
  | succ levels ih => exact fun path hint _ h => spares_typeOf hdocument ih path hint h

theorem spares_property (path name : String) {schema : Json}
    (hschema : Schema.Throughout Schema.Filled schema) :
    Spares (property subject path name schema) fun _ => True :=
  spares_propertyOf hdocument (spares_typeWithin hdocument _) path name hschema

theorem spares_attributeSchema (name : String) (segments : List String) {schema : Json}
    (hschema : Schema.Throughout Schema.Filled schema) :
    Spares (attributeSchema subject name schema segments) (Schema.Throughout Schema.Filled) := by
  induction segments generalizing schema with
  | nil => exact Spares.throw id
  | cons segment rest ih =>
    rw [attributeSchema]
    split
    · exact Spares.throw id
    · next found hfound =>
      have hthroughout := hschema.below (Schema.Part.of_segment hfound)
      split
      · exact Spares.pure hthroughout
      · exact (spares_resolve hdocument hthroughout).bind fun _ hresolved =>
          ih hresolved.here.throughout

theorem spares_attributesOf (names : List String) :
    Spares (attributesOf subject names) fun _ => True := by
  induction names with
  | nil => exact Spares.pure trivial
  | cons name rest ih =>
    rw [attributesOf]
    have htyped := (spares_attributeSchema hdocument name (Text.split '.' name)
      (hdocument.throughout .refl)).bind fun schema hschema =>
        spares_property hdocument name (String.ofList (Text.afterLast '.' name.toList)) hschema
    refine (htyped.attempt name).bind fun found _ => ih.bind fun others _ => ?_
    cases found with
    | none => exact Spares.pure trivial
    | some property => exact Spares.pure trivial

theorem spares_documentTypes (names : List String) :
    Spares (documentTypes subject names) fun _ => True := by
  refine (spares_declaredProperties hdocument (spares_typeWithin hdocument _) "" _
    fun entry hentry => ?_).bind fun _ _ =>
      (spares_attributesOf hdocument names).bind fun _ _ => Spares.pure trivial
  exact (hdocument.throughout .refl).below (.of_property hentry)

/-- No property and no attribute of a document without a hollow map fails because there is nothing
to be unified. -/
theorem typeDocument_spares (names : List String) (state : Builder) :
    Ends (Building.typeDocument subject names) state
      (fun result _ => ∀ failure ∈ result.2.2, ¬ failure.error.OfNothing)
      fun e _ => ∀ error, e = .typing error → ¬ error.OfNothing := by
  rw [ends_typeDocument_iff]
  refine (spares_documentTypes hdocument names _ fun _ h => absurd h List.not_mem_nil).mono
    (fun _ typed h failure hfailure => ?_) fun e _ h error heq => ?_
  · exact h.1 failure (List.mem_reverse.1 hfailure)
  · exact BuildError.typing.inj heq ▸ h.2

end Document

/-! ### Hollow maps -/

theorem typeOfConcrete_of_hollow {inner : String → String → Schema.Resolved → Typing PropertyType}
    {subject : Subject} {part : Json} (h : Schema.Hollow part) (path name : String) :
    typeOfConcrete inner subject path name part = throw (.unification .empty) := by
  have hobject : typeOfObject inner subject path name part = throw (.unification .empty) := by
    rw [typeOfObject, if_neg (by rw [h.record]; decide), if_pos h.isMap.1, h.isMap.2]
    rfl
  rw [typeOfConcrete]
  rcases h.type with htype | htype
  · rw [htype]
    dsimp only
    rw [h.record, h.isMap.1]
    exact hobject
  · rw [htype]
    exact hobject

/-- A hollow map has no type, whatever has been typed before. -/
theorem property_of_hollow {subject : Subject} {schema part : Json} {name : Option String}
    (hresolved : Schema.resolve subject.document schema = .ok (.concrete part name))
    (h : Schema.Hollow part) (path hint : String) (state : TypingState) :
    (property subject path hint schema).run.run state = (.error (.unification .empty), state) := by
  obtain ⟨levels, hlevels⟩ : ∃ levels, levelsFor subject.document schema = levels + 1 :=
    Nat.exists_eq_succ_of_ne_zero (pow_ne_zero 8 (Nat.succ_ne_zero _))
  rw [property, hlevels, propertyOf, resolve, hresolved]
  change (typeOfConcrete _ subject path _ part >>= _).run.run state = _
  rw [typeOfConcrete_of_hollow h]
  rfl

/-- Two schemas fail to unify because there is nothing to be unified exactly if their unification
comes to two different hollow maps, so schemas without a hollow map never do, and no property or
attribute of a document without one lacks a type for that reason. But there are such failures: in
every document a schema that is resolved to a hollow map has no type, and nothing else is said of
it than that there is nothing to be unified. -/
theorem nothing_to_unify (a b : Json) (subject : Subject) :
    ((∃ e, Schema.unify a b = .error e ∧ e.root = .empty) ↔
      ∃ c d, Relation.ReflTransGen Schema.ComesTo (a, b) (c, d) ∧ c.same d = false ∧
        Schema.kind c = .map ∧ Schema.kind d = .map ∧ Schema.Hollow c ∧ Schema.Hollow d) ∧
    (Schema.Throughout Schema.Filled a → Schema.Throughout Schema.Filled b →
      ∀ e, Schema.unify a b = .error e → e.root ≠ .empty) ∧
    (Schema.NowhereHollow subject.document → ∀ names state,
      Ends (Building.typeDocument subject names) state
        (fun result _ => ∀ failure ∈ result.2.2, ¬ failure.error.OfNothing)
        fun e _ => ∀ error, e = .typing error → ¬ error.OfNothing) ∧
    (∀ schema part name,
      Schema.resolve subject.document schema = .ok (.concrete part name) → Schema.Hollow part →
      ∀ path hint state, (property subject path hint schema).run.run state =
        (.error (.unification .empty), state)) ∧
    (TypingError.unification .empty).message = "Unification failed: Nothing to unify" := by
  refine ⟨Schema.exists_empty_iff, fun ha hb e h hroot => ?_,
    fun hdocument => typeDocument_spares hdocument, fun _ _ _ => property_of_hollow, rfl⟩
  obtain ⟨c, d, hc, _, hfails⟩ := Schema.handedOn_filled.exists_failsAt ha hb h
  exact hc.notHollow (Schema.failsAt_empty_iff.1 (hroot ▸ hfails)).2.2.2.1

/-- A document with a map of texts for a property. -/
def labels : Json :=
  .obj [("properties", .obj [("Labels",
    .obj [("patternProperties", .obj [("^a", .obj [("type", .str "string")])])])])]

theorem nowhereHollow_labels : Schema.NowhereHollow labels := by
  have hsingle : ∀ key value, value ≠ .obj [] → Schema.NowhereHollow value →
      Schema.NowhereHollow (.obj [(key, value)]) := by
    intro key value hne hvalue
    refine Schema.nowhereHollow_obj (List.pairwise_singleton _ _) (fun h => ?_)
      fun entry hentry => List.mem_singleton.1 hentry ▸ hvalue
    exact hne (Prod.mk.inj (List.mem_singleton.1 (Keyed.mem_of_get? h.patterns))).2.symm
  have htext := hsingle "type" (.str "string") nofun (Schema.nowhereHollow_str "string")
  exact hsingle _ _ nofun (hsingle _ _ nofun (hsingle _ _ nofun (hsingle _ _ nofun htext)))

theorem nothing_to_unify_labels :
    let bare := Json.obj [("patternProperties", .obj [])]
    let typed := Json.obj [("patternProperties", .obj []), ("type", .str "object")]
    (∃ e, Schema.unify bare typed = .error e ∧ e.root = .empty) ∧
      (property ⟨⟨0⟩, labels⟩ "P" "P" typed).run.run .empty =
        (.error (.unification .empty), .empty) ∧
      Ends (Building.typeDocument ⟨⟨0⟩, labels⟩ []) BuildStep.bareBuilder
        (fun result _ => ∀ failure ∈ result.2.2, ¬ failure.error.OfNothing)
        fun e _ => ∀ error, e = .typing error → ¬ error.OfNothing := by
  intro bare typed
  have hbare : Schema.Hollow bare := ⟨rfl, Or.inl rfl, rfl, rfl, rfl⟩
  have htyped : Schema.Hollow typed := ⟨rfl, Or.inr rfl, rfl, rfl, rfl⟩
  have hresolved : Schema.resolve labels typed = .ok (.concrete typed none) :=
    Schema.resolveAmong_concrete _ _ _ rfl rfl rfl
  obtain ⟨hunify, _, hspared, hfails, _⟩ := nothing_to_unify bare typed ⟨⟨0⟩, labels⟩
  exact ⟨hunify.2 ⟨bare, typed, .refl, rfl, rfl, rfl, hbare, htyped⟩,
    hfails typed typed none hresolved htyped "P" "P" .empty,
    hspared nowhereHollow_labels [] BuildStep.bareBuilder⟩

end Typing

end ResourceCatalog
