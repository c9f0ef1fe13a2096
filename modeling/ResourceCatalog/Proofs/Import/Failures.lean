import Mathlib
import ResourceCatalog.Proofs.Import.Additions
import ResourceCatalog.Proofs.Import.Typing
import ResourceCatalog.Proofs.Schema.Unfolding

/-!
# Properties without a type

Whether a property has a type, and which error it has otherwise, lies in the document alone: what
has been typed before changes names and identities and nothing else. What a failure leaves behind
depends on how far typing has come. As long as no record is met nothing is looked at or changed, so
a failure before the first record leaves the state as it is. From the first record on the resource
uses a definition by way of the property that is being typed, and nothing takes that back.
-/

namespace ResourceCatalog

/-! ### Texts of types without references -/

mutual

/-- The text of a type that mentions no definition does not depend on their names. -/
theorem PropertyType.exists_render {type : PropertyType} (h : type.references = []) :
    ∃ text, ∀ nameOf, type.render nameOf = .ok text := by
  cases type with
  | ref definition => cases h
  | array element =>
    have helement : element.references = [] := h
    obtain ⟨text, htext⟩ := PropertyType.exists_render helement
    exact ⟨_, fun nameOf => by rw [PropertyType.render, htext]; rfl⟩
  | map element =>
    have helement : element.references = [] := h
    obtain ⟨text, htext⟩ := PropertyType.exists_render helement
    exact ⟨_, fun nameOf => by rw [PropertyType.render, htext]; rfl⟩
  | union types =>
    have htypes : PropertyType.referencesOfAll types = [] := h
    obtain ⟨texts, htexts⟩ := PropertyType.exists_renderAll htypes
    exact ⟨_, fun nameOf => by rw [PropertyType.render, htexts]; rfl⟩
  | _ => exact ⟨_, fun _ => rfl⟩

theorem PropertyType.exists_renderAll {types : List PropertyType}
    (h : PropertyType.referencesOfAll types = []) :
    ∃ texts, ∀ nameOf, PropertyType.renderAll nameOf types = .ok texts := by
  cases types with
  | nil => exact ⟨[], fun _ => rfl⟩
  | cons type rest =>
    obtain ⟨htype, hrest⟩ := List.append_eq_nil_iff.1 h
    obtain ⟨text, htext⟩ := PropertyType.exists_render htype
    obtain ⟨texts, htexts⟩ := PropertyType.exists_renderAll hrest
    exact ⟨text :: texts, fun nameOf => by rw [PropertyType.renderAll, htext, htexts]; rfl⟩

end

/-- Nothing has been typed for the resource yet. -/
structure TypingState.Fresh (state : TypingState) : Prop extends state.Coherent where
  seen : state.seen = []
  names : state.names = []

/-- The state of a resource that is typed into an empty database. -/
def TypingState.empty : TypingState := ⟨Database.empty, Supply.full, [], [], []⟩

theorem TypingState.fresh_empty : TypingState.empty.Fresh :=
  ⟨⟨Collection.holds_empty _, Edges.coherent_empty⟩, rfl, rfl⟩

namespace Typing

/-! ### The course of a computation -/

/-- Whatever comes of a computation, the resource then uses a definition by way of the path. -/
def Links (resource : Identity) (path : String) {α : Type} (m : Typing α) : Prop :=
  ∀ state : TypingState, state.Coherent →
    Ends m state (fun _ left => Linked resource path left) (fun _ left => Linked resource path left)

/-- How a computation goes, whatever has been typed before. It is a value that mentions no
definition, or an error, or else it comes to a record. Also then it is known beforehand with which
error it fails, if it does. -/
inductive Course (resource : Identity) (path : String) {α : Type} (mentioned : α → List Identity)
    (post : α → Prop) (known : List Identity) : Option TypingError → Typing α → Prop where
  | value (a : α) (hplain : mentioned a = []) (hpost : post a) :
    Course resource path mentioned post known none (pure a)
  | error (e : TypingError) (hfatal : NotFatal e) :
    Course resource path mentioned post known (some e) (throw e)
  | record (error? : Option TypingError) (m : Typing α) (hlinks : Links resource path m)
    (hkeeps : ∀ base first, Keeps base first resource (fun e => error? = some e) known m
      fun a found => error? = none ∧ mentioned a ⊆ found ∧ post a) :
    Course resource path mentioned post known error? m

section Rules

variable {resource : Identity} {path : String} {α β : Type} {mentioned : α → List Identity}
  {post : α → Prop} {mentioned' : β → List Identity} {post' : β → Prop} {known : List Identity}

theorem Course.keeps {error? : Option TypingError} {m : Typing α}
    (h : Course resource path mentioned post known error? m) (base : Database) (first : Supply) :
    Keeps base first resource (fun e => error? = some e) known m
      fun a found => error? = none ∧ mentioned a ⊆ found ∧ post a := by
  cases h with
  | value a hplain hpost =>
    exact Keeps.pure fun found _ => ⟨rfl, hplain ▸ List.nil_subset found, hpost⟩
  | error e hfatal => exact Keeps.throw rfl
  | record _ _ _ hkeeps => exact hkeeps base first

theorem Links.linked {m : Typing α} (h : Links resource path m) {state : TypingState}
    (hstate : state.Coherent) : Linked resource path (m.run.run state).2 := by
  have hends := h state hstate
  rcases hrun : m.run.run state with ⟨e | a, left⟩
  · exact hends.of_run_error hrun
  · exact hends.of_run_ok hrun

/-- A computation that begins with a record keeps its link. -/
theorem Links.bind {m : Typing β} {f : β → Typing α} (h : Links resource path m)
    (hm : Adds resource path m) (hf : ∀ b, Adds resource path (f b)) :
    Links resource path (m >>= f) := by
  intro state hstate
  refine ends_bind.2 (((hm state hstate).and (h state hstate)).mono ?_ fun _ _ h => h.2)
  rintro b left ⟨hleft, hlinked⟩
  refine (hf b left hleft.1).mono ?_ ?_
  · rintro _ done ⟨_, new, hgrows, _⟩
    exact hgrows.linked hlinked
  · rintro _ done ⟨_, new, hgrows, _⟩
    exact hgrows.linked hlinked

theorem Course.imp {error? : Option TypingError} {m : Typing α} {weaker : α → Prop}
    (h : Course resource path mentioned post known error? m) (hpost : ∀ a, post a → weaker a) :
    Course resource path mentioned weaker known error? m := by
  cases h with
  | value a hplain ha => exact .value a hplain (hpost a ha)
  | error e hfatal => exact .error e hfatal
  | record _ _ hlinks hkeeps =>
    exact .record _ _ hlinks fun base first => (hkeeps base first).imp (fun _ h => h)
      fun a _ h => ⟨h.1, h.2.1, hpost a h.2.2⟩

/-- A computation in two parts. The second one need not know where it begins: it goes on from a
value that mentions no definition, or else there is a link already. -/
theorem Course.bind {first? last? : Option TypingError} {m : Typing β} {f : β → Typing α}
    (h : Course resource path mentioned' post' known first? m) (hm : Adds resource path m)
    (hplain : ∀ b, mentioned' b = [] → post' b →
      Course resource path mentioned post known last? (f b))
    (hkeeps : ∀ b found, known ⊆ found → mentioned' b ⊆ found → post' b → ∀ base first,
      Keeps base first resource (fun e => last? = some e) found (f b)
        fun a found => last? = none ∧ mentioned a ⊆ found ∧ post a)
    (hadds : ∀ b, Adds resource path (f b)) :
    Course resource path mentioned post known (first?.or last?) (m >>= f) := by
  cases h with
  | value b hb hpost => exact hplain b hb hpost
  | error e hfatal => exact .error e hfatal
  | record _ _ hlinks hfirst =>
    refine .record _ _ (hlinks.bind hm hadds) fun base first => ?_
    -- how the first part ends is known, and only if it has a value there is a second part
    cases first? with
    | none =>
      refine ((hfirst base first).imp (fun _ herr => nomatch herr) fun _ _ h => h).bind ?_
      rintro b found hsub ⟨_, hmentioned, hpost⟩
      exact hkeeps b found hsub hmentioned hpost base first
    | some e =>
      refine ((hfirst base first).imp (fun _ herr => herr) fun _ _ h => h).bind ?_
      rintro b found _ ⟨hnone, _⟩
      cases hnone

theorem Course.map {error? : Option TypingError} {m : Typing β}
    (h : Course resource path mentioned' post' known error? m) (hm : Adds resource path m)
    (g : β → α) (hmentioned : ∀ b, mentioned (g b) = mentioned' b)
    (hpost : ∀ b, post' b → post (g b)) :
    Course resource path mentioned post known error? (m >>= fun b => pure (g b)) := by
  rw [← Option.or_none (o := error?)]
  refine h.bind hm (fun b hb hpost' => ?_) (fun b found _ hb hpost' _ _ => ?_) fun _ => adds_pure _
  · exact .value (g b) ((hmentioned b).trans hb) (hpost b hpost')
  · refine Keeps.pure fun found' hsub => ⟨rfl, ?_, hpost b hpost'⟩
    rw [hmentioned]
    exact List.Subset.trans hb hsub

/-! ### Values and errors outright -/

/-- A computation that is a value or an error and does nothing. -/
def Outright (m : Typing α) : Prop := (∃ a, m = pure a) ∨ ∃ e, NotFatal e ∧ m = throw e

theorem outright_lift {ε : Type} (result : Except ε α) {wrap : ε → TypingError}
    (hwrap : ∀ e, NotFatal (wrap e)) :
    Outright (liftM (result.mapError wrap) : Typing α) := by
  cases result with
  | ok a => exact Or.inl ⟨a, rfl⟩
  | error e => exact Or.inr ⟨wrap e, hwrap e, rfl⟩

theorem outright_resolve (subject : Subject) (schema : Json) : Outright (resolve subject schema) :=
  outright_lift _ fun _ => rfl

theorem outright_unification (result : Except Schema.UnifyError α) :
    Outright (ofUnification result) := outright_lift _ fun _ => rfl

theorem Outright.mapM {f : β → Typing α} (h : ∀ b, Outright (f b)) (items : List β) :
    Outright (items.mapM f) := by
  induction items with
  | nil => exact Or.inl ⟨[], List.mapM_nil⟩
  | cons item rest ih =>
    rw [List.mapM_cons]
    rcases h item with ⟨a, ha⟩ | ⟨e, hfatal, he⟩
    · rw [ha]
      rcases ih with ⟨others, hothers⟩ | ⟨e, hfatal, he⟩
      · exact Or.inl ⟨a :: others, by rw [hothers]; rfl⟩
      · exact Or.inr ⟨e, hfatal, by rw [he]; rfl⟩
    · exact Or.inr ⟨e, hfatal, by rw [he]; rfl⟩

theorem render_eq_pure {type : PropertyType} (h : type.references = []) :
    ∃ text, render type = pure text := by
  obtain ⟨text, htext⟩ := PropertyType.exists_render h
  refine ⟨text, funext fun state => ?_⟩
  change (ofGraph (state.database.render type)).run.run state = _
  rw [Database.render, htext]
  rfl

end Rules

/-! ### The course of typing -/

/-- A computation of a type goes the same way whatever is known. -/
def Goes (resource : Identity) (path : String) (m : Typing PropertyType) : Prop :=
  ∃ error?, ∀ known,
    Course resource path PropertyType.references (fun _ => True) known error? m

/-- What holds of the computations one level further in. -/
structure InnerGoes (resource : Identity)
    (inner : String → String → Schema.Resolved → Typing PropertyType) : Prop where
  adds : InnerAdds resource inner
  keeps : ∀ base first, InnerKeeps base first resource inner
  goes : ∀ path hint resolved, Goes resource path (inner path hint resolved)

section Goes

variable {resource : Identity} {path : String}

theorem goes_pure {type : PropertyType} (h : type.references = []) :
    Goes resource path (pure type) := ⟨none, fun _ => .value type h trivial⟩

theorem goes_throw {e : TypingError} (h : NotFatal e) : Goes resource path (throw e) :=
  ⟨some e, fun _ => .error e h⟩

theorem Goes.after {β : Type} {m : Typing β} (hm : Outright m) {f : β → Typing PropertyType}
    (hf : ∀ b, Goes resource path (f b)) : Goes resource path (m >>= f) := by
  rcases hm with ⟨b, rfl⟩ | ⟨e, hfatal, rfl⟩
  · exact hf b
  · exact goes_throw hfatal

theorem Goes.map {m : Typing PropertyType} (h : Goes resource path m) (hm : Adds resource path m)
    (g : PropertyType → PropertyType) (hg : ∀ type, (g type).references = type.references) :
    Goes resource path (m >>= fun type => pure (g type)) := by
  obtain ⟨error?, h⟩ := h
  exact ⟨error?, fun known => (h known).map hm g hg fun _ h => h⟩

end Goes

section Level

variable {inner : String → String → Schema.Resolved → Typing PropertyType} {subject : Subject}

theorem goes_typeInner (hinner : InnerGoes subject.resource inner) (path hint : String)
    (schema : Json) : Goes subject.resource path (typeInner inner subject path hint schema) :=
  Goes.after (outright_resolve subject schema) fun resolved => hinner.goes path hint resolved

theorem goes_typeOfValues (hinner : InnerGoes subject.resource inner) (path name : String)
    (values : List Json) :
    Goes subject.resource path (typeOfValues inner subject path name values) := by
  unfold typeOfValues
  split
  · exact goes_typeInner hinner path name _
  · exact Goes.after (Outright.mapM (outright_resolve subject) _) fun resolved =>
      Goes.after (outright_unification _) fun unified => goes_typeInner hinner path _ unified

theorem course_definitionOf (hinner : InnerGoes subject.resource inner) (path name : String)
    (schema : Json) (known : List Identity) :
    Course subject.resource path (fun id => [id]) (fun _ => True) known none
      (definitionOf inner subject path name schema) := by
  refine .record _ _ (fun state hstate => ?_) fun base first => ?_
  · exact (ends_definitionOf hinner.adds path name schema hstate).mono (fun _ _ h => h.2)
      fun _ _ h => h.2
  · exact (keeps_definitionOf (hinner.keeps base first) known path name schema).imp
      (fun _ hfalse => hfalse.elim) fun id found hid =>
        ⟨rfl, fun _ hmem => List.mem_singleton.1 hmem ▸ hid, trivial⟩

theorem goes_typeOfObject (hinner : InnerGoes subject.resource inner) (path name : String)
    (schema : Json) : Goes subject.resource path (typeOfObject inner subject path name schema) := by
  rw [typeOfObject]
  split
  · exact ⟨none, fun known => (course_definitionOf hinner path name schema known).map
      (adds_definitionOf hinner.adds path name schema) _ (fun _ => rfl) fun _ h => h⟩
  · split
    · exact (goes_typeOfValues hinner path name _).map
        (adds_typeOfValues hinner.adds path name _) _ fun _ => rfl
    · exact goes_pure rfl

theorem goes_typeOfConcrete (hinner : InnerGoes subject.resource inner) (path name : String)
    (schema : Json) :
    Goes subject.resource path (typeOfConcrete inner subject path name schema) := by
  have hobject := goes_typeOfObject hinner path name schema
  rw [typeOfConcrete]
  repeat' split
  all_goals first | exact hobject | exact goes_pure rfl | exact goes_throw rfl

/-- The branches of a union are typed one after the other. That the texts of some have been seen
decides which types are left out, and not whether there is an error. -/
theorem course_typesOf_cons (hinner : InnerGoes subject.resource inner) {path hint : String}
    {branch : Schema.Resolved} {rest : List Schema.Resolved} {first? last? : Option TypingError}
    (hfirst : ∀ known, Course subject.resource path PropertyType.references (fun _ => True) known
      first? (typeOf inner subject path hint branch))
    (hlast : ∀ texts known, Course subject.resource path PropertyType.referencesOfAll
      (fun types => texts = [] → rest ≠ [] → types ≠ []) known last?
      (typesOf inner subject path hint texts rest)) (texts : List String) (known : List Identity) :
    Course subject.resource path PropertyType.referencesOfAll
      (fun types => texts = [] → branch :: rest ≠ [] → types ≠ []) known (first?.or last?)
      (typesOf inner subject path hint texts (branch :: rest)) := by
  rw [typesOf]
  refine (hfirst known).bind (adds_typeOf hinner.adds path hint branch)
    (fun type hplain _ => ?_) (fun type found _ hmentioned _ base first => ?_) fun type => ?_
  · obtain ⟨text, htext⟩ := render_eq_pure hplain
    rw [htext, pure_bind]
    split
    · next hseen =>
      refine (hlast texts known).imp fun types _ hnil => ?_
      rw [hnil] at hseen
      cases hseen
    · refine (hlast (text :: texts) known).map (adds_typesOf hinner.adds path hint _ rest)
        (type :: ·) (fun types => ?_) fun types _ _ _ => List.cons_ne_nil _ _
      rw [PropertyType.referencesOfAll, hplain, List.nil_append]
  · refine (keeps_render hmentioned).bind fun text seen hsub _ => ?_
    have htype := List.Subset.trans hmentioned hsub
    split
    · next hseen =>
      refine ((hlast texts seen).keeps base first).imp (fun _ h => h) fun types _ h =>
        ⟨h.1, ?_, fun hnil => ?_⟩
      · exact h.2.1
      · rw [hnil] at hseen
        cases hseen
    · refine ((hlast (text :: texts) seen).keeps base first).bind
        fun types more hsub' h => Keeps.pure fun most hsub'' =>
          ⟨h.1, ?_, fun _ _ => List.cons_ne_nil _ _⟩
      rw [PropertyType.referencesOfAll]
      exact List.append_subset.2 ⟨List.Subset.trans htype (List.Subset.trans hsub' hsub''),
        List.Subset.trans h.2.1 hsub''⟩
  · refine (adds_render type).bind fun text => ?_
    split
    · exact adds_typesOf hinner.adds path hint texts rest
    · exact (adds_typesOf hinner.adds path hint _ rest).bind fun _ => adds_pure _

mutual

theorem goes_typeOf (hinner : InnerGoes subject.resource inner) (path hint : String)
    (resolved : Schema.Resolved) :
    Goes subject.resource path (typeOf inner subject path hint resolved) := by
  cases resolved with
  | concrete schema name => exact goes_typeOfConcrete hinner path _ schema
  | array schema name items =>
    cases items with
    | none => exact goes_pure rfl
    | some items =>
      rw [typeOf]
      exact (goes_typeOf hinner path hint items).map (adds_typeOf hinner.adds path hint items) _
        fun _ => rfl
  | combined schema name op branches =>
    have hunion := goes_union hinner path hint branches
    cases op with
    | allOf =>
      rw [typeOf]
      split
      · exact goes_pure rfl
      · exact goes_typeOfConstrained hinner path hint branches
      · exact Goes.after (outright_unification _) fun unified =>
          goes_typeInner hinner path _ unified
    | anyOf =>
      rw [typeOf]
      exact hunion
    | oneOf =>
      rw [typeOf]
      exact hunion

theorem goes_typeOfConstrained (hinner : InnerGoes subject.resource inner) (path hint : String)
    (branches : List Schema.Resolved) :
    Goes subject.resource path (typeOfConstrained inner subject path hint branches) := by
  cases branches with
  | nil => exact goes_pure rfl
  | cons branch rest =>
    rw [typeOfConstrained]
    split
    · exact goes_typeOf hinner path hint branch
    · exact goes_typeOfConstrained hinner path hint rest

theorem goes_union (hinner : InnerGoes subject.resource inner) (path hint : String)
    (branches : List Schema.Resolved) :
    Goes subject.resource path (do
      typeOf.unionOf path (← typesOf inner subject path hint [] branches)) := by
  cases branches with
  | nil => exact goes_throw rfl
  | cons branch rest =>
    obtain ⟨error?, h⟩ := course_typesOf hinner path hint (branch :: rest)
    refine ⟨error?.or none, fun known => (h [] known).bind
      (adds_typesOf hinner.adds path hint [] _) (fun types hplain hne => ?_)
      (fun types found _ hmentioned hne _ _ => ?_) fun types => adds_unionOf types⟩
    · match types, hne rfl (List.cons_ne_nil _ _) with
      | [type], _ =>
        exact .value type (List.append_eq_nil_iff.1 hplain).1 trivial
      | type :: other :: more, _ => exact .value _ hplain trivial
    · match types, hne rfl (List.cons_ne_nil _ _) with
      | [type], _ =>
        rw [PropertyType.referencesOfAll, PropertyType.referencesOfAll, List.append_nil]
          at hmentioned
        exact Keeps.pure fun _ hsub => ⟨rfl, List.Subset.trans hmentioned hsub, trivial⟩
      | type :: other :: more, _ =>
        exact Keeps.pure fun _ hsub => ⟨rfl, List.Subset.trans hmentioned hsub, trivial⟩

theorem course_typesOf (hinner : InnerGoes subject.resource inner) (path hint : String)
    (branches : List Schema.Resolved) :
    ∃ error?, ∀ texts known, Course subject.resource path PropertyType.referencesOfAll
      (fun types => texts = [] → branches ≠ [] → types ≠ []) known error?
      (typesOf inner subject path hint texts branches) := by
  cases branches with
  | nil => exact ⟨none, fun _ _ => .value [] rfl fun _ hne => absurd rfl hne⟩
  | cons branch rest =>
    obtain ⟨first?, hfirst⟩ := goes_typeOf hinner path hint branch
    obtain ⟨last?, hlast⟩ := course_typesOf hinner path hint rest
    exact ⟨first?.or last?, course_typesOf_cons hinner hfirst hlast⟩

end

end Level

theorem innerGoes_typeWithin (subject : Subject) (levels : Nat) :
    InnerGoes subject.resource (typeWithin subject levels) where
  adds := adds_typeWithin subject levels
  keeps _ _ := fun path hint resolved known =>
    keeps_typeWithin subject levels path hint resolved known
  goes := by
    induction levels with
    | zero => exact fun _ _ _ => goes_throw rfl
    | succ levels ih =>
      exact fun path hint resolved => goes_typeOf ⟨adds_typeWithin subject levels,
        fun _ _ path hint resolved known =>
          keeps_typeWithin subject levels path hint resolved known, ih⟩ path hint resolved

/-! ### Properties -/

/-- A property goes the same way whatever has been typed before. -/
theorem course_propertyOf {inner : String → String → Schema.Resolved → Typing PropertyType}
    {subject : Subject} (hinner : InnerGoes subject.resource inner) (path name : String)
    (schema : Json) :
    ∃ error?, ∀ known, Course subject.resource path (fun p : Property => p.type.references)
      (fun _ => True) known error? (propertyOf inner subject path name schema) := by
  rw [propertyOf]
  rcases outright_resolve subject schema with ⟨resolved, hresolved⟩ | ⟨e, hfatal, he⟩
  · obtain ⟨error?, h⟩ := hinner.goes path name resolved
    refine ⟨error?, fun known => ?_⟩
    rw [hresolved, pure_bind]
    exact (h known).map (hinner.adds path name resolved) _ (fun _ => rfl) fun _ h => h
  · refine ⟨some e, fun known => ?_⟩
    rw [he]
    exact .error e hfatal

theorem course_property (subject : Subject) (path name : String) (schema : Json) :
    ∃ error?, ∀ known, Course subject.resource path (fun p : Property => p.type.references)
      (fun _ => True) known error? (property subject path name schema) :=
  course_propertyOf (innerGoes_typeWithin subject _) path name schema

variable {base : Database} {first : Supply} {subject : Subject} {state left : TypingState}

theorem Progress.coherent {resource : Identity} (h : Progress base first resource state) :
    state.Coherent := ⟨h.definitions, h.uses⟩

theorem progress_fresh {state : TypingState} (h : state.Fresh) (resource : Identity) :
    Progress state.database state.supply resource state :=
  Progress.of_unseen state h.definitions h.uses (congrArg (List.map Prod.snd) h.seen) resource

theorem progress_empty (resource : Identity) :
    Progress Database.empty Supply.full resource TypingState.empty :=
  progress_fresh TypingState.fresh_empty resource

theorem keeps_property (subject : Subject) (path name : String) (schema : Json)
    (known : List Identity) : Keeps base first subject.resource NotFatal known
      (property subject path name schema) PropertyWithin :=
  keeps_propertyOf ((innerGoes_typeWithin subject _).keeps base first) known path name schema

/-- Whether a property fails, and with which error, does not depend on what has been typed. -/
theorem exists_fails_iff (subject : Subject) (path name : String) (schema : Json) :
    ∃ error? : Option TypingError, ∀ {base first state},
      Progress base first subject.resource state → ∀ e,
        (∃ left, (property subject path name schema).run.run state = (.error e, left)) ↔
          error? = some e := by
  obtain ⟨error?, hcourse⟩ := course_property subject path name schema
  refine ⟨error?, fun {base first state} hstate e => ?_⟩
  have hends := (hcourse []).keeps base first state hstate (List.nil_subset _)
  rcases hrun : (property subject path name schema).run.run state with ⟨failed | p, left⟩
  · rw [(hends.of_run_error hrun).2.2, Option.some.injEq]
    exact ⟨fun ⟨_, h⟩ => Except.error.inj (Prod.mk.inj h).1, fun h => ⟨left, h ▸ rfl⟩⟩
  · rw [(hends.of_run_ok hrun).2.2.1]
    exact ⟨fun ⟨_, h⟩ => (nomatch (Prod.mk.inj h).1), fun h => (nomatch h)⟩

/-! ### A record or else a tuple -/

def emptyRecord : Json := .obj [("properties", .obj []), ("type", .str "object")]

/-- There is no type of this name. -/
def tuple : Json := .obj [("type", .str "tuple")]

def recordOrTuple : Json := .obj [("anyOf", .arr [emptyRecord, tuple])]

theorem resolve_recordOrTuple (subject : Subject) : resolve subject recordOrTuple =
    pure (.combined recordOrTuple none .anyOf
      [.concrete emptyRecord none, .concrete tuple none]) := by
  have hresolved : Schema.resolve subject.document recordOrTuple = .ok (.combined recordOrTuple
      none .anyOf [.concrete emptyRecord none, .concrete tuple none]) := by
    rw [Schema.resolve, Schema.resolveAmong_combined _ _ _ rfl rfl, Schema.resolveBranches,
      Schema.resolveAmong_concrete _ _ _ rfl rfl rfl, Schema.resolveBranches,
      Schema.resolveAmong_concrete _ _ _ rfl rfl rfl, Schema.resolveBranches]
    rfl
  rw [resolve, hresolved]
  rfl

/-- The first branch makes a definition, the second one fails. -/
theorem exists_property_recordOrTuple : ∃ left fingerprint id,
    (property ⟨⟨0⟩, .obj []⟩ "P" "P" recordOrTuple).run.run .empty =
        (.error (.unsupported "P" "type 'tuple'"), left) ∧
      left.seen = [(fingerprint, id)] ∧
      left.database.typeDefinitions.all = [⟨id, TypeDefinition.ofName "P"⟩] := by
  obtain ⟨levels, hlevels⟩ : ∃ levels, levelsFor (.obj []) recordOrTuple = levels + 1 :=
    Nat.exists_eq_succ_of_ne_zero (by decide)
  rw [property, hlevels, propertyOf, resolve_recordOrTuple]
  exact ⟨_, _, _, rfl, rfl, rfl⟩

/-! ### What a failure leaves -/

/-- A failure leaves the state as it is, or the resource uses a definition because of it. Which of
the two it is shows where nothing has been typed yet. -/
theorem unchanged_or_linked (path name : String) (schema : Json) {error : TypingError}
    (hstate : state.Coherent)
    (hfails : (property subject path name schema).run.run state = (.error error, left)) :
    (((property subject path name schema).run.run .empty).2.seen = [] ∧ left = state) ∨
      (((property subject path name schema).run.run .empty).2.seen ≠ [] ∧
        Linked subject.resource path left) := by
  obtain ⟨error?, hcourse⟩ := course_property subject path name schema
  have h := hcourse []
  generalize property subject path name schema = m at h hfails ⊢
  cases h with
  | value p => cases hfails
  | error e =>
    cases hfails
    exact Or.inl ⟨rfl, rfl⟩
  | record _ _ hlinks =>
    refine Or.inr ⟨fun hnone => ?_, (hlinks state hstate).of_run_error hfails⟩
    obtain ⟨use, _, _, hseen⟩ := hlinks.linked (progress_empty subject.resource).coherent
    rw [hnone] at hseen
    exact List.not_mem_nil hseen

/-- A property that has no type does leave something behind. Everything that was there before it
stays, and the definitions and uses behind that show all that has come. If no record has been met,
which does not depend on the state, the state is as it was, and so is all that is typed later.
Otherwise the resource uses a definition by way of the property that it does not have. What is
typed later may have other names, but it fails or not as it would have, with the same error. -/
theorem property_failure (path name : String) (schema : Json) {error : TypingError}
    (hstate : Progress base first subject.resource state)
    (hfails : (property subject path name schema).run.run state = (.error error, left)) :
    error.isFatal = false ∧ Added subject.resource path state left ∧
    (left.database.typeDefinitions = state.database.typeDefinitions →
      left.database.usesType = state.database.usesType → left = state) ∧
    (((property subject path name schema).run.run .empty).2.seen = [] → left = state) ∧
    (((property subject path name schema).run.run .empty).2.seen ≠ [] →
      Linked subject.resource path left) ∧
    ∀ later hint other e,
      (∃ after, (property subject later hint other).run.run left = (.error e, after)) ↔
        ∃ after, (property subject later hint other).run.run state = (.error e, after) := by
  have hadded := (adds_property subject path name schema state hstate.coherent).of_run_error hfails
  obtain ⟨hleft, _, hfatal⟩ :=
    (keeps_property subject path name schema [] state hstate (List.nil_subset _)).of_run_error hfails
  refine ⟨hfatal, hadded, hadded.eq_of_same, fun hnone => ?_, fun hmet => ?_,
    fun later hint other e => ?_⟩
  · rcases unchanged_or_linked path name schema hstate.coherent hfails with h | h
    · exact h.2
    · exact absurd hnone h.1
  · rcases unchanged_or_linked path name schema hstate.coherent hfails with h | h
    · exact absurd h.1 hmet
    · exact h.2
  · obtain ⟨error?, hiff⟩ := exists_fails_iff subject later hint other
    exact (hiff hleft e).trans (hiff hstate e).symm

/-- The resource has no property `P`, but it uses the definition `P` by way of it. -/
theorem property_failure_recordOrTuple : ∃ left id,
    (property ⟨⟨0⟩, .obj []⟩ "P" "P" recordOrTuple).run.run .empty =
        (.error (.unsupported "P" "type 'tuple'"), left) ∧
      left.database.typeDefinitions.all = [⟨id, TypeDefinition.ofName "P"⟩] ∧
      Linked ⟨0⟩ "P" left := by
  obtain ⟨left, fingerprint, id, hrun, hseen, hall⟩ := exists_property_recordOrTuple
  have hmet : ((property ⟨⟨0⟩, .obj []⟩ "P" "P" recordOrTuple).run.run .empty).2.seen ≠ [] := by
    rw [hrun, hseen]
    exact List.cons_ne_nil _ _
  obtain ⟨_, _, _, _, hlinked, _⟩ :=
    property_failure "P" "P" recordOrTuple (progress_empty ⟨0⟩) hrun
  exact ⟨left, id, hrun, hall, hlinked hmet⟩

end Typing

end ResourceCatalog
