import Mathlib
import ResourceCatalog.Import.Builder
import ResourceCatalog.Proofs.Catalog.Upserts

/-!
# What typing adds to a database

While a resource is typed, definitions are made and the resource is noted to use each of them.
`Typing.Progress` says that nothing else happens: the definitions made so far are those that are
seen, they mention only each other, and they are what the resource uses beyond what it used before.
`Typing.Keeps` is the judgement that a computation keeps this. It is relative to definitions that
are known to be seen and says of the result which definitions it mentions; every rule of typing has
one lemma. No computation that keeps it fails with an error of the graph.
-/

namespace ResourceCatalog

/-- The definitions that have been made for a resource. -/
def TypingState.found (state : TypingState) : List Identity := state.seen.map Prod.snd

namespace Typing

/-- What has been added to a database while a resource is typed. -/
structure Progress (base : Database) (first : Supply) (resource : Identity)
    (state : TypingState) : Prop where
  kept : state.database = { base with
    typeDefinitions := state.database.typeDefinitions
    usesType := state.database.usesType }
  definitions : state.database.typeDefinitions.Holds state.supply
  uses : state.database.usesType.Coherent
  later : first.next ≤ state.supply.next
  fresh : ∀ id ∈ state.found, id ∉ base.typeDefinitions.ids
  old : ∀ d ∈ base.typeDefinitions.all, d ∈ state.database.typeDefinitions.all
  stored : ∀ d ∈ state.database.typeDefinitions.all, d ∈ base.typeDefinitions.all ∨
    d.id ∈ state.found ∧ PropertyMap.references d.entity.properties ⊆ state.found
  arranged : ∀ d ∈ state.database.typeDefinitions.all, d ∈ base.typeDefinitions.all ∨
    Keyed.Ascending d.entity.properties
  present : state.found ⊆ state.database.typeDefinitions.ids
  used : ∀ start target, state.database.usesType.Joins start target ↔
    base.usesType.Joins start target ∨ start = resource ∧ target ∈ state.found

/-- A state in which nothing has been typed yet. -/
theorem Progress.of_unseen (state : TypingState)
    (hdefinitions : state.database.typeDefinitions.Holds state.supply)
    (huses : state.database.usesType.Coherent) (hseen : state.found = []) (resource : Identity) :
    Progress state.database state.supply resource state where
  kept := rfl
  definitions := hdefinitions
  uses := huses
  later := le_rfl
  fresh id hid := by
    rw [hseen] at hid
    exact absurd hid List.not_mem_nil
  old _ hd := hd
  stored _ hd := Or.inl hd
  arranged _ hd := Or.inl hd
  present := by
    rw [hseen]
    exact List.nil_subset _
  used start target := by
    rw [hseen]
    exact ⟨Or.inl, fun hused => hused.resolve_right fun hnew => absurd hnew.2 List.not_mem_nil⟩

/-- The error is recorded where it can be. -/
def NotFatal (e : TypingError) : Prop := e.isFatal = false

/-- There is no error at all. -/
def NoError (_ : TypingError) : Prop := False

/-- A computation keeps the progress of typing, and what it returns is right for the definitions
that are seen then. -/
def Keeps (base : Database) (first : Supply) (resource : Identity) (err : TypingError → Prop)
    {α : Type} (known : List Identity) (m : Typing α) (post : α → List Identity → Prop) : Prop :=
  ∀ state, Progress base first resource state → known ⊆ state.found →
    Ends m state
      (fun a left => Progress base first resource left ∧ known ⊆ left.found ∧ post a left.found)
      (fun e left => Progress base first resource left ∧ known ⊆ left.found ∧ err e)

/-- A type mentions only definitions that are seen. -/
def TypeWithin (type : PropertyType) (found : List Identity) : Prop := type.references ⊆ found

/-- A property as typing makes it: its type mentions only definitions that are seen, and it has no
history. -/
def PropertyWithin (p : Property) (found : List Identity) : Prop :=
  p.type.references ⊆ found ∧ p.previousTypes = []

/-- Properties as typing makes them, in the order of their names. -/
structure PropertiesWithin (properties : PropertyMap) (found : List Identity) : Prop where
  within : ∀ entry ∈ properties, PropertyWithin entry.2 found
  ascending : Keyed.Ascending properties

theorem PropertyWithin.mono {p : Property} {found more : List Identity}
    (h : PropertyWithin p found) (hsub : found ⊆ more) : PropertyWithin p more :=
  ⟨List.Subset.trans h.1 hsub, h.2⟩

theorem PropertiesWithin.mono {properties : PropertyMap} {found more : List Identity}
    (h : PropertiesWithin properties found) (hsub : found ⊆ more) :
    PropertiesWithin properties more where
  within entry hentry := (h.within entry hentry).mono hsub
  ascending := h.ascending

theorem propertiesWithin_nil (found : List Identity) : PropertiesWithin [] found :=
  ⟨fun _ h => absurd h List.not_mem_nil, List.Pairwise.nil⟩

theorem PropertiesWithin.insert {name : String} {property : Property} {properties : PropertyMap}
    {found : List Identity} (h : PropertiesWithin properties found)
    (hproperty : PropertyWithin property found) :
    PropertiesWithin (Keyed.insert name property properties) found where
  within := by
    intro entry hentry
    rcases Keyed.mem_insert hentry with rfl | hentry
    · exact hproperty
    · exact h.within entry hentry
  ascending := Keyed.ascending_insert h.ascending _ _

theorem PropertiesWithin.references {properties : PropertyMap} {found : List Identity}
    (h : PropertiesWithin properties found) : PropertyMap.references properties ⊆ found := by
  intro id hid
  rw [PropertyMap.references, Keyed.values, List.mem_flatMap] at hid
  obtain ⟨p, hp, hid⟩ := hid
  obtain ⟨entry, hentry, rfl⟩ := List.mem_map.1 hp
  obtain ⟨htype, hprevious⟩ := h.within entry hentry
  rw [Property.references, hprevious, List.flatMap_nil, List.append_nil] at hid
  exact htype hid

variable {base : Database} {first : Supply} {resource : Identity}

/-! ### Rules of the judgement -/

section Rules

variable {α β : Type} {err : TypingError → Prop} {known : List Identity}
  {post : α → List Identity → Prop}

theorem Keeps.pure {a : α} (h : ∀ found, known ⊆ found → post a found) :
    Keeps base first resource err known (pure a) post :=
  fun _ hstate hknown => ends_pure.2 ⟨hstate, hknown, h _ hknown⟩

theorem keeps_pure_of_mem {id : Identity} (h : id ∈ known) :
    Keeps base first resource err known (Pure.pure id) (fun id found => id ∈ found) :=
  Keeps.pure fun _ hsub => hsub h

theorem Keeps.throw {e : TypingError} (h : err e) :
    Keeps base first resource err known (throw e : Typing α) post :=
  fun _ hstate hknown => ends_throw.2 ⟨hstate, hknown, h⟩

theorem Keeps.bind {m : Typing β} {f : β → Typing α} {middle : β → List Identity → Prop}
    (hm : Keeps base first resource err known m middle)
    (hf : ∀ b found, known ⊆ found → middle b found → Keeps base first resource err found (f b) post) :
    Keeps base first resource err known (m >>= f) post := by
  intro state hstate hknown
  refine ends_bind.2 ((hm state hstate hknown).mono (fun b left h => ?_) fun _ _ h => h)
  obtain ⟨hleft, hkept, hmiddle⟩ := h
  refine (hf b left.found hkept hmiddle left hleft (List.Subset.refl _)).mono ?_ ?_
  · exact fun a left' h => ⟨h.1, List.Subset.trans hkept h.2.1, h.2.2⟩
  · exact fun e left' h => ⟨h.1, List.Subset.trans hkept h.2.1, h.2.2⟩

theorem Keeps.imp {m : Typing α} {err' : TypingError → Prop} {post' : α → List Identity → Prop}
    (h : Keeps base first resource err known m post) (herr : ∀ e, err e → err' e)
    (hpost : ∀ a found, post a found → post' a found) :
    Keeps base first resource err' known m post' :=
  fun state hstate hknown => (h state hstate hknown).mono
    (fun a _ h => ⟨h.1, h.2.1, hpost a _ h.2.2⟩) fun e _ h => ⟨h.1, h.2.1, herr e h.2.2⟩

theorem Keeps.anyError {m : Typing α} (h : Keeps base first resource NoError known m post) :
    Keeps base first resource err known m post :=
  h.imp (fun _ hfalse => hfalse.elim) fun _ _ hpost => hpost

theorem Keeps.lift {ε : Type} {result : Except ε α} {wrap : ε → TypingError}
    (hwrap : ∀ e, err (wrap e)) :
    Keeps base first resource err known (liftM (result.mapError wrap) : Typing α)
      (fun _ _ => True) := by
  intro state hstate hknown
  rw [ends_lift]
  cases result with
  | ok a => exact ⟨hstate, hknown, trivial⟩
  | error e => exact ⟨hstate, hknown, hwrap e⟩

theorem Keeps.mapM {f : β → Typing α} (hf : ∀ b found,
    Keeps base first resource err found (f b) (fun _ _ => True)) (items : List β) :
    Keeps base first resource err known (items.mapM f) (fun _ _ => True) := by
  induction items generalizing known with
  | nil =>
    rw [List.mapM_nil]
    exact Keeps.pure fun _ _ => trivial
  | cons item rest ih =>
    rw [List.mapM_cons]
    exact (hf item known).bind fun _ _ _ _ => ih.bind fun _ _ _ _ => Keeps.pure fun _ _ => trivial

theorem keeps_resolve (subject : Subject) (schema : Json) :
    Keeps base first resource NotFatal known (resolve subject schema) (fun _ _ => True) :=
  Keeps.lift fun _ => rfl

theorem keeps_ofUnification (result : Except Schema.UnifyError α) :
    Keeps base first resource NotFatal known (ofUnification result) (fun _ _ => True) :=
  Keeps.lift fun _ => rfl

theorem keeps_render {type : PropertyType} (htype : type.references ⊆ known) :
    Keeps base first resource err known (render type) (fun _ _ => True) := by
  intro state hstate hknown
  obtain ⟨text, htext⟩ := Database.render_ok hstate.definitions.coherent
    (List.Subset.trans htype (List.Subset.trans hknown hstate.present))
  rw [render, ends_bind, ends_get, htext]
  exact ⟨hstate, hknown, trivial⟩

theorem keeps_recordFailure {path : String} {e : TypingError} (h : NotFatal e) :
    Keeps base first resource err known (recordFailure path e) (fun _ _ => True) := by
  intro state hstate hknown
  rw [NotFatal] at h
  rw [recordFailure, h]
  exact ⟨⟨hstate.kept, hstate.definitions, hstate.uses, hstate.later, hstate.fresh, hstate.old,
    hstate.stored, hstate.arranged, hstate.present, hstate.used⟩, hknown, trivial⟩

/-- A computation whose failure is recorded. -/
theorem Keeps.attempt {m : Typing α} (h : Keeps base first resource NotFatal known m post)
    (path : String) :
    Keeps base first resource err known
      (tryCatch (some <$> m) fun error => do
        recordFailure path error
        return none)
      (fun a? found => ∀ a, a? = some a → post a found) := by
  intro state hstate hknown
  rw [ends_tryCatch, ends_map]
  refine (h state hstate hknown).mono ?_ ?_
  · rintro a left ⟨hleft, hkept, hpost⟩
    exact ⟨hleft, hkept, fun b hb => Option.some.inj hb ▸ hpost⟩
  · rintro e left ⟨hleft, hkept, hfatal⟩
    have hrecord : Keeps base first resource err known (do recordFailure path e; return none)
        (fun a? found => ∀ a : α, a? = some a → post a found) :=
      (keeps_recordFailure hfatal).bind fun _ _ _ _ => Keeps.pure fun _ _ a ha => nomatch ha
    exact hrecord left hleft hkept

/-- A property that is tried before the others joins them if it has a type. -/
theorem Keeps.gather {m : Typing Property} {rest : Typing PropertyMap}
    (hm : Keeps base first resource NotFatal known m PropertyWithin)
    (hrest : ∀ known, Keeps base first resource NoError known rest PropertiesWithin)
    (path name : String) (adjust : Property → Property)
    (hadjust : ∀ {p found}, PropertyWithin p found → PropertyWithin (adjust p) found) :
    Keeps base first resource NoError known (do
      let found ← tryCatch (some <$> m) fun error => do
        recordFailure path error
        return none
      let others ← rest
      match found with
      | some property => return Keyed.insert name (adjust property) others
      | none => return others) PropertiesWithin := by
  refine (hm.attempt path).bind fun found seen _ hfound => ?_
  refine (hrest seen).bind fun others seen' hsub hothers => ?_
  cases found with
  | none => exact Keeps.pure fun _ hsub' => hothers.mono hsub'
  | some property =>
    refine Keeps.pure fun seen'' hsub' => (hothers.mono hsub').insert ?_
    exact hadjust ((hfound property rfl).mono (List.Subset.trans hsub hsub'))

end Rules

/-! ### Definitions -/

theorem Progress.addUse {subject : Subject} {state : TypingState}
    (h : Progress base first subject.resource state) {id : Identity} (hid : id ∈ state.found)
    (path : String) :
    Progress base first subject.resource { state with
      database := { state.database with
        usesType := state.database.usesType.add subject.resource id ⟨path⟩ } } where
  kept := by
    dsimp only
    rw [h.kept]
  definitions := h.definitions
  uses := h.uses.add _ _ _
  later := h.later
  fresh := h.fresh
  old := h.old
  stored := h.stored
  arranged := h.arranged
  present := h.present
  used := by
    intro start target
    rw [Edges.joins_add h.uses, h.used]
    refine ⟨fun hused => ?_, Or.inl⟩
    rcases hused with hused | ⟨rfl, rfl⟩
    · exact hused
    · exact Or.inr ⟨rfl, hid⟩

/-- A definition is made and used at once. -/
theorem Progress.start {subject : Subject} {state : TypingState}
    (h : Progress base first subject.resource state) (fingerprint name path : String) :
    Progress base first subject.resource {
      database := { state.database with
        typeDefinitions := state.database.typeDefinitions.append
          ⟨⟨state.supply.next⟩, TypeDefinition.ofName name⟩
        usesType := state.database.usesType.add subject.resource ⟨state.supply.next⟩ ⟨path⟩ }
      supply := ⟨state.supply.next + 1⟩
      seen := (fingerprint, ⟨state.supply.next⟩) :: state.seen
      names := name :: state.names
      failures := state.failures } where
  kept := by
    dsimp only
    rw [h.kept]
  definitions := h.definitions.append h.definitions.next_not_mem (Nat.le_succ _)
    (Nat.lt_succ_self _)
  uses := h.uses.add _ _ _
  later := Nat.le_succ_of_le h.later
  fresh := by
    intro id hid
    rcases List.mem_cons.1 hid with rfl | hid
    · intro hmem
      obtain ⟨d, hd, hsame⟩ := Collection.mem_ids.1 hmem
      exact h.definitions.next_not_mem (Collection.mem_ids.2 ⟨d, h.old d hd, hsame⟩)
    · exact h.fresh id hid
  old := by
    intro d hd
    rw [Collection.all_append]
    exact List.mem_append_left _ (h.old d hd)
  stored := by
    intro d hd
    rw [Collection.all_append, List.mem_append, List.mem_singleton] at hd
    rcases hd with hd | rfl
    · refine (h.stored d hd).imp_right fun hnew => ?_
      exact ⟨List.mem_cons_of_mem _ hnew.1, List.Subset.trans hnew.2 (List.subset_cons_self _ _)⟩
    · exact Or.inr ⟨List.mem_cons_self, List.nil_subset _⟩
  arranged := by
    intro d hd
    rw [Collection.all_append, List.mem_append, List.mem_singleton] at hd
    rcases hd with hd | rfl
    · exact h.arranged d hd
    · exact Or.inr List.Pairwise.nil
  present := by
    intro id hid
    rw [Collection.ids_append, List.mem_append, List.mem_singleton]
    rcases List.mem_cons.1 hid with rfl | hid
    · exact Or.inr rfl
    · exact Or.inl (h.present hid)
  used := by
    intro start target
    change _ ↔ _ ∨ start = subject.resource ∧ target ∈ ⟨state.supply.next⟩ :: state.found
    rw [Edges.joins_add h.uses, h.used, List.mem_cons]
    tauto

theorem keeps_finishDefinition {err : TypingError → Prop} {known : List Identity} {id : Identity} (hid : id ∈ known)
    (documentation : Option String) {properties : PropertyMap}
    (hproperties : PropertiesWithin properties known) :
    Keeps base first resource err known (finishDefinition id documentation properties)
      (fun _ _ => True) := by
  intro state h hknown
  obtain ⟨c, hc, hcoherent, hall⟩ := Collection.update_eq_ok h.definitions.coherent
    (h.present (hknown hid)) fun definition : TypeDefinition =>
      { definition with documentation, properties }
  have hids : c.ids = state.database.typeDefinitions.ids := Collection.ids_replaced hall
  rw [finishDefinition, ends_bind, ends_get, hc]
  refine ⟨?_, hknown, trivial⟩
  exact {
    kept := by
      dsimp only
      rw [h.kept]
    definitions := ⟨hcoherent, hids ▸ h.definitions.taken⟩
    uses := h.uses
    later := h.later
    fresh := h.fresh
    old := by
      intro d hd
      have hne : d.id ≠ id := fun hsame =>
        h.fresh id (hknown hid) (Collection.mem_ids.2 ⟨d, hd, hsame⟩)
      change d ∈ c.all
      rw [hall, List.mem_map]
      exact ⟨d, h.old d hd, if_neg hne⟩
    stored := by
      intro d hd
      change d ∈ c.all at hd
      rw [hall, List.mem_map] at hd
      obtain ⟨before, hbefore, rfl⟩ := hd
      split
      · exact Or.inr ⟨hknown hid, List.Subset.trans hproperties.references hknown⟩
      · exact h.stored before hbefore
    arranged := by
      intro d hd
      change d ∈ c.all at hd
      rw [hall, List.mem_map] at hd
      obtain ⟨before, hbefore, rfl⟩ := hd
      split
      · exact Or.inr hproperties.ascending
      · exact h.arranged before hbefore
    present := by
      change state.found ⊆ c.ids
      rw [hids]
      exact h.present
    used := h.used }

/-! ### Rules by way of the rules one level further in -/

/-- The rules one level further in keep the progress of typing. -/
def InnerKeeps (base : Database) (first : Supply) (resource : Identity)
    (inner : String → String → Schema.Resolved → Typing PropertyType) : Prop :=
  ∀ path hint resolved known,
    Keeps base first resource NotFatal known (inner path hint resolved) TypeWithin

section Level

variable {inner : String → String → Schema.Resolved → Typing PropertyType} {subject : Subject}

theorem keeps_typeInner (hinner : InnerKeeps base first subject.resource inner)
    (known : List Identity) (path hint : String) (schema : Json) :
    Keeps base first subject.resource NotFatal known (typeInner inner subject path hint schema)
      TypeWithin :=
  (keeps_resolve subject schema).bind fun resolved found _ _ => hinner path hint resolved found

theorem keeps_propertyOf (hinner : InnerKeeps base first subject.resource inner)
    (known : List Identity) (path name : String) (schema : Json) :
    Keeps base first subject.resource NotFatal known (propertyOf inner subject path name schema)
      PropertyWithin := by
  refine (keeps_resolve subject schema).bind fun resolved found _ _ => ?_
  refine (hinner path name resolved found).bind fun type found' _ htype => ?_
  exact Keeps.pure fun found'' hsub => ⟨List.Subset.trans htype hsub, rfl⟩

theorem keeps_propertiesOf (hinner : InnerKeeps base first subject.resource inner)
    (known : List Identity) (path : String) (required : List String)
    (members : Members) :
    Keeps base first subject.resource NoError known (propertiesOf inner subject path required members)
      PropertiesWithin := by
  induction members generalizing known with
  | nil => exact Keeps.pure fun found _ => propertiesWithin_nil found
  | cons member rest ih =>
    obtain ⟨name, schema⟩ := member
    exact (keeps_propertyOf hinner known _ name schema).gather ih _ name
      (fun property => { property with required := required.contains name }) id

theorem keeps_declaredProperties (hinner : InnerKeeps base first subject.resource inner)
    (known : List Identity) (path : String) (schema : Json)
    (excluded : List String) :
    Keeps base first subject.resource NoError known
      (declaredProperties inner subject path schema excluded) PropertiesWithin :=
  keeps_propertiesOf hinner known path _ _

theorem keeps_definitionOf (hinner : InnerKeeps base first subject.resource inner)
    (known : List Identity) (path name : String) (schema : Json) :
    Keeps base first subject.resource NoError known (definitionOf inner subject path name schema)
      (fun id found => id ∈ found) := by
  intro state h hknown
  rw [definitionOf, ends_bind, ends_get]
  dsimp only
  split
  case h_1 id hseen =>
    have hid : id ∈ state.found := by
      obtain ⟨before, behind, hsplit, _⟩ := List.lookup_eq_some_iff.1 hseen
      rw [TypingState.found, hsplit, List.map_append, List.map_cons]
      exact List.mem_append_right _ List.mem_cons_self
    exact ⟨h.addUse hid path, hknown, hid⟩
  case h_2 =>
    have hstart := h.start (Schema.fingerprint schema) (freeName state.names name) path
    have hrest := (keeps_declaredProperties hinner _ path schema []).bind
      (fun properties found hsub hproperties =>
        (keeps_finishDefinition (hsub List.mem_cons_self) (documentation? schema)
          hproperties).bind fun _ found' hsub' _ =>
            keeps_pure_of_mem (hsub' (hsub List.mem_cons_self))) _ hstart (List.Subset.refl _)
    exact hrest.mono (fun id left hleft => ⟨hleft.1, List.Subset.trans hknown
      (List.Subset.trans (List.subset_cons_self _ _) hleft.2.1), hleft.2.2⟩) fun e left hleft =>
        ⟨hleft.1, List.Subset.trans hknown
          (List.Subset.trans (List.subset_cons_self _ _) hleft.2.1), hleft.2.2⟩

theorem keeps_typeOfValues (hinner : InnerKeeps base first subject.resource inner)
    (known : List Identity) (path name : String) (values : List Json) :
    Keeps base first subject.resource NotFatal known (typeOfValues inner subject path name values)
      TypeWithin := by
  unfold typeOfValues
  split
  · exact keeps_typeInner hinner known path name _
  · refine (Keeps.mapM (fun schema found => keeps_resolve subject schema) _).bind
      fun resolved found _ _ => ?_
    exact (keeps_ofUnification _).bind fun unified found' _ _ =>
      keeps_typeInner hinner found' path _ unified

theorem keeps_typeOfObject (hinner : InnerKeeps base first subject.resource inner)
    (known : List Identity) (path name : String) (schema : Json) :
    Keeps base first subject.resource NotFatal known (typeOfObject inner subject path name schema)
      TypeWithin := by
  rw [typeOfObject]
  split
  · refine (keeps_definitionOf hinner known path name schema).anyError.bind fun id found _ hid => ?_
    exact Keeps.pure fun _ hsub _ hmem => List.mem_singleton.1 hmem ▸ hsub hid
  · split
    · refine (keeps_typeOfValues hinner known path name _).bind fun type found _ htype => ?_
      exact Keeps.pure fun _ hsub => List.Subset.trans htype hsub
    · exact Keeps.pure fun _ _ => List.nil_subset _

theorem keeps_plain {known : List Identity} {type : PropertyType} (h : type.references = []) :
    Keeps base first subject.resource NotFatal known (Pure.pure type) TypeWithin :=
  Keeps.pure fun found _ => by
    rw [TypeWithin, h]
    exact List.nil_subset found

theorem keeps_typeOfConcrete (hinner : InnerKeeps base first subject.resource inner)
    (known : List Identity) (path name : String) (schema : Json) :
    Keeps base first subject.resource NotFatal known (typeOfConcrete inner subject path name schema)
      TypeWithin := by
  have hobject := keeps_typeOfObject hinner known path name schema
  rw [typeOfConcrete]
  split
  · split
    · split
      · exact keeps_plain rfl
      · exact keeps_plain rfl
    · exact keeps_plain rfl
    · exact keeps_plain rfl
    · exact keeps_plain rfl
    · exact keeps_plain rfl
    · exact hobject
    · exact Keeps.throw rfl
  · exact Keeps.throw rfl
  · split
    · exact hobject
    · split
      · exact keeps_plain rfl
      · split
        · exact keeps_plain rfl
        · exact Keeps.throw rfl

theorem keeps_typeOfAll (hinner : InnerKeeps base first subject.resource inner)
    (known : List Identity) (path hint : String)
    (branches : List Schema.Resolved) :
    Keeps base first subject.resource NotFatal known (typeOfAll inner subject path hint branches)
      TypeWithin :=
  (keeps_ofUnification _).bind fun unified found _ _ =>
    keeps_typeInner hinner found path _ unified

theorem keeps_unionOf {known : List Identity} (path : String) {types : List PropertyType}
    (h : PropertyType.referencesOfAll types ⊆ known) :
    Keeps base first subject.resource NotFatal known (typeOf.unionOf path types) TypeWithin := by
  unfold typeOf.unionOf
  split
  · exact Keeps.throw rfl
  · refine Keeps.pure fun found hsub => ?_
    rw [PropertyType.referencesOfAll, PropertyType.referencesOfAll, List.append_nil] at h
    exact List.Subset.trans h hsub
  · exact Keeps.pure fun found hsub => List.Subset.trans h hsub

mutual

theorem keeps_typeOf (hinner : InnerKeeps base first subject.resource inner)
    (known : List Identity) (path hint : String) (resolved : Schema.Resolved) :
    Keeps base first subject.resource NotFatal known (typeOf inner subject path hint resolved)
      TypeWithin := by
  cases resolved with
  | concrete schema name => exact keeps_typeOfConcrete hinner known path _ schema
  | array schema name items =>
    cases items with
    | none => exact keeps_plain rfl
    | some items =>
      rw [typeOf]
      refine (keeps_typeOf hinner known path hint items).bind fun type found _ htype => ?_
      exact Keeps.pure fun _ hsub => List.Subset.trans htype hsub
  | combined schema name op branches =>
    cases op with
    | allOf =>
      rw [typeOf]
      split
      · exact keeps_plain rfl
      · exact keeps_typeOfConstrained hinner known path hint branches
      · exact keeps_typeOfAll hinner known path hint _
    | anyOf =>
      rw [typeOf]
      exact (keeps_typesOf hinner known path hint [] branches).bind fun types found _ htypes =>
        keeps_unionOf path htypes
    | oneOf =>
      rw [typeOf]
      exact (keeps_typesOf hinner known path hint [] branches).bind fun types found _ htypes =>
        keeps_unionOf path htypes

theorem keeps_typeOfConstrained (hinner : InnerKeeps base first subject.resource inner)
    (known : List Identity) (path hint : String)
    (branches : List Schema.Resolved) :
    Keeps base first subject.resource NotFatal known
      (typeOfConstrained inner subject path hint branches) TypeWithin := by
  cases branches with
  | nil => exact keeps_plain rfl
  | cons branch rest =>
    rw [typeOfConstrained]
    split
    · exact keeps_typeOf hinner known path hint branch
    · exact keeps_typeOfConstrained hinner known path hint rest

theorem keeps_typesOf (hinner : InnerKeeps base first subject.resource inner)
    (known : List Identity) (path hint : String) (texts : List String)
    (branches : List Schema.Resolved) :
    Keeps base first subject.resource NotFatal known (typesOf inner subject path hint texts branches)
      (fun types found => PropertyType.referencesOfAll types ⊆ found) := by
  cases branches with
  | nil => exact Keeps.pure fun _ _ => List.nil_subset _
  | cons branch rest =>
    rw [typesOf]
    refine (keeps_typeOf hinner known path hint branch).bind fun type found _ htype => ?_
    refine (keeps_render htype).bind fun text found' hsub _ => ?_
    split
    · exact keeps_typesOf hinner found' path hint texts rest
    · refine (keeps_typesOf hinner found' path hint (text :: texts) rest).bind
        fun types found'' hsub' htypes => ?_
      refine Keeps.pure fun found''' hsub'' => ?_
      rw [PropertyType.referencesOfAll]
      exact List.append_subset.2 ⟨List.Subset.trans htype (List.Subset.trans hsub
        (List.Subset.trans hsub' hsub'')), List.Subset.trans htypes hsub''⟩

end

end Level

/-! ### Typing a document -/

theorem keeps_typeWithin (subject : Subject) (levels : Nat) (path hint : String)
    (resolved : Schema.Resolved) (known : List Identity) :
    Keeps base first subject.resource NotFatal known (typeWithin subject levels path hint resolved)
      TypeWithin := by
  induction levels generalizing path hint resolved known with
  | zero => exact Keeps.throw rfl
  | succ levels ih => exact keeps_typeOf ih known path hint resolved

theorem keeps_attributeSchema (known : List Identity) (subject : Subject) (name : String)
    (schema : Json) (segments : List String) :
    Keeps base first subject.resource NotFatal known (attributeSchema subject name schema segments)
      (fun _ _ => True) := by
  induction segments generalizing known schema with
  | nil => exact Keeps.throw rfl
  | cons segment rest ih =>
    rw [attributeSchema]
    split
    · exact Keeps.throw rfl
    · split
      · exact Keeps.pure fun _ _ => trivial
      · exact (keeps_resolve subject _).bind fun resolved found _ _ => ih found resolved.schema

/-- An attribute is typed by the schema that its name leads to. -/
theorem keeps_attribute (known : List Identity) (subject : Subject) (name hint : String)
    (schema : Json) (segments : List String) :
    Keeps base first subject.resource NotFatal known (do
      let schema ← attributeSchema subject name schema segments
      Typing.property subject name hint schema) PropertyWithin :=
  (keeps_attributeSchema known subject name _ _).bind fun schema found _ _ =>
    keeps_propertyOf (fun path hint resolved known =>
      keeps_typeWithin subject _ path hint resolved known) found _ _ schema

theorem keeps_attributesOf (known : List Identity) (subject : Subject) (names : List String) :
    Keeps base first subject.resource NoError known (attributesOf subject names) PropertiesWithin := by
  induction names generalizing known with
  | nil => exact Keeps.pure fun found _ => propertiesWithin_nil found
  | cons name rest ih =>
    rw [attributesOf]
    exact (keeps_attribute known subject name _ _ _).gather ih name name id id

end Typing

end ResourceCatalog
