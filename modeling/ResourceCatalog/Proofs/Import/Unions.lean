import Mathlib
import ResourceCatalog.Proofs.Catalog.Unions
import ResourceCatalog.Proofs.Import.Additions
import ResourceCatalog.Proofs.Import.Runs

/-!
# Unions in a catalog

Typing compares the branches of `anyOf` and `oneOf` by their texts and leaves out those whose text
has been seen, so a union lists no type twice. The texts are those of the moment, but a definition
keeps its name as long as it is there. `Typing.Joins` is the judgement that a computation keeps all
stored types well joined. It is relative to the names that are known, which only become more.

An import keeps the names of the definitions that are still mentioned after it, so it keeps all
types well joined, and so does every run from the empty database. A union that is a branch of
another is listed there as one type: flattened, the two may well list a type twice.
-/

namespace ResourceCatalog

/-- All stored types are well joined, and the definitions are in order. -/
structure TypingState.Joined (state : TypingState) : Prop extends state.Coherent where
  joined : ∀ d ∈ state.database.typeDefinitions.all,
    WellJoinedAll state.database.typeName (Keyed.values d.entity.properties)

namespace Typing

/-- A computation keeps all stored types well joined and all names, and what it returns is right for
the names that there are then. -/
def Joins (known : Naming) {α : Type} (m : Typing α) (post : α → Naming → Prop) : Prop :=
  ∀ state : TypingState, state.Joined → known.Extends state.database.typeName →
    Ends m state
      (fun a left => left.Joined ∧ known.Extends left.database.typeName ∧
        post a left.database.typeName)
      (fun _ left => left.Joined ∧ known.Extends left.database.typeName)

/-! ### Rules of the judgement -/

section Rules

variable {α β : Type} {known : Naming} {post : α → Naming → Prop}

theorem Joins.pure {a : α} (h : ∀ names, known.Extends names → post a names) :
    Joins known (Pure.pure a) post :=
  fun _ hstate hknown => ends_pure.2 ⟨hstate, hknown, h _ hknown⟩

theorem joins_throw (e : TypingError) : Joins known (throw e : Typing α) post :=
  fun _ hstate hknown => ends_throw.2 ⟨hstate, hknown⟩

theorem Joins.bind {m : Typing β} {f : β → Typing α} {middle : β → Naming → Prop}
    (hm : Joins known m middle)
    (hf : ∀ b names, known.Extends names → middle b names → Joins names (f b) post) :
    Joins known (m >>= f) post := by
  intro state hstate hknown
  refine ends_bind.2 ((hm state hstate hknown).mono (fun b left h => ?_) fun _ _ h => h)
  obtain ⟨hleft, hkept, hmiddle⟩ := h
  refine (hf b _ hkept hmiddle left hleft (Naming.Extends.refl _)).mono ?_ ?_
  · exact fun _ _ h => ⟨h.1, hkept.trans h.2.1, h.2.2⟩
  · exact fun _ _ h => ⟨h.1, hkept.trans h.2⟩

theorem joins_lift (result : Except TypingError α) :
    Joins known (liftM result : Typing α) (fun _ _ => True) := by
  intro state hstate hknown
  rw [ends_lift]
  cases result with
  | ok a => exact ⟨hstate, hknown, trivial⟩
  | error e => exact ⟨hstate, hknown⟩

theorem joins_mapM {f : β → Typing α} (hf : ∀ b names, Joins names (f b) (fun _ _ => True))
    (items : List β) : Joins known (items.mapM f) (fun _ _ => True) := by
  induction items generalizing known with
  | nil =>
    rw [List.mapM_nil]
    exact Joins.pure fun _ _ => trivial
  | cons item rest ih =>
    rw [List.mapM_cons]
    exact (hf item known).bind fun _ _ _ _ => ih.bind fun _ _ _ _ => Joins.pure fun _ _ => trivial

/-- The text that a type is given is the one it has for the names that are there. -/
theorem joins_render (type : PropertyType) :
    Joins known (render type) (fun text names => type.render names = .ok text) := by
  intro state hstate hknown
  rw [render, ends_bind, ends_get, ofGraph, ends_lift]
  cases htext : state.database.render type with
  | ok text => exact ⟨hstate, hknown, htext⟩
  | error e => exact ⟨hstate, hknown⟩

theorem joins_recordFailure (path : String) (e : TypingError) :
    Joins known (recordFailure path e) (fun _ _ => True) := by
  intro state hstate hknown
  rw [recordFailure]
  split
  · exact ⟨hstate, hknown⟩
  · exact ⟨⟨⟨hstate.definitions, hstate.uses⟩, hstate.joined⟩, hknown, trivial⟩

/-- A computation whose failure is recorded. -/
theorem Joins.attempt {m : Typing α} (h : Joins known m post) (path : String) :
    Joins known
      (tryCatch (some <$> m) fun error => do
        recordFailure path error
        return none)
      (fun a? names => ∀ a, a? = some a → post a names) := by
  intro state hstate hknown
  rw [ends_tryCatch, ends_map]
  refine (h state hstate hknown).mono ?_ ?_
  · rintro a left ⟨hleft, hkept, hpost⟩
    exact ⟨hleft, hkept, fun b hb => Option.some.inj hb ▸ hpost⟩
  · rintro e left ⟨hleft, hkept⟩
    have hrecord : Joins known (do recordFailure path e; return none)
        (fun a? names => ∀ a : α, a? = some a → post a names) :=
      (joins_recordFailure path e).bind fun _ _ _ _ => Joins.pure fun _ _ a ha => nomatch ha
    exact hrecord left hleft hkept

end Rules

/-! ### Definitions -/

variable {known : Naming}

theorem joins_addUse (subject : Subject) (id : Identity) (path : String) :
    Joins known (addUse subject id path) (fun _ _ => True) :=
  fun _ hstate hknown =>
    ⟨⟨hstate.toCoherent.withUse subject.resource id path, hstate.joined⟩, hknown, trivial⟩

/-- A definition that is taken in has a name and no properties. -/
theorem joins_startDefinition (fingerprint name : String) :
    Joins known (startDefinition fingerprint name)
      (fun id names => ∃ name, names id = .ok name) := by
  intro state hstate hknown
  let after := state.withDefinition fingerprint (freeName state.names name)
  let made : Record TypeDefinition :=
    ⟨⟨state.supply.next⟩, TypeDefinition.ofName (freeName state.names name)⟩
  have hafter : after.Coherent := hstate.toCoherent.withDefinition _ _
  have hall : after.database.typeDefinitions.all = state.database.typeDefinitions.all ++ [made] :=
    Collection.all_append _ _
  have hnames : Naming.Extends state.database.typeName after.database.typeName :=
    Database.extends_typeName hstate.definitions.coherent hafter.definitions.coherent fun d hd =>
      ⟨d, hall ▸ List.mem_append_left _ hd, rfl, rfl⟩
  change after.Joined ∧ known.Extends after.database.typeName ∧
    ∃ name, after.database.typeName made.id = .ok name
  refine ⟨⟨hafter, fun d hd => ?_⟩, hknown.trans hnames, _,
    (Database.typeName_eq_ok_iff hafter.definitions.coherent).2 ⟨made, ?_, rfl, rfl⟩⟩
  · rw [hall, List.mem_append, List.mem_singleton] at hd
    rcases hd with hd | rfl
    · exact fun p hp type htype => (hstate.joined d hd p hp type htype).extend hnames
    · exact fun p hp => absurd hp List.not_mem_nil
  · rw [hall]
    exact List.mem_append_right _ (List.mem_singleton_self _)

theorem joins_finishDefinition {id : Identity} (hid : ∃ name, known id = .ok name)
    (documentation : Option String) {properties : PropertyMap}
    (hproperties : WellJoinedAll known (Keyed.values properties)) :
    Joins known (finishDefinition id documentation properties) (fun _ _ => True) := by
  intro state hstate hknown
  obtain ⟨name, hname⟩ := hid
  obtain ⟨named, hnamed, hsame, -⟩ :=
    (Database.typeName_eq_ok_iff hstate.definitions.coherent).1 (hknown id name hname)
  obtain ⟨c, hc, hcoherent, hall⟩ := Collection.update_eq_ok hstate.definitions.coherent
    (Collection.mem_ids.2 ⟨named, hnamed, hsame⟩) fun definition : TypeDefinition =>
      { definition with documentation, properties }
  have hids : c.ids = state.database.typeDefinitions.ids := Collection.ids_replaced hall
  have hnames : Naming.Extends state.database.typeName
      ({ state.database with typeDefinitions := c } : Database).typeName := by
    refine Database.extends_typeName hstate.definitions.coherent hcoherent fun d hd => ?_
    change ∃ d' ∈ c.all, _
    rw [hall]
    refine ⟨_, List.mem_map_of_mem hd, ?_⟩
    split
    · next hid => exact ⟨hid.symm, rfl⟩
    · exact ⟨rfl, rfl⟩
  rw [finishDefinition, ends_bind, ends_get, hc]
  refine ⟨⟨⟨⟨hcoherent, hids ▸ hstate.definitions.taken⟩, hstate.uses⟩, fun d hd => ?_⟩,
    hknown.trans hnames, trivial⟩
  change d ∈ c.all at hd
  rw [hall, List.mem_map] at hd
  obtain ⟨before, hbefore, rfl⟩ := hd
  split
  · exact fun p hp type htype =>
      (hproperties p hp type htype).extend (hknown.trans hnames)
  · exact fun p hp type htype => (hstate.joined before hbefore p hp type htype).extend hnames

/-! ### Rules by way of the rules one level further in -/

/-- The type that is returned is well joined. -/
def TypeJoined (type : PropertyType) (names : Naming) : Prop := type.WellJoined names

/-- All types of the property that is returned are well joined. -/
def PropertyJoined (p : Property) (names : Naming) : Prop :=
  ∀ type ∈ p.types, type.WellJoined names

/-- So are those of several properties. -/
def PropertiesJoined (properties : PropertyMap) (names : Naming) : Prop :=
  WellJoinedAll names (Keyed.values properties)

theorem PropertyJoined.extend {p : Property} {names more : Naming} (h : PropertyJoined p names)
    (hmore : names.Extends more) : PropertyJoined p more :=
  fun type htype => (h type htype).extend hmore

theorem propertiesJoined_nil (names : Naming) : PropertiesJoined [] names :=
  fun _ h => absurd h List.not_mem_nil

theorem PropertiesJoined.insert {names : Naming} {properties : PropertyMap} {name : String}
    {p : Property} (h : PropertiesJoined properties names) (hp : PropertyJoined p names) :
    PropertiesJoined (Keyed.insert name p properties) names := by
  intro q hq
  obtain ⟨entry, hentry, rfl⟩ := List.mem_map.1 hq
  rcases Keyed.mem_insert hentry with rfl | hentry
  · exact hp
  · exact h _ (List.mem_map_of_mem hentry)

/-- A property that is tried before the others joins them if it has a type. -/
theorem Joins.gather {m : Typing Property} {rest : Typing PropertyMap}
    (hm : Joins known m PropertyJoined) (hrest : ∀ known, Joins known rest PropertiesJoined)
    (path name : String) (adjust : Property → Property)
    (hadjust : ∀ {p names}, PropertyJoined p names → PropertyJoined (adjust p) names) :
    Joins known (do
      let found ← tryCatch (some <$> m) fun error => do
        recordFailure path error
        return none
      let others ← rest
      match found with
      | some property => return Keyed.insert name (adjust property) others
      | none => return others) PropertiesJoined := by
  refine (hm.attempt path).bind fun found names _ hfound => ?_
  refine (hrest names).bind fun others names' hnames hothers => ?_
  cases found with
  | none => exact Joins.pure fun _ hnames' => WellJoinedAll.extend hothers hnames'
  | some property =>
    refine Joins.pure fun names'' hnames' =>
      PropertiesJoined.insert (WellJoinedAll.extend hothers hnames') ?_
    exact hadjust ((hfound property rfl).extend (hnames.trans hnames'))

/-- The rules one level further in return well joined types. -/
def InnerJoins (inner : String → String → Schema.Resolved → Typing PropertyType) : Prop :=
  ∀ path hint resolved known, Joins known (inner path hint resolved) TypeJoined

section Level

variable {inner : String → String → Schema.Resolved → Typing PropertyType} {subject : Subject}

theorem joins_typeInner (hinner : InnerJoins inner) (path hint : String) (schema : Json) :
    Joins known (typeInner inner subject path hint schema) TypeJoined :=
  (joins_lift _).bind fun resolved names _ _ => hinner path hint resolved names

theorem joins_propertyOf (hinner : InnerJoins inner) (path name : String) (schema : Json) :
    Joins known (propertyOf inner subject path name schema) PropertyJoined := by
  refine (joins_lift _).bind fun resolved names _ _ => ?_
  refine (hinner path name resolved names).bind fun type names' _ htype => ?_
  exact Joins.pure fun names'' hnames other hother =>
    List.mem_singleton.1 hother ▸ htype.extend hnames

theorem joins_propertiesOf (hinner : InnerJoins inner) (path : String) (required : List String)
    (members : Members) :
    Joins known (propertiesOf inner subject path required members) PropertiesJoined := by
  induction members generalizing known with
  | nil => exact Joins.pure fun names _ => propertiesJoined_nil names
  | cons member rest ih =>
    obtain ⟨name, schema⟩ := member
    exact (joins_propertyOf hinner _ name schema).gather (fun _ => ih) _ name
      (fun property => { property with required := required.contains name }) id

theorem joins_definitionOf (hinner : InnerJoins inner) (path name : String) (schema : Json) :
    Joins known (definitionOf inner subject path name schema) (fun _ _ => True) := by
  intro state hstate hknown
  rw [definitionOf, ends_bind, ends_get]
  split
  case h_1 id hseen =>
    have hused : Joins known (do addUse subject id path; return id) (fun _ _ => True) :=
      (joins_addUse subject id path).bind fun _ _ _ _ => Joins.pure fun _ _ => trivial
    exact hused state hstate hknown
  case h_2 =>
    have hmade : Joins known (do
        let id ← startDefinition (Schema.fingerprint schema) name
        addUse subject id path
        let properties ← declaredProperties inner subject path schema []
        finishDefinition id (documentation? schema) properties
        return id) (fun _ _ => True) := ?_
    · exact hmade state hstate hknown
    refine (joins_startDefinition _ name).bind fun id names _ hid => ?_
    refine (joins_addUse subject id path).bind fun _ names' hnames _ => ?_
    refine (joins_propertiesOf hinner path _ _).bind fun properties names'' hnames' hproperties => ?_
    obtain ⟨name, hname⟩ := hid
    exact (joins_finishDefinition ⟨name, hnames' id name (hnames id name hname)⟩ _
      hproperties).bind fun _ _ _ _ => Joins.pure fun _ _ => trivial

theorem joins_typeOfValues (hinner : InnerJoins inner) (path name : String) (values : List Json) :
    Joins known (typeOfValues inner subject path name values) TypeJoined := by
  unfold typeOfValues
  split
  · exact joins_typeInner hinner path name _
  · refine (joins_mapM (fun schema names => joins_lift _) _).bind fun resolved names _ _ => ?_
    exact (joins_lift _).bind fun unified names' _ _ => joins_typeInner hinner path _ unified

theorem joins_plain {type : PropertyType} (h : type.unions = []) :
    Joins known (Pure.pure type) TypeJoined :=
  Joins.pure fun _ _ => PropertyType.wellJoined_of_unions h

theorem joins_typeOfObject (hinner : InnerJoins inner) (path name : String) (schema : Json) :
    Joins known (typeOfObject inner subject path name schema) TypeJoined := by
  rw [typeOfObject]
  split
  · exact (joins_definitionOf hinner path name schema).bind fun id _ _ _ =>
      joins_plain rfl
  · split
    · exact (joins_typeOfValues hinner path name _).bind fun type _ _ htype =>
        Joins.pure fun _ hnames => (PropertyType.WellJoined.extend htype hnames).map
    · exact joins_plain rfl

theorem joins_typeOfConcrete (hinner : InnerJoins inner) (path name : String) (schema : Json) :
    Joins known (typeOfConcrete inner subject path name schema) TypeJoined := by
  have hobject : Joins known (typeOfObject inner subject path name schema) TypeJoined :=
    joins_typeOfObject hinner path name schema
  rw [typeOfConcrete]
  repeat' split
  all_goals
    first
    | exact hobject
    | exact joins_plain rfl
    | exact joins_throw _

/-- Well joined types, each with a text of its own that has not been seen. -/
def TypesJoined (seen : List String) (types : List PropertyType) (names : Naming) : Prop :=
  (∀ type ∈ types, type.WellJoined names) ∧
    ∃ texts, PropertyType.renderAll names types = .ok texts ∧ texts.Nodup ∧ ∀ text ∈ texts, text ∉ seen

/-- One type stands for itself, and several make a union. -/
theorem joins_unionOf (path : String) {seen : List String} {types : List PropertyType}
    (h : TypesJoined seen types known) :
    Joins known (typeOf.unionOf path types) TypeJoined := by
  obtain ⟨htypes, texts, htexts, hnodup, -⟩ := h
  match types with
  | [] => exact joins_throw _
  | [single] =>
    exact Joins.pure fun _ hnames => (htypes single List.mem_cons_self).extend hnames
  | first :: second :: rest =>
    refine Joins.pure fun names hnames => PropertyType.WellJoined.extend ?_ hnames
    refine PropertyType.wellJoined_union htypes ?_ ⟨texts, htexts, hnodup⟩
    exact Nat.le_add_left _ _

mutual

theorem joins_typeOf (hinner : InnerJoins inner) (known : Naming) (path hint : String)
    (resolved : Schema.Resolved) : Joins known (typeOf inner subject path hint resolved) TypeJoined := by
  cases resolved with
  | concrete schema name => exact joins_typeOfConcrete hinner path _ schema
  | array schema name items =>
    cases items with
    | none => exact joins_plain rfl
    | some items =>
      rw [typeOf]
      exact (joins_typeOf hinner known path hint items).bind fun type _ _ htype =>
        Joins.pure fun _ hnames => (PropertyType.WellJoined.extend htype hnames).array
  | combined schema name op branches =>
    cases op with
    | allOf =>
      rw [typeOf]
      split
      · exact joins_plain rfl
      · exact joins_typeOfConstrained hinner known path hint branches
      · exact (joins_lift _).bind fun unified names _ _ => joins_typeInner hinner path _ unified
    | anyOf =>
      rw [typeOf]
      exact (joins_typesOf hinner known path hint [] branches).bind fun types _ _ htypes =>
        joins_unionOf path htypes
    | oneOf =>
      rw [typeOf]
      exact (joins_typesOf hinner known path hint [] branches).bind fun types _ _ htypes =>
        joins_unionOf path htypes

theorem joins_typeOfConstrained (hinner : InnerJoins inner) (known : Naming) (path hint : String)
    (branches : List Schema.Resolved) :
    Joins known (typeOfConstrained inner subject path hint branches) TypeJoined := by
  cases branches with
  | nil => exact joins_plain rfl
  | cons branch rest =>
    rw [typeOfConstrained]
    split
    · exact joins_typeOf hinner known path hint branch
    · exact joins_typeOfConstrained hinner known path hint rest

theorem joins_typesOf (hinner : InnerJoins inner) (known : Naming) (path hint : String)
    (seen : List String) (branches : List Schema.Resolved) :
    Joins known (typesOf inner subject path hint seen branches) (TypesJoined seen) := by
  cases branches with
  | nil =>
    exact Joins.pure fun _ _ => ⟨fun _ h => absurd h List.not_mem_nil, [], rfl, List.nodup_nil,
      fun _ h => absurd h List.not_mem_nil⟩
  | cons branch rest =>
    rw [typesOf]
    refine (joins_typeOf hinner known path hint branch).bind fun type names _ htype => ?_
    refine (joins_render type).bind fun text names' hnames htext => ?_
    split
    · exact joins_typesOf hinner names' path hint seen rest
    · next hseen =>
      refine (joins_typesOf hinner names' path hint (text :: seen) rest).bind
        fun types names'' hnames' htypes => ?_
      obtain ⟨hjoined, texts, htexts, hnodup, hnew⟩ := htypes
      refine Joins.pure fun more hmore => ⟨List.forall_mem_cons.2 ⟨?_, ?_⟩, text :: texts, ?_, ?_, ?_⟩
      · exact PropertyType.WellJoined.extend htype (hnames.trans (hnames'.trans hmore))
      · exact fun other hother => (hjoined other hother).extend hmore
      · rw [PropertyType.renderAll_eq_ok_iff]
        refine .cons ?_ (PropertyType.renderAll_eq_ok_iff.1 ?_)
        · exact PropertyType.render_eq_of_names type
            (fun id _ => (hnames'.trans hmore) id) htext
        · exact PropertyType.renderAll_eq_of_names types (fun id _ => hmore id) htexts
      · exact List.nodup_cons.2 ⟨fun hmem => hnew text hmem List.mem_cons_self, hnodup⟩
      · rw [List.contains_iff_mem] at hseen
        exact List.forall_mem_cons.2 ⟨hseen, fun other hother hmem =>
          hnew other hother (List.mem_cons_of_mem _ hmem)⟩

end

end Level

/-! ### Typing a document -/

theorem joins_typeWithin (subject : Subject) (levels : Nat) :
    InnerJoins (typeWithin subject levels) := by
  induction levels with
  | zero => exact fun path hint resolved known => joins_throw _
  | succ levels ih => exact fun path hint resolved known => joins_typeOf ih known path hint resolved

theorem joins_attributeSchema (subject : Subject) (name : String) (schema : Json)
    (segments : List String) :
    Joins known (attributeSchema subject name schema segments) (fun _ _ => True) := by
  induction segments generalizing known schema with
  | nil => exact joins_throw _
  | cons segment rest ih =>
    rw [attributeSchema]
    split
    · exact joins_throw _
    · split
      · exact Joins.pure fun _ _ => trivial
      · exact (joins_lift _).bind fun resolved _ _ _ => ih resolved.schema

theorem joins_attributesOf (subject : Subject) (names : List String) :
    Joins known (attributesOf subject names) PropertiesJoined := by
  induction names generalizing known with
  | nil => exact Joins.pure fun known _ => propertiesJoined_nil known
  | cons name rest ih =>
    rw [attributesOf]
    have htyped : Joins known (do
        let schema ← attributeSchema subject name subject.document (Text.split '.' name)
        Typing.property subject name (String.ofList (Text.afterLast '.' name.toList)) schema)
        PropertyJoined :=
      (joins_attributeSchema subject name _ _).bind fun schema _ _ _ =>
        joins_propertyOf (joins_typeWithin subject _) _ _ schema
    exact htyped.gather (fun _ => ih) name name id id

theorem joins_documentTypes (subject : Subject) (names : List String) :
    Joins known (documentTypes subject names) (fun result names =>
      PropertiesJoined result.1 names ∧ PropertiesJoined result.2 names) := by
  refine (joins_propertiesOf (joins_typeWithin subject _) _ _ _).bind
    fun properties _ _ hproperties => ?_
  refine (joins_attributesOf subject names).bind fun attributes _ hnames hattributes => ?_
  exact Joins.pure fun _ hnames' => ⟨WellJoinedAll.extend hproperties (hnames.trans hnames'),
    WellJoinedAll.extend hattributes hnames'⟩

end Typing

/-! ### An import -/

namespace Building

variable {typeName : String} {legacy : Option LegacySpec} {document : Json}

theorem mem_values_remembering {db : Database} {old properties : PropertyMap} {p : Property}
    (hp : p ∈ Keyed.values (remembering db old properties)) :
    ∃ q ∈ Keyed.values properties, KeepsTypes old q p := by
  rw [Keyed.values, remembering, List.map_map] at hp
  obtain ⟨entry, hentry, rfl⟩ := List.mem_map.1 hp
  exact ⟨entry.2, List.mem_map_of_mem hentry, keepsTypes_remember db old entry.1 entry.2⟩

/-- What a property is typed with and what an old one had is all that a property has. -/
theorem KeepsTypes.wellJoined {old : PropertyMap} {typed kept : Property} {names : Naming}
    (h : KeepsTypes old typed kept) (hold : WellJoinedAll names (Keyed.values old))
    (htyped : Typing.PropertyJoined typed names) : Typing.PropertyJoined kept names := by
  intro type htype
  rcases List.mem_cons.1 htype with rfl | hprevious
  · rw [h.1]
    exact htyped _ List.mem_cons_self
  rcases h.2 with hsame | ⟨before, hbefore, hfrom⟩
  · exact htyped type (List.mem_cons_of_mem _ (hsame ▸ hprevious))
  · exact hold before hbefore type (List.mem_cons.2 (hfrom type hprevious))

/-- The properties that a document makes of old ones are well joined if they and the typed ones
are. -/
theorem wellJoined_renewed {db : Database} {old : Resource} {properties attributes : PropertyMap}
    {names : Naming} (hold : WellJoinedAll names old.slots)
    (hproperties : Typing.PropertiesJoined properties names)
    (hattributes : Typing.PropertiesJoined attributes names) :
    WellJoinedAll names (renewed typeName legacy document db old properties attributes).slots := by
  have hkept : ∀ {before typed : PropertyMap}, WellJoinedAll names (Keyed.values before) →
      Typing.PropertiesJoined typed names →
      WellJoinedAll names (Keyed.values (remembering db before typed)) := by
    intro before typed hbefore htyped p hp
    obtain ⟨q, hq, hkeeps⟩ := mem_values_remembering hp
    exact hkeeps.wellJoined hbefore (htyped q hq)
  intro p hp
  rcases List.mem_append.1 hp with hp | hp
  · obtain ⟨q, hq, htype, hprevious⟩ := mem_values_marked hp
    have hq := hkept (fun b hb => hold b (List.mem_append_left _ hb)) hproperties q hq
    rwa [Property.types, htype, hprevious]
  · exact hkept (fun b hb => hold b (List.mem_append_right _ hb)) hattributes p hp

/-- A resource that is made has no properties yet. -/
theorem Opened.wellJoined {before after : Database} {r : Record Resource}
    (h : Opened before typeName r after) (hbefore : before.WellJoined) : after.WellJoined := by
  have hdefinitions : after.typeDefinitions = before.typeDefinitions := by rw [h.kept]
  rw [Database.wellJoined_iff] at hbefore ⊢
  rw [h.typeName_eq, hdefinitions]
  refine ⟨fun other hother => ?_, hbefore.2⟩
  rcases h.resources with hsame | hnew
  · exact hbefore.1 other (hsame ▸ hother)
  · rw [hnew, List.mem_append, List.mem_singleton] at hother
    rcases hother with hother | rfl
    · exact hbefore.1 other hother
    · exact fun p hp => absurd hp List.not_mem_nil

/-- A resource that is typed anew has well joined types, and all types that are left keep theirs. -/
theorem Interpreted.wellJoined {started left : Builder} {r : Record Resource} {found : Findings}
    (h : Interpreted typeName legacy document started r found left)
    (hstarted : started.database.Consistent started.supply) (hr : r ∈ started.database.resources.all)
    (hjoined : started.database.WellJoined) : left.database.WellJoined := by
  rw [Database.wellJoined_iff] at hjoined
  obtain ⟨htyped, hmore, hproperties, hattributes⟩ :=
    (Typing.joins_documentTypes _ _ _ ⟨⟨hstarted.typeDefinitions,
      hstarted.usesType.coherent.removeOutgoing r.id⟩, hjoined.2⟩
      (Naming.Extends.refl _)).of_run_ok h.typing
  change Naming.Extends started.database.typeName _ at hmore
  have hleft : ∀ p ∈ left.database.storedProperties, ∀ type ∈ p.types,
      type.WellJoined found.typed.database.typeName → type.WellJoined left.database.typeName :=
    fun p hp type htype hwell => hwell.of_names fun id hid =>
      h.keepsNames_typed id (h.consistent.resolves.references_subset hp htype hid)
  have hstored : WellJoinedAll found.typed.database.typeName left.database.storedProperties := by
    intro p hp
    rcases List.mem_append.1 hp with hp | hp
    · obtain ⟨other, hother, hslot⟩ := List.mem_flatMap.1 hp
      rw [h.resources, List.mem_map] at hother
      obtain ⟨before, hbefore, rfl⟩ := hother
      split at hslot
      · exact wellJoined_renewed (WellJoinedAll.extend (hjoined.1 r hr) hmore) hproperties
          hattributes p hslot
      · exact WellJoinedAll.extend (hjoined.1 before hbefore) hmore p hslot
    · obtain ⟨d, hd, hvalue⟩ := List.mem_flatMap.1 hp
      rw [h.definitions] at hd
      exact htyped.joined d (List.mem_of_mem_filter hd) p hvalue
  exact fun p hp type htype => hleft p hp type htype (hstored p hp type htype)

theorem ends_importResource_wellJoined {state : Builder}
    (h : state.database.Consistent state.supply) (hjoined : state.database.WellJoined)
    (typeName : String) (document : Json) (legacy : Option LegacySpec) :
    Ends (importResource typeName document legacy) state
      (fun _ left => left.database.WellJoined) (fun _ left => left.database.WellJoined) :=
  ends_importResource_of_interpreted h hjoined fun hopened hstarted hconsistent hleft =>
    hleft.wellJoined hconsistent hstarted.resource (hopened.wellJoined hjoined)

end Building

/-! ### Runs -/

namespace BuildStep

open Building

/-- The types of a database are told by the slots of the resources and by the definitions. -/
theorem unbound_wellJoined : Binding.Unbound Database.WellJoined where
  resources := by
    intro db resources hdb hsame
    rw [Database.wellJoined_iff] at hdb ⊢
    refine ⟨fun r hr => ?_, hdb.2⟩
    have hmem : (r.id, r.entity.slots) ∈ db.resources.all.map fun r => (r.id, r.entity.slots) :=
      Resource.map_slots_of_unmarked hsame ▸ List.mem_map.2 ⟨r, hr, rfl⟩
    obtain ⟨before, hbefore, hslots⟩ := List.mem_map.1 hmem
    rw [← (Prod.mk.inj hslots).2]
    exact hdb.1 before hbefore
  regions := fun _ _ _ h => h

theorem wellJoined_run {builder : Builder} (h : builder.database.Consistent builder.supply)
    (hjoined : builder.database.WellJoined) (step : BuildStep) :
    (run builder step).database.WellJoined := by
  cases step with
  | importDocument typeName document legacy =>
    exact (ends_importResource_wellJoined h hjoined typeName document legacy).of_left
  | markStateful names =>
    exact (consistent_bind
      (Binding.ends_markStateful_of_unbound unbound_wellJoined h hjoined names)).2
  | linkRegion region names =>
    exact (consistent_bind
      (Binding.ends_linkRegion_of_unbound unbound_wellJoined h hjoined region names)).2

theorem wellJoined_runAll {builder : Builder} (h : builder.database.Consistent builder.supply)
    (hjoined : builder.database.WellJoined) (steps : List BuildStep) :
    (runAll builder steps).database.WellJoined := by
  induction steps generalizing builder with
  | nil => exact hjoined
  | cons step rest ih => exact ih (consistent_run h step).1 (wellJoined_run h hjoined step)

theorem wellJoined_empty : Database.empty.WellJoined := fun _ hp => absurd hp List.not_mem_nil

/-- After any steps from the empty database, every union inside of a stored type lists at least two
types, each with a text and no two with the same. When the unions inside of it are flattened, it
lists two types with different texts still. -/
theorem unions_runAll_empty (supply : Supply) (rules : RuleBook) (attributePointer : String)
    (report : BuildReport) (imported : Nat) (steps : List BuildStep) :
    let db := (runAll ⟨Database.empty, supply, rules, attributePointer, report, imported⟩
      steps).database
    ∀ p ∈ db.storedProperties, ∀ type ∈ p.types, ∀ types ∈ type.unions,
      2 ≤ types.length ∧ PropertyType.Distinct db.typeName types ∧
      ∃ a ∈ PropertyType.flattenedAll types, ∃ b ∈ PropertyType.flattenedAll types,
        PropertyType.Differ db.typeName a b := by
  intro db p hp type htype types htypes
  have hdb : db.WellJoined :=
    wellJoined_runAll (Database.consistent_empty supply) wellJoined_empty steps
  have hjoined := hdb p hp type htype
  obtain ⟨hlength, hdistinct⟩ := hjoined types htypes
  exact ⟨hlength, hdistinct, (hjoined.of_mem_unions htypes).exists_differ⟩

/-- A property that may hold a text or nothing, or else a text. -/
def textTwice : Json :=
  .obj [("properties", .obj [("P", .obj [("anyOf", .arr
    [.obj [("anyOf", .arr [.obj [("type", .str "string")], .obj [("type", .str "null")]])],
      .obj [("type", .str "string")]])])])]

/-- The outer union lists two types, the inner union and a type that this one lists, too. -/
theorem unions_textTwice :
    let db := (runAll bareBuilder [.importDocument "A::B::C" textTwice none]).database
    ∃ p ∈ db.storedProperties, ∃ type ∈ p.types, ∃ types ∈ type.unions,
      (PropertyType.renderAll db.typeName types).toOption = some ["string | null", "string"] ∧
      2 ≤ types.length ∧ PropertyType.Distinct db.typeName types ∧
      ∃ a ∈ PropertyType.flattenedAll types, ∃ b ∈ PropertyType.flattenedAll types,
        PropertyType.Differ db.typeName a b := by
  intro db
  have hstored : ∃ p ∈ db.storedProperties, ∃ type ∈ p.types, ∃ types ∈ type.unions,
      (PropertyType.renderAll db.typeName types).toOption = some ["string | null", "string"] := by
    decide +kernel
  obtain ⟨p, hp, type, htype, types, htypes, htexts⟩ := hstored
  have hunion := unions_runAll_empty Supply.full RuleBook.empty defaultAttributePointer
    BuildReport.empty 0 [.importDocument "A::B::C" textTwice none] p hp type htype types htypes
  exact ⟨p, hp, type, htype, types, htypes, htexts, hunion⟩

/-- The inner union is one branch of the outer one, and the other branch is a type that the inner
union lists, too. -/
theorem flattened_union_textTwice :
    let db := (runAll bareBuilder [.importDocument "A::B::C" textTwice none]).database
    ∃ p ∈ db.storedProperties, ∃ type ∈ p.types, ∃ types ∈ type.unions,
      (PropertyType.renderAll db.typeName (PropertyType.flattenedAll types)).toOption =
        some ["string", "null", "string"] := by
  decide +kernel

end BuildStep

end ResourceCatalog
