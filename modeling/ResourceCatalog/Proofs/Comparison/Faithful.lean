import Mathlib
import ResourceCatalog.Proofs.Comparison.Unchanged
import ResourceCatalog.Proofs.Json.Printing

/-!
# What a comparison does not report

A comparison finds nothing exactly where two databases have the same catalog. `SameCatalog` spells
this out. The text of a type, of a default or of a truth value tells the value, so what has another
value is reported. The text of a list of identifiers does not, nor does an empty text tell whether
there is one: documentation that is empty counts as none, and so does an empty name for the property
of the tags.
-/

namespace ResourceCatalog

/-! ### The definitions of a resource -/

/-- A resource uses a definition. -/
def Database.Uses (db : Database) (resource : Identity) (d : Record TypeDefinition) : Prop :=
  d ∈ db.typeDefinitions.all ∧ db.usesType.Joins resource d.id

/-- No resource uses two definitions of one name. -/
def Database.UsesDistinct (db : Database) : Prop :=
  ∀ resource d e, db.Uses resource d → db.Uses resource e → d.entity.name = e.entity.name → d = e

namespace Comparison

/-! ### The same catalog -/

/-- The records on either side have the same names, and records of one name agree. -/
structure Paired {α : Type} (name : α → String) (agree : Record α → Record α → Prop)
    (old new : Record α → Prop) : Prop where
  names : ∀ key, (∃ r, old r ∧ name r.entity = key) ↔ ∃ s, new s ∧ name s.entity = key
  agree : ∀ r s, old r → new s → name r.entity = name s.entity → agree r s

/-- Properties that agree, each in its database. -/
structure SameProperty (a b : Database) (p q : Property) : Prop where
  type : ∃ text, a.render p.type = .ok text ∧ b.render q.type = .ok text
  required : p.required = q.required
  documentation : p.documentation.getD "" = q.documentation.getD ""
  default : p.default = q.default
  deprecated : p.deprecated = q.deprecated
  causesReplacement : p.causesReplacement = q.causesReplacement

/-- The same names, with properties that agree. -/
def SameProperties (a b : Database) (before after : PropertyMap) : Prop :=
  ∀ name, Option.Rel (SameProperty a b) (Keyed.get? name before) (Keyed.get? name after)

structure SameDefinition (a b : Database) (d e : TypeDefinition) : Prop where
  documentation : d.documentation.getD "" = e.documentation.getD ""
  properties : SameProperties a b d.properties e.properties

/-- Resources that agree, each in its database. -/
structure SameResource (a b : Database) (r s : Record Resource) : Prop where
  documentation : r.entity.documentation.getD "" = s.entity.documentation.getD ""
  primaryIdentifier :
    Text.join ", " r.entity.primaryIdentifier = Text.join ", " s.entity.primaryIdentifier
  isStateful : r.entity.isStateful = s.entity.isStateful
  tagProperty : r.entity.tagProperty.getD "" = s.entity.tagProperty.getD ""
  properties : SameProperties a b r.entity.properties s.entity.properties
  attributes : SameProperties a b r.entity.attributes s.entity.attributes
  definitions : Paired TypeDefinition.name (fun d e => SameDefinition a b d.entity e.entity)
    (a.Uses r.id) (b.Uses s.id)

/-- Two databases have the same services and the same resources. -/
structure SameCatalog (a b : Database) : Prop where
  services : Paired Service.name (fun r s => r.entity.shortName = s.entity.shortName)
    (· ∈ a.services.all) (· ∈ b.services.all)
  resources : Paired Resource.typeName (SameResource a b) (· ∈ a.resources.all)
    (· ∈ b.resources.all)

/-! ### Nothing to report -/

theorem isEmpty_iff {α : Type} {c : KeyedChange α} : c.isEmpty = true ↔ c = unchanged := by
  obtain ⟨added, removed, updated⟩ := c
  rw [KeyedChange.isEmpty, unchanged, Bool.and_eq_true, Bool.and_eq_true, List.isEmpty_iff,
    List.isEmpty_iff, List.isEmpty_iff, KeyedChange.mk.injEq, and_assoc]

theorem databaseChange_isEmpty_iff {c : DatabaseChange} :
    c.isEmpty = true ↔ c = ⟨unchanged, unchanged⟩ := by
  obtain ⟨services, resources⟩ := c
  rw [DatabaseChange.isEmpty, Bool.and_eq_true, isEmpty_iff, isEmpty_iff, DatabaseChange.mk.injEq]

theorem fields_cons_eq_nil_iff {before after : String × String} {old new : List (String × String)} :
    fields (before :: old) (after :: new) = [] ↔ before.2 = after.2 ∧ fields old new = [] := by
  rw [fields_cons, List.append_eq_nil_iff]
  refine and_congr_left fun _ => ?_
  split
  · next hsame => exact iff_of_true rfl hsame
  · next hother => exact iff_of_false (List.cons_ne_nil _ _) hother

theorem error_ne_ok {ε α : Type} {e : ε} {x : α} : (.error e : Except ε α) ≠ .ok x := by
  intro h
  cases h

theorem ite_eq_none_iff {α : Type} {p : Prop} [Decidable p] {x : α} :
    (if p then none else some x) = none ↔ p := by
  split
  · next h => exact iff_of_true rfl h
  · next h => exact iff_of_false (Option.some_ne_none _) h

theorem fieldChanges?_eq_none_iff {name : String} {changes : List FieldChange} :
    fieldChanges? name changes = none ↔ changes = [] := by
  cases changes with
  | nil => exact iff_of_true rfl rfl
  | cons change rest => exact iff_of_false (Option.some_ne_none _) (List.cons_ne_nil _ _)

/-- Two optional values are related where both are there or neither is, and if both, they are. -/
theorem option_rel_iff {α β : Type} {R : α → β → Prop} {x : Option α} {y : Option β} :
    Option.Rel R x y ↔
      (x.isSome = true ↔ y.isSome = true) ∧ ∀ a b, x = some a → y = some b → R a b := by
  constructor
  · rintro (hagree | _)
    · refine ⟨Iff.rfl, ?_⟩
      rintro _ _ ⟨⟩ ⟨⟩
      exact hagree
    · exact ⟨Iff.rfl, fun _ _ h => absurd h (Option.some_ne_none _).symm⟩
  · rintro ⟨hsome, hagree⟩
    cases x with
    | none =>
      cases y with
      | none => exact .none
      | some b => cases hsome.2 rfl
    | some a =>
      cases y with
      | none => cases hsome.1 rfl
      | some b => exact .some (hagree a b rfl rfl)

section Keyed

variable {α β : Type} {compare : String → α → α → Except GraphError (Option β)}
  {old new : Keyed α}

theorem updates_eq_nil_iff : updates compare new old = .ok [] ↔
    ∀ entry ∈ old, ∀ after, Keyed.get? entry.1 new = some after →
      compare entry.1 entry.2 after = .ok none := by
  have hcons : ∀ (x : Except GraphError (Option β)) (y : Except GraphError (List β)),
      (do return (← x).toList ++ (← y)) = (.ok [] : Except GraphError (List β)) ↔
        x = .ok none ∧ y = .ok [] := by
    rintro (_ | _ | _) (_ | _ | _) <;> simp [bind, Except.bind, pure, Except.pure]
  induction old with
  | nil => exact iff_of_true rfl fun _ hentry => absurd hentry List.not_mem_nil
  | cons entry rest ih =>
    rw [updates, List.forall_mem_cons]
    cases Keyed.get? entry.1 new with
    | none =>
      refine (hcons (.ok none) _).trans (and_congr ?_ ih)
      exact iff_of_true rfl fun _ hnone => absurd hnone (Option.some_ne_none _).symm
    | some after =>
      refine (hcons (compare entry.1 entry.2 after) _).trans (and_congr ?_ ih)
      exact ⟨fun hsame _ hafter => Option.some.inj hafter ▸ hsame, fun hsame => hsame after rfl⟩

/-- Nothing was added, removed or changed exactly where both sides have the same names and no
comparison finds anything. -/
theorem keyed_eq_unchanged_iff (hold : Keyed.Ascending old) :
    keyed compare old new = .ok unchanged ↔
      ∀ key, Option.Rel (fun before after => compare key before after = .ok none)
        (Keyed.get? key old) (Keyed.get? key new) := by
  have hmissing : ∀ {x y : Keyed α}, ((Keyed.keys x).filter fun key => !y.contains key) = [] ↔
      ∀ key, x.contains key = true → y.contains key = true := by
    intro x y
    simp only [List.filter_eq_nil_iff, Bool.not_eq_true', Bool.not_eq_false,
      Keyed.contains_iff_mem_keys]
  have hparts : keyed compare old new = .ok unchanged ↔
      (∀ key, old.contains key = true ↔ new.contains key = true) ∧
        updates compare new old = .ok [] := by
    have hnames : (∀ key, old.contains key = true ↔ new.contains key = true) ↔ _ :=
      (forall_congr' fun _ => iff_def).trans forall_and
    rw [keyed, hnames, ← hmissing, ← hmissing]
    cases updates compare new old with
    | error e => exact iff_of_false error_ne_ok fun h => error_ne_ok h.2
    | ok updated =>
      change Except.ok (KeyedChange.mk _ _ _) = _ ↔ _
      rw [Except.ok.injEq, Except.ok.injEq, unchanged, KeyedChange.mk.injEq]
      constructor
      · rintro ⟨hadded, hremoved, hupdated⟩
        exact ⟨⟨hremoved, hadded⟩, hupdated⟩
      · rintro ⟨⟨hremoved, hadded⟩, hupdated⟩
        exact ⟨hadded, hremoved, hupdated⟩
  simp only [hparts, updates_eq_nil_iff, option_rel_iff, forall_and]
  refine and_congr_right fun _ => ⟨fun hsame key before after hbefore hafter => ?_,
    fun hsame entry hentry after hafter => ?_⟩
  · exact hsame (key, before) (Keyed.mem_of_get? hbefore) after hafter
  · exact hsame entry.1 entry.2 after (hold.get?_of_mem hentry) hafter

end Keyed

/-! ### Records under their names -/

/-- Under its name, and nowhere else, stands what is told of each of some records. -/
def Tabulates {α β : Type} (entries : Keyed β) (name : α → String) (value : Record α → β)
    (members : Record α → Prop) : Prop :=
  ∀ key x, Keyed.get? key entries = some x ↔ ∃ r, members r ∧ name r.entity = key ∧ value r = x

theorem rel_iff_paired {α β : Type} {old new : Keyed β} {name : α → String} {value : Record α → β}
    {before after : Record α → Prop} (h : Tabulates old name value before)
    (h' : Tabulates new name value after) {agree : String → β → β → Prop} :
    (∀ key, Option.Rel (agree key) (Keyed.get? key old) (Keyed.get? key new)) ↔
      Paired name (fun r s => agree (name r.entity) (value r) (value s)) before after := by
  have hsome : ∀ {entries : Keyed β} {members : Record α → Prop} {key : String},
      Tabulates entries name value members →
      ((∃ r, members r ∧ name r.entity = key) ↔ (Keyed.get? key entries).isSome = true) := by
    intro entries members key hentries
    rw [Option.isSome_iff_exists]
    constructor
    · rintro ⟨r, hr, hkey⟩
      exact ⟨value r, (hentries key _).2 ⟨r, hr, hkey, rfl⟩⟩
    · rintro ⟨x, hx⟩
      obtain ⟨r, hr, hkey, -⟩ := (hentries key x).1 hx
      exact ⟨r, hr, hkey⟩
  simp only [option_rel_iff, forall_and, ← hsome h, ← hsome h']
  constructor
  · rintro ⟨hnames, hagree⟩
    refine ⟨hnames, fun r s hr hs hname => ?_⟩
    exact hagree _ _ _ ((h _ _).2 ⟨r, hr, rfl, rfl⟩) ((h' _ _).2 ⟨s, hs, hname.symm, rfl⟩)
  · intro hpaired
    refine ⟨hpaired.names, fun key x y hx hy => ?_⟩
    obtain ⟨r, hr, rfl, rfl⟩ := (h key x).1 hx
    obtain ⟨s, hs, hname, rfl⟩ := (h' _ y).1 hy
    exact hpaired.agree r s hr hs hname.symm

theorem paired_congr {α : Type} {name : α → String} {agree agree' : Record α → Record α → Prop}
    {old new : Record α → Prop} (h : ∀ r s, old r → new s → (agree r s ↔ agree' r s)) :
    Paired name agree old new ↔ Paired name agree' old new :=
  ⟨fun hpaired => ⟨hpaired.names, fun r s hr hs hname =>
      (h r s hr hs).1 (hpaired.agree r s hr hs hname)⟩,
    fun hpaired => ⟨hpaired.names, fun r s hr hs hname =>
      (h r s hr hs).2 (hpaired.agree r s hr hs hname)⟩⟩

theorem ascending_byName {α : Type} (c : Collection α) (name : α → String) :
    Keyed.Ascending (byName c name) := Keyed.ascending_ofList _

theorem tabulates_byName {α : Type} {c : Collection α} {name : α → String}
    (h : (c.all.map fun r => name r.entity).Nodup) :
    Tabulates (byName c name) name id (· ∈ c.all) := by
  have hkeys : (Keyed.keys (c.all.map fun r => (name r.entity, r))).Nodup := by
    rw [Keyed.keys, List.map_map]
    exact h
  intro key x
  have hmem : Keyed.get? key (byName c name) = some x ↔
      (key, x) ∈ c.all.map fun r => (name r.entity, r) := by
    rw [byName_eq, ← (Keyed.perm_ofList hkeys).mem_iff]
    exact ⟨Keyed.mem_of_get?, fun hentry => (Keyed.ascending_ofList _).get?_of_mem hentry⟩
  rw [hmem, List.mem_map]
  refine exists_congr fun r => and_congr_right fun _ => ?_
  exact Prod.mk.injEq _ _ _ _ ▸ Iff.rfl

theorem contains_foldl_takeFirst {found : List (Record TypeDefinition × Use)}
    {definitions : Keyed TypeDefinition} {key : String}
    (h : definitions.contains key = true ∨ ∃ use ∈ found, use.1.entity.name = key) :
    (found.foldl takeFirst definitions).contains key = true := by
  induction found generalizing definitions with
  | nil => exact h.resolve_right fun ⟨_, huse, _⟩ => List.not_mem_nil huse
  | cons use rest ih =>
    have hstep : ∀ name, definitions.contains name = true ∨ use.1.entity.name = name →
        (takeFirst definitions use).contains name = true := by
      intro name hname
      rw [takeFirst]
      by_cases hsame : name = use.1.entity.name
      · split
        · next hthere => exact hsame ▸ hthere
        · rw [hsame, Keyed.contains, Keyed.get?_insert_self]
          rfl
      · have hthere := hname.resolve_right (Ne.symm hsame)
        split
        · exact hthere
        · rw [Keyed.contains, Keyed.get?_insert_of_ne hsame]
          exact hthere
    refine ih ?_
    rcases h with hthere | ⟨other, hother, hname⟩
    · exact Or.inl (hstep key (Or.inl hthere))
    · rcases List.mem_cons.1 hother with rfl | hother
      · exact Or.inl (hstep key (Or.inr hname))
      · exact Or.inr ⟨other, hother, hname⟩

/-- No definition that a resource uses is left out where they have different names. -/
theorem tabulates_usedDefinitions {db : Database} (hdb : db.typeDefinitions.ids.Nodup)
    (hdistinct : db.UsesDistinct) {resource : Identity} {definitions : Keyed TypeDefinition}
    (h : usedDefinitions db resource = .ok definitions) :
    Tabulates definitions TypeDefinition.name Record.entity (db.Uses resource) := by
  obtain ⟨hascending, hused⟩ := ascending_usedDefinitions h
  have hentry : ∀ entry ∈ definitions, ∃ d, db.Uses resource d ∧
      (d.entity.name, d.entity) = entry := by
    intro entry hentry
    obtain ⟨edge, hedge, d, hget, hsame⟩ := hused entry hentry
    have hd := Collection.mem_all_of_get hget
    exact ⟨d, ⟨hd, edge, hedge, (Collection.id_eq_of_get hget).symm⟩, hsame⟩
  intro key x
  constructor
  · intro hget
    obtain ⟨d, hd, hsame⟩ := hentry (key, x) (Keyed.mem_of_get? hget)
    obtain ⟨hname, hvalue⟩ := Prod.mk.inj hsame
    exact ⟨d, hd, hname, hvalue⟩
  · rintro ⟨d, hd, rfl, rfl⟩
    have hthere : definitions.contains d.entity.name = true := by
      rw [usedDefinitions_eq] at h
      cases hfound : db.typesOf resource with
      | error e =>
        rw [hfound] at h
        cases h
      | ok found =>
        rw [hfound] at h
        cases h
        obtain ⟨hmem, edge, hedge, hid⟩ := hd
        obtain ⟨use, huse, hget⟩ := exists_use_of_dereference hfound edge hedge
        rw [hid, Collection.get_of_mem hdb hmem] at hget
        exact contains_foldl_takeFirst (Or.inr ⟨use, huse, by rw [← Except.ok.inj hget]⟩)
    obtain ⟨x, hx⟩ := Option.isSome_iff_exists.1 hthere
    obtain ⟨e, he, hsame⟩ := hentry _ (Keyed.mem_of_get? hx)
    obtain ⟨hname, hvalue⟩ := Prod.mk.inj hsame
    rw [hx, ← hvalue, hdistinct resource e d he hd hname]

/-! ### Comparisons that find nothing -/

theorem boolText_injective : Function.Injective boolText := by decide

/-- The text of a default tells it, also whether there is one. -/
theorem defaultText_injective :
    Function.Injective fun value : Option Json => (value.map Json.compact).getD "" := by
  rintro (_ | x) (_ | y) h
  · rfl
  · exact absurd h.symm y.compact_ne_empty
  · exact absurd h x.compact_ne_empty
  · exact congrArg some (Json.compact_injective h)

section Databases

variable {a b : Database}

theorem property_eq_none_iff {name : String} {p q : Property} :
    (do
      let fieldsBefore ← propertyFields a p
      let fieldsAfter ← propertyFields b q
      return fieldChanges? name (fields fieldsBefore fieldsAfter)) =
        (.ok none : Except GraphError (Option FieldChanges)) ↔ SameProperty a b p q := by
  rw [propertyFields_eq, propertyFields_eq]
  cases htext : a.render p.type with
  | error e =>
    refine iff_of_false error_ne_ok fun h => ?_
    obtain ⟨text, hrender, -⟩ := h.type
    exact error_ne_ok (htext.symm.trans hrender)
  | ok text =>
    cases htext' : b.render q.type with
    | error e =>
      refine iff_of_false error_ne_ok fun h => ?_
      obtain ⟨text, -, hrender⟩ := h.type
      exact error_ne_ok (htext'.symm.trans hrender)
    | ok text' =>
      change Except.ok (fieldChanges? _ (fields (propertyTexts p text) (propertyTexts q text'))) =
        Except.ok none ↔ _
      rw [Except.ok.injEq, fieldChanges?_eq_none_iff]
      simp only [propertyTexts, fields_cons_eq_nil_iff, boolText_injective.eq_iff,
        defaultText_injective.eq_iff]
      constructor
      · rintro ⟨htype, hrequired, hdocumentation, hdefault, hdeprecated, hreplacement, -⟩
        exact ⟨⟨text, htext, htype ▸ htext'⟩, hrequired, hdocumentation, hdefault, hdeprecated,
          hreplacement⟩
      · rintro ⟨⟨same, hsame, hsame'⟩, hrequired, hdocumentation, hdefault, hdeprecated,
          hreplacement⟩
        have htype : text = text' := Except.ok.inj
          ((htext.symm.trans hsame).trans (hsame'.symm.trans htext'))
        exact ⟨htype, hrequired, hdocumentation, hdefault, hdeprecated, hreplacement, rfl⟩

theorem properties_eq_unchanged_iff {before : PropertyMap} (hbefore : Keyed.Ascending before)
    (after : PropertyMap) :
    properties a b before after = .ok unchanged ↔ SameProperties a b before after := by
  rw [properties, keyed_eq_unchanged_iff hbefore]
  simp only [property_eq_none_iff]
  exact Iff.rfl

variable {supply supply' : Supply} (ha : a.Consistent supply) (hb : b.Consistent supply')
  (hada : a.UsesDistinct) (hbdb : b.UsesDistinct)

include ha hb hada hbdb

theorem definitions_eq_unchanged_iff (resource other : Identity) :
    definitions a b resource other = .ok unchanged ↔
      Paired TypeDefinition.name (fun d e => SameDefinition a b d.entity e.entity)
        (a.Uses resource) (b.Uses other) := by
  obtain ⟨found, hfound⟩ := usedDefinitions_ok ha.resolves resource
  obtain ⟨found', hfound'⟩ := usedDefinitions_ok hb.resolves other
  rw [definitions, hfound, hfound']
  refine (keyed_eq_unchanged_iff (ascending_usedDefinitions hfound).1).trans ?_
  rw [rel_iff_paired (tabulates_usedDefinitions ha.typeDefinitions.coherent.distinct hada hfound)
    (tabulates_usedDefinitions hb.typeDefinitions.coherent.distinct hbdb hfound')]
  refine paired_congr fun d e hd _ => ?_
  have hproperties := properties_eq_unchanged_iff (a := a) (b := b)
    (ha.arranged.definitions d hd.1) e.entity.properties
  cases hchange : properties a b d.entity.properties e.entity.properties with
  | error error =>
    rw [hchange] at hproperties
    exact iff_of_false error_ne_ok fun h => error_ne_ok (hproperties.2 h.properties)
  | ok change =>
    rw [hchange, Except.ok.injEq] at hproperties
    change Except.ok (if _ then none else some _) = _ ↔ _
    rw [Except.ok.injEq, ite_eq_none_iff, Bool.and_eq_true, List.isEmpty_iff, isEmpty_iff,
      fields_cons_eq_nil_iff, hproperties]
    exact ⟨fun h => ⟨h.1.1, h.2⟩, fun h => ⟨⟨h.documentation, rfl⟩, h.properties⟩⟩

theorem resource?_eq_none_iff {name : String} {r s : Record Resource}
    (hr : r ∈ a.resources.all) : resource? a b name r s = .ok none ↔ SameResource a b r s := by
  obtain ⟨hascending, hascending'⟩ := ha.arranged.resources r hr
  have hproperties := properties_eq_unchanged_iff (a := a) (b := b) hascending s.entity.properties
  have hattributes := properties_eq_unchanged_iff (a := a) (b := b) hascending' s.entity.attributes
  have hdefinitions := definitions_eq_unchanged_iff ha hb hada hbdb r.id s.id
  rw [resource?]
  cases hchange : properties a b r.entity.properties s.entity.properties with
  | error error =>
    rw [hchange] at hproperties
    exact iff_of_false error_ne_ok fun h => error_ne_ok (hproperties.2 h.properties)
  | ok change =>
    cases hchange' : properties a b r.entity.attributes s.entity.attributes with
    | error error =>
      rw [hchange'] at hattributes
      exact iff_of_false error_ne_ok fun h => error_ne_ok (hattributes.2 h.attributes)
    | ok change' =>
      cases hchange'' : definitions a b r.id s.id with
      | error error =>
        rw [hchange''] at hdefinitions
        exact iff_of_false error_ne_ok fun h => error_ne_ok (hdefinitions.2 h.definitions)
      | ok change'' =>
        rw [hchange, Except.ok.injEq] at hproperties
        rw [hchange', Except.ok.injEq] at hattributes
        rw [hchange'', Except.ok.injEq] at hdefinitions
        change Except.ok (if _ then none else some _) = _ ↔ _
        rw [Except.ok.injEq, ite_eq_none_iff]
        simp only [Bool.and_eq_true, List.isEmpty_iff, isEmpty_iff, resourceFields,
          fields_cons_eq_nil_iff, boolText_injective.eq_iff, hproperties, hattributes, hdefinitions]
        constructor
        · rintro ⟨⟨⟨⟨hdocumentation, hidentifier, hstateful, htag, -⟩, hprop⟩, hattr⟩, hdef⟩
          exact ⟨hdocumentation, hidentifier, hstateful, htag, hprop, hattr, hdef⟩
        · rintro ⟨hdocumentation, hidentifier, hstateful, htag, hprop, hattr, hdef⟩
          exact ⟨⟨⟨⟨hdocumentation, hidentifier, hstateful, htag, rfl⟩, hprop⟩, hattr⟩, hdef⟩

omit hada hbdb in
/-- A comparison goes name by name. -/
theorem databases_eq_unchanged_iff_paired :
    databases a b = .ok ⟨unchanged, unchanged⟩ ↔
      Paired Service.name (fun r s => r.entity.shortName = s.entity.shortName)
        (· ∈ a.services.all) (· ∈ b.services.all) ∧
      Paired Resource.typeName (fun r s => resource? a b r.entity.typeName r s = .ok none)
        (· ∈ a.resources.all) (· ∈ b.resources.all) := by
  have hservices : keyed (fun name r s => .ok (service? name r s))
      (byName a.services Service.name) (byName b.services Service.name) = .ok unchanged ↔
      Paired Service.name (fun r s => r.entity.shortName = s.entity.shortName)
        (· ∈ a.services.all) (· ∈ b.services.all) := by
    rw [keyed_eq_unchanged_iff (ascending_byName _ _),
      rel_iff_paired (tabulates_byName ha.services.unique) (tabulates_byName hb.services.unique)]
    refine paired_congr fun r s _ _ => ?_
    rw [Except.ok.injEq, service?, fieldChanges?_eq_none_iff, fields_cons_eq_nil_iff]
    exact and_iff_left rfl
  have hresources : keyed (resource? a b) (byName a.resources Resource.typeName)
      (byName b.resources Resource.typeName) = .ok unchanged ↔
      Paired Resource.typeName (fun r s => resource? a b r.entity.typeName r s = .ok none)
        (· ∈ a.resources.all) (· ∈ b.resources.all) := by
    rw [keyed_eq_unchanged_iff (ascending_byName _ _),
      rel_iff_paired (tabulates_byName ha.resources.unique) (tabulates_byName hb.resources.unique)]
    exact Iff.rfl
  have hparts : databases a b = .ok ⟨unchanged, unchanged⟩ ↔
      keyed (fun name r s => .ok (service? name r s))
        (byName a.services Service.name) (byName b.services Service.name) = .ok unchanged ∧
      keyed (resource? a b) (byName a.resources Resource.typeName)
        (byName b.resources Resource.typeName) = .ok unchanged := by
    rw [databases]
    generalize keyed _ _ _ = services
    generalize keyed _ _ _ = resources
    cases services <;> cases resources <;> simp [bind, Except.bind, pure, Except.pure]
  rw [hparts, hservices, hresources]

/-- A comparison finds nothing exactly where both databases have the same catalog. -/
theorem databases_eq_unchanged_iff :
    databases a b = .ok ⟨unchanged, unchanged⟩ ↔ SameCatalog a b := by
  have hresources : Paired Resource.typeName
      (fun r s => resource? a b r.entity.typeName r s = .ok none)
      (· ∈ a.resources.all) (· ∈ b.resources.all) ↔
      Paired Resource.typeName (SameResource a b) (· ∈ a.resources.all)
        (· ∈ b.resources.all) :=
    paired_congr fun r s hr _ => resource?_eq_none_iff ha hb hada hbdb hr
  rw [databases_eq_unchanged_iff_paired ha hb, hresources]
  exact ⟨fun h => ⟨h.1, h.2⟩, fun h => ⟨h.services, h.resources⟩⟩

end Databases

end Comparison

end ResourceCatalog
