import Mathlib
import ResourceCatalog.Proofs.Import.Neighbours
import ResourceCatalog.Proofs.Import.Repetition

/-!
# The history of a type

Each import of a resource gives a property a type, and the property remembers the types it had. A
type that reads like the one before does not count as another one, although the definitions that it
mentions are made anew each time. So the texts of the remembered types and of the present one, in
the order in which they came, are the texts after the imports with repetitions in a row left out:
`history_runAll_empty`.

One import adds to the history what is new in it, and all other steps leave it alone. The texts are
those of the present database. Definitions that only the history mentions are kept by pruning as
long as they are mentioned, and definitions do not change their names.
-/

namespace ResourceCatalog

/-! ### Repetitions in a row -/

/-- Adds a value to a list, unless it is the last one. -/
def remembered {α : Type} [DecidableEq α] (values : List α) (value : α) : List α :=
  if values.getLast? = some value then values else values ++ [value]

theorem getLast?_remembered {α : Type} [DecidableEq α] (values : List α) (value : α) :
    (remembered values value).getLast? = some value := by
  rw [remembered]
  split
  · next h => exact h
  · exact List.getLast?_concat

/-- A list that is remembered value by value has no repetitions in a row. -/
theorem foldl_remembered {α : Type} [DecidableEq α] (values : List α) :
    values.foldl remembered [] = values.destutter (· ≠ ·) := by
  have hbehind : ∀ (front values : List α) (last : α),
      values.foldl remembered (front ++ [last]) = front ++ values.destutter' (· ≠ ·) last := by
    intro front values last
    induction values generalizing front last with
    | nil => rfl
    | cons value rest ih =>
      simp only [List.foldl_cons, remembered, List.getLast?_concat, Option.some.injEq]
      by_cases hsame : last = value
      · rw [if_pos hsame, ih, List.destutter'_cons_neg _ (not_not.2 hsame)]
      · rw [if_neg hsame, ih, List.destutter'_cons_pos _ hsame, List.append_assoc,
          List.singleton_append]
  cases values with
  | nil => rfl
  | cons value rest => exact hbehind [] rest value

/-! ### Slots -/

/-- What a resource has: properties and attributes. -/
inductive SlotGroup where
  | properties
  | attributes

def SlotGroup.of : SlotGroup → Resource → PropertyMap
  | .properties, r => r.properties
  | .attributes, r => r.attributes

/-- The types of a property, oldest first. -/
def Property.history (p : Property) : List PropertyType := p.previousTypes ++ [p.type]

namespace Database

/-- The resource of a name. -/
def named? (db : Database) (typeName : String) : Option Resource :=
  (db.resources.all.map Record.entity).find? fun r => r.typeName == typeName

/-- A property or an attribute of the resource of a name. -/
def slot? (db : Database) (typeName : String) (group : SlotGroup) (name : String) :
    Option Property :=
  (db.named? typeName).bind fun r => Keyed.get? name (group.of r)

/-- The text of its type. -/
def slotText? (db : Database) (typeName : String) (group : SlotGroup) (name : String) :
    Option String :=
  (db.slot? typeName group name).bind fun p => (db.render p.type).toOption

/-- What a database tells of a slot: there is no resource of the name yet, or the slot is there and
its types have these texts. -/
def Tells (db : Database) (typeName : String) (group : SlotGroup) (name : String) :
    List String → Prop
  | [] => db.named? typeName = none
  | texts => ∃ p, db.slot? typeName group name = some p ∧
      p.history.map db.render = texts.map Except.ok

variable {db before after : Database} {typeName name : String} {group : SlotGroup}
  {supply : Supply} {texts : List String}

theorem tells_iff (hne : texts ≠ []) : db.Tells typeName group name texts ↔
    ∃ p, db.slot? typeName group name = some p ∧
      p.history.map db.render = texts.map Except.ok := by
  cases texts with
  | nil => exact absurd rfl hne
  | cons first rest => exact Iff.rfl

theorem named?_of_mem (h : db.Consistent supply) {r : Record Resource} (hr : r ∈ db.resources.all)
    (hname : r.entity.typeName = typeName) : db.named? typeName = some r.entity := by
  rw [named?, List.find?_map, Option.map_eq_some_iff]
  refine ⟨r, ?_, rfl⟩
  cases hfound : db.resources.all.find? ((fun r => r.typeName == typeName) ∘ Record.entity) with
  | none => exact absurd (beq_iff_eq.2 hname) (List.find?_eq_none.1 hfound r hr)
  | some other =>
    have hother := List.mem_of_find?_eq_some hfound
    have hsame : other.entity.typeName = typeName := by simpa using List.find?_some hfound
    rw [List.inj_on_of_nodup_map h.resources.unique hother hr (hsame.trans hname.symm)]

theorem exists_of_named? {r : Resource} (h : db.named? typeName = some r) :
    ∃ record ∈ db.resources.all, record.entity = r ∧ r.typeName = typeName := by
  obtain ⟨record, hrecord, rfl⟩ := List.mem_map.1 (List.mem_of_find?_eq_some h)
  exact ⟨record, hrecord, rfl, by simpa using List.find?_some h⟩

theorem named?_eq_none_iff :
    db.named? typeName = none ↔ ¬∃ r ∈ db.resources.all, r.entity.typeName = typeName := by
  rw [named?, List.find?_eq_none]
  simp

/-- What the types of a slot mention is there. -/
theorem references_subset_of_get? (h : db.Consistent supply) {r : Record Resource}
    (hr : r ∈ db.resources.all) {p : Property} (hget : Keyed.get? name (group.of r.entity) = some p)
    {type : PropertyType} (htype : type ∈ p.history) : type.references ⊆ db.typeDefinitions.ids := by
  have hslot : p ∈ r.entity.slots := by
    have hvalue := List.mem_map_of_mem (f := Prod.snd) (Keyed.mem_of_get? hget)
    cases group with
    | properties => exact List.mem_append_left _ hvalue
    | attributes => exact List.mem_append_right _ hvalue
  intro id hid
  refine h.mem_ids_of_mentioned hr ?_
  rcases List.mem_append.1 htype with hprevious | hcurrent
  · exact Or.inr (Resource.mem_previousReferences.2 ⟨p, hslot, type, hprevious, hid⟩)
  · rw [List.mem_singleton.1 hcurrent] at hid
    exact Or.inl (Resource.mem_currentReferences.2 ⟨p, hslot, hid⟩)

theorem references_subset_of_slot? (h : db.Consistent supply) {p : Property}
    (hp : db.slot? typeName group name = some p) {type : PropertyType} (htype : type ∈ p.history) :
    type.references ⊆ db.typeDefinitions.ids := by
  obtain ⟨r, hr, hget⟩ := Option.bind_eq_some_iff.1 hp
  obtain ⟨record, hrecord, rfl, -⟩ := exists_of_named? hr
  exact references_subset_of_get? h hrecord hget htype

/-! ### Steps that leave a slot alone -/

/-- The resource of a name is as before, apart from its mark, and all that is there has kept its
name. -/
structure Spares (typeName : String) (before after : Database) : Prop where
  resource : (after.named? typeName).map Resource.unmarked =
    (before.named? typeName).map Resource.unmarked
  names : before.KeepsNames after

theorem slot?_eq (db : Database) (typeName : String) (group : SlotGroup) (name : String) :
    db.slot? typeName group name = ((db.named? typeName).map Resource.unmarked).bind
      fun r => Keyed.get? name (group.of r) := by
  rw [slot?]
  cases db.named? typeName with
  | none => rfl
  | some r => cases group <;> rfl

theorem Spares.tells (h : Spares typeName before after) (hafter : after.Consistent supply)
    (htells : before.Tells typeName group name texts) : after.Tells typeName group name texts := by
  cases texts with
  | nil =>
    have hnone : (after.named? typeName).map Resource.unmarked = none := by
      rw [h.resource, show before.named? typeName = none from htells]
      rfl
    exact Option.map_eq_none_iff.1 hnone
  | cons text rest =>
    obtain ⟨p, hp, htexts⟩ := htells
    have hslot : after.slot? typeName group name = some p := by
      rw [slot?_eq, h.resource, ← slot?_eq, hp]
    exact ⟨p, hslot, h.names.map_render
      (fun type htype => references_subset_of_slot? hafter hslot htype) htexts⟩

theorem Spares.refl (typeName : String) (db : Database) : Spares typeName db db :=
  ⟨rfl, KeepsNames.refl db⟩

end Database

namespace Building

variable {typeName : String} {legacy : Option LegacySpec} {before left : Builder}
  {document? : Option Json} {supply : Supply}

/-! ### An import of another resource -/

/-- An import keeps the names of the definitions that are still there. -/
theorem Imported.keepsNames (h : Imported typeName legacy before left document?) :
    before.database.KeepsNames left.database := by
  cases h with
  | ignored h =>
    rw [h]
    exact Database.KeepsNames.refl _
  | interpreted hopened hstarted hpointer hsketch =>
    refine Database.KeepsNames.of_extends ?_ hsketch.interpreted.keepsNames_typed
    rw [← hopened.typeName_eq]
    exact hsketch.interpreted.extends_typed hsketch.consistent.typeDefinitions.coherent

theorem named?_eq_of_matched {a b : Database} {supply supply' : Supply}
    (ha : a.Consistent supply) (hb : b.Consistent supply')
    (h : Matched typeName (Keeps a b) a b) : b.named? typeName = a.named? typeName := by
  by_cases hthere : ∃ r ∈ a.resources.all, r.entity.typeName = typeName
  · obtain ⟨s, hs, hname'⟩ := h.there.1 hthere
    obtain ⟨r, hr, hname⟩ := hthere
    rw [Database.named?_of_mem ha hr hname, Database.named?_of_mem hb hs hname',
      (h.agree r hr s hs hname hname').entity]
  · rw [Database.named?_eq_none_iff.2 hthere, Database.named?_eq_none_iff.2 (mt h.there.2 hthere)]

theorem Imported.spares (h : Imported typeName legacy before left document?)
    (hbefore : before.database.Consistent supply) (hleft : left.database.Consistent left.supply)
    {other : String} (hother : document? = none ∨ other ≠ typeName) :
    Database.Spares other before.database left.database := by
  refine ⟨?_, h.keepsNames⟩
  rcases hother with rfl | hother
  · cases h with
    | ignored h => rw [h]
  · rw [named?_eq_of_matched hbefore hleft (h.matched hbefore hother)]

/-! ### An import of the resource -/

variable {document : Json} {db : Database} {group : SlotGroup} {name text : String}
  {texts : List String} {p q : Property}

/-- What old properties tell of a name: it is not there, or its types have these texts. -/
def RemembersTexts (db : Database) (old : PropertyMap) (name : String) (texts : List String) :
    Prop :=
  match Keyed.get? name old with
  | none => texts = []
  | some p => p.history.map db.render = texts.map Except.ok

/-- The types of a property that remembers an old one have the texts of the old types, and behind
them the text of the new type if it is another one. -/
theorem map_render_history_remember {old : PropertyMap} (hold : RemembersTexts db old name texts)
    (htext : db.render q.type = .ok text) (hprevious : q.previousTypes = []) :
    (remember db old name q).history.map db.render = (remembered texts text).map Except.ok := by
  rw [RemembersTexts] at hold
  split at hold
  · next hnone =>
    rw [hold, remember, hnone, Property.history, hprevious]
    exact congrArg (· :: []) htext
  next p hsome =>
  obtain ⟨front, last, rfl⟩ : ∃ front last, texts = front ++ [last] := by
    have hne : texts ≠ [] := by
      rintro rfl
      simp [Property.history] at hold
    exact ⟨_, _, (List.dropLast_append_getLast hne).symm⟩
  rw [Property.history, List.map_append, List.map_append] at hold
  obtain ⟨hfront, hlast⟩ := List.append_inj' hold rfl
  replace hlast : db.render p.type = .ok last := (List.cons.inj hlast).1
  have hupdate : p.updateType db q.type = if last = text then .ok (false, p) else
      .ok (true, { p with type := q.type, previousTypes := p.previousTypes ++ [p.type] }) := by
    rw [Property.updateType, hlast, htext]
    rfl
  have hremember : remember db old name q = { q with
      previousTypes := if last = text then p.previousTypes else p.previousTypes ++ [p.type] } := by
    rw [remember, hsome]
    dsimp only
    rw [hupdate]
    by_cases hsame : last = text
    · rw [if_pos hsame, if_pos hsame]
    · rw [if_neg hsame, if_neg hsame]
  rw [hremember]
  simp only [Property.history, remembered, List.getLast?_concat, Option.some.injEq]
  by_cases hsame : last = text
  · simp [hfront, htext, hsame]
  · simp [hsame, hfront, hlast, htext]

/-- What is told of a slot is what the resource has when it has been opened. -/
theorem Opened.remembersTexts {before after : Database} {r : Record Resource}
    {supply supply' : Supply} (h : Opened before typeName r after)
    (hstarted : Started after typeName r) (hbefore : before.Consistent supply)
    (hafter : after.Consistent supply') (htells : before.Tells typeName group name texts) :
    RemembersTexts after (group.of r.entity) name texts := by
  rw [RemembersTexts]
  cases texts with
  | nil =>
    have hfresh := (h.fresh hstarted hafter hbefore (Database.named?_eq_none_iff.1 htells)).1
    have hget : Keyed.get? name (group.of r.entity) = none := by
      rw [hfresh]
      cases group <;> rfl
    rw [hget]
  | cons first rest =>
    obtain ⟨p, hp, htexts⟩ := htells
    obtain ⟨e, he, hget⟩ := Option.bind_eq_some_iff.1 hp
    obtain ⟨record, hrecord, rfl, hname⟩ := Database.exists_of_named? he
    rw [h.eq_of_mem hstarted hafter hrecord hname] at hget
    have hrender : after.render = before.render := by
      funext type
      rw [Database.render, h.typeName_eq, Database.render]
    rw [hget, hrender]
    exact htexts

section Interpreted

variable {started : Builder} {r : Record Resource} {found : Findings}
  (h : Interpreted typeName legacy document started r found left)

include h

/-- Typing does not change the texts of the old types. -/
theorem Interpreted.remembersTexts (hstarted : started.database.Consistent started.supply)
    (hr : r ∈ started.database.resources.all)
    (hold : RemembersTexts started.database (group.of r.entity) name texts) :
    RemembersTexts found.typed.database (group.of r.entity) name texts := by
  rw [RemembersTexts] at hold ⊢
  cases hget : Keyed.get? name (group.of r.entity) with
  | none =>
    rw [hget] at hold
    exact hold
  | some p =>
    rw [hget] at hold
    have hkept : started.database.KeepsNames found.typed.database := fun id _ =>
      h.extends_typed hstarted.typeDefinitions.coherent id
    refine hkept.map_render (fun type htype => ?_) hold
    exact List.Subset.trans (Database.references_subset_of_get? hstarted hr hget htype)
      h.progress.ids_subset

/-- The resource that an import makes is the one of its name. -/
theorem Interpreted.named? (hr : r ∈ started.database.resources.all)
    (hname : r.entity.typeName = typeName) :
    left.database.named? typeName = some (found.resource typeName legacy document r.entity) := by
  have hmem : ⟨r.id, found.resource typeName legacy document r.entity⟩ ∈
      left.database.resources.all := by
    rw [h.resources]
    exact List.mem_map.2 ⟨r, hr, if_pos rfl⟩
  exact Database.named?_of_mem h.consistent hmem hname

end Interpreted

theorem get?_remembering_eq (db : Database) (old : PropertyMap) (name : String)
    (properties : PropertyMap) :
    Keyed.get? name (remembering db old properties) =
      (Keyed.get? name properties).map (remember db old name) :=
  Keyed.get?_map (fun name p => remember db old name p) name properties

/-- What typing finds for a group of slots. -/
def Findings.of (found : Findings) : SlotGroup → PropertyMap
  | .properties => found.properties
  | .attributes => found.attributes

theorem Interpreted.propertyWithin_of {started : Builder} {r : Record Resource}
    {found : Findings} (h : Interpreted typeName legacy document started r found left)
    (hq : Keyed.get? name (found.of group) = some q) :
    Typing.PropertyWithin q found.typed.found := by
  cases group with
  | properties => exact h.properties.within _ (Keyed.mem_of_get? hq)
  | attributes => exact h.attributes.within _ (Keyed.mem_of_get? hq)

/-- A slot has the type that was found and the history that it remembers. -/
theorem exists_remember_of_get? {found : Findings} {old : Resource}
    (h : Keyed.get? name (group.of (found.resource typeName legacy document old)) = some p) :
    ∃ q, Keyed.get? name (found.of group) = some q ∧ p.type = q.type ∧
      p.history = (remember found.typed.database (group.of old) name q).history := by
  cases group with
  | properties =>
    change Keyed.get? name (marked document (remembering _ _ _)) = some p at h
    cases hget : Keyed.get? name (remembering found.typed.database old.properties found.properties)
    case none =>
      rw [Keyed.get?_eq_none_iff, ← keys_marked document, ← Keyed.get?_eq_none_iff, h] at hget
      cases hget
    case some kept =>
      obtain ⟨q', hq', htype, hprevious⟩ := exists_get?_marked document hget
      obtain rfl := Option.some.inj (h.symm.trans hq')
      rw [get?_remembering_eq] at hget
      obtain ⟨q, hq, rfl⟩ := Option.map_eq_some_iff.1 hget
      refine ⟨q, hq, htype.trans (keepsTypes_remember _ _ _ _).1, ?_⟩
      rw [Property.history, htype, hprevious]
      rfl
  | attributes =>
    change Keyed.get? name (remembering _ _ _) = some p at h
    rw [get?_remembering_eq] at h
    obtain ⟨q, hq, rfl⟩ := Option.map_eq_some_iff.1 h
    exact ⟨q, hq, (keepsTypes_remember _ _ _ _).1, rfl⟩

/-- An import adds to the history of a slot what is new in it. -/
theorem Imported.tells (h : Imported typeName legacy before left (some document))
    (hbefore : before.database.Consistent supply)
    (htells : before.database.Tells typeName group name texts)
    (htext : left.database.slotText? typeName group name = some text) :
    left.database.Tells typeName group name (remembered texts text) := by
  cases h with
  | @interpreted _ started r found _ hopened hstarted hpointer hsketch =>
    have hinterpreted := hsketch.interpreted
    obtain ⟨p, hslot, hrender⟩ := Option.bind_eq_some_iff.1 htext
    have hmentioned : ∀ type ∈ p.history, type.references ⊆ left.database.typeDefinitions.ids :=
      fun type htype => Database.references_subset_of_slot? hinterpreted.consistent hslot htype
    suffices htexts : p.history.map left.database.render = (remembered texts text).map Except.ok by
      refine (Database.tells_iff fun hnil => ?_).2 ⟨p, hslot, htexts⟩
      have hlast := getLast?_remembered texts text
      rw [hnil] at hlast
      cases hlast
    refine hinterpreted.keepsNames_typed.map_render hmentioned ?_
    rw [Database.slot?, hinterpreted.named? hsketch.mem hstarted.name, Option.bind_some] at hslot
    obtain ⟨q, hq, htype, hhistory⟩ := exists_remember_of_get? hslot
    obtain ⟨hwithin, hnone⟩ := hinterpreted.propertyWithin_of hq
    -- the new type has the same text when it has been typed and in the end
    obtain ⟨typedText, htyped⟩ := Database.render_ok hinterpreted.progress.definitions.coherent
      (List.Subset.trans hwithin hinterpreted.progress.present)
    have hend := hinterpreted.keepsNames_typed.render
      (hmentioned p.type (List.mem_append_right _ (List.mem_singleton_self _))) (htype ▸ htyped)
    obtain rfl : typedText = text := by
      rw [hend] at hrender
      exact Option.some.inj hrender
    rw [hhistory]
    exact map_render_history_remember (hinterpreted.remembersTexts hsketch.consistent hsketch.mem
      (hopened.remembersTexts hstarted hbefore hsketch.consistent htells)) htyped hnone

end Building

/-! ### Runs -/

namespace BuildStep

open Building

variable {builder : Builder} {typeName name : String} {group : SlotGroup} {texts : List String}

/-- The name of the resource that a step imports, if the import gives one. -/
def importedName? (builder : Builder) : BuildStep → Option String
  | .importDocument typeName document legacy =>
    match ((importResource typeName document legacy).run.run builder).1 with
    | .ok (some _) => some typeName
    | _ => none
  | _ => none

/-- The databases right after the imports of a resource in a run. -/
def afterImports (typeName : String) (builder : Builder) : List BuildStep → List Database
  | [] => []
  | step :: rest =>
    let left := run builder step
    if importedName? builder step = some typeName then
      left.database :: afterImports typeName left rest
    else afterImports typeName left rest

theorem outcome_eq_ok_true_iff {rules : RuleBook} {document : Json} :
    outcome rules typeName document = .ok true ↔
      (interpretable? rules typeName document).isSome = true := by
  rw [outcome, interpretable?]
  split
  · cases settle (rules.ruleFor typeName) typeName document with
    | ok settled => exact iff_of_true rfl rfl
    | error unsettled => simp
  · simp

theorem importedName?_importDocument (h : builder.database.Consistent builder.supply)
    (document : Json) (legacy : Option LegacySpec) :
    importedName? builder (.importDocument typeName document legacy) =
      (interpretable? builder.rules typeName document).map fun _ => typeName := by
  have houtcome := outcome_importResource h typeName document legacy
  rw [importedName?]
  generalize ((importResource typeName document legacy).run.run builder).1 = result at houtcome ⊢
  by_cases hsome : (interpretable? builder.rules typeName document).isSome = true
  · rw [outcome_eq_ok_true_iff.2 hsome] at houtcome
    obtain ⟨settled, hsettled⟩ := Option.isSome_iff_exists.1 hsome
    rw [hsettled]
    match result with
    | .ok (some _) => rfl
    | .ok none => cases houtcome
    | .error _ => cases houtcome
  · rw [Option.not_isSome_iff_eq_none.1 hsome]
    match result with
    | .ok (some _) => exact absurd (outcome_eq_ok_true_iff.1 houtcome.symm) hsome
    | .ok none => rfl
    | .error _ => rfl

/-- Marks do not change what a name stands for, and regions are not looked at. -/
theorem unbound_spares (typeName : String) (before : Database) :
    Binding.Unbound (Database.Spares typeName before) where
  resources := by
    intro db resources h hunmarked
    have hnamed : ∀ db : Database, (db.named? typeName).map Resource.unmarked =
        ((db.resources.all.map fun r => (r.id, r.entity.unmarked)).find?
          fun entry => entry.2.typeName == typeName).map Prod.snd := by
      intro db
      rw [Database.named?, List.find?_map, List.find?_map, Option.map_map, Option.map_map]
      rfl
    refine ⟨?_, h.names⟩
    rw [← h.resource, hnamed, hnamed, ← hunmarked]
  regions := fun _ _ _ h => ⟨h.resource, h.names⟩

theorem spares_run (h : builder.database.Consistent builder.supply) {step : BuildStep}
    (hother : importedName? builder step ≠ some typeName) :
    Database.Spares typeName builder.database (run builder step).database := by
  have hleft := (consistent_run h step).1
  cases step with
  | importDocument other document legacy =>
    refine (imported_importResource h other document legacy).1.spares h hleft ?_
    rw [importedName?_importDocument h] at hother
    cases hdocument : interpretable? builder.rules other document with
    | none => exact Or.inl rfl
    | some settled =>
      rw [hdocument] at hother
      exact Or.inr fun hsame => hother (congrArg some hsame.symm)
  | markStateful names =>
    exact (consistent_bind (Binding.ends_markStateful_of_unbound (unbound_spares typeName _) h
      (Database.Spares.refl typeName _) names)).2
  | linkRegion region names =>
    exact (consistent_bind (Binding.ends_linkRegion_of_unbound (unbound_spares typeName _) h
      (Database.Spares.refl typeName _) region names)).2

theorem tells_run (h : builder.database.Consistent builder.supply) {step : BuildStep}
    (himport : importedName? builder step = some typeName) {text : String}
    (htells : builder.database.Tells typeName group name texts)
    (htext : (run builder step).database.slotText? typeName group name = some text) :
    (run builder step).database.Tells typeName group name (remembered texts text) := by
  cases step with
  | importDocument other document legacy =>
    have himported := (imported_importResource h other document legacy).1
    rw [importedName?_importDocument h] at himport
    obtain ⟨settled, hsettled, rfl⟩ := Option.map_eq_some_iff.1 himport
    rw [hsettled] at himported
    exact himported.tells h htells htext
  | markStateful names => cases himport
  | linkRegion region names => cases himport

/-- A run adds to the history of a slot what is new in each import of its resource. -/
theorem tells_runAll (h : builder.database.Consistent builder.supply) {before : List String}
    (htells : builder.database.Tells typeName group name before) (steps : List BuildStep)
    (htexts : (afterImports typeName builder steps).map
      (fun db => db.slotText? typeName group name) = texts.map some) :
    (runAll builder steps).database.Tells typeName group name (texts.foldl remembered before) := by
  induction steps generalizing builder before texts with
  | nil =>
    obtain rfl := List.map_eq_nil_iff.1 htexts.symm
    exact htells
  | cons step rest ih =>
    have hleft := (consistent_run h step).1
    rw [afterImports] at htexts
    by_cases himport : importedName? builder step = some typeName
    · rw [if_pos himport, List.map_cons, eq_comm, List.map_eq_cons_iff] at htexts
      obtain ⟨text, later, rfl, htext, hlater⟩ := htexts
      rw [List.foldl_cons]
      exact ih hleft (tells_run h himport htells htext.symm) hlater.symm
    · rw [if_neg himport] at htexts
      exact ih hleft ((spares_run h himport).tells hleft htells) htexts

/-- A resource is imported at least once, from the empty database on, and among any other steps. If
a property or an attribute of it has these types after the imports, then the types that it remembers
in the end are these without repetitions in a row, apart from the last one, which it has. All types
are told by their texts. -/
theorem history_runAll_empty (supply : Supply) (rules : RuleBook) (attributePointer : String)
    (report : BuildReport) (imported : Nat) (steps : List BuildStep) (typeName : String)
    (group : SlotGroup) (name : String) {texts : List String} (hne : texts ≠ [])
    (htexts : (afterImports typeName
      ⟨Database.empty, supply, rules, attributePointer, report, imported⟩ steps).map
        (fun db => db.slotText? typeName group name) = texts.map some) :
    let db := (runAll ⟨Database.empty, supply, rules, attributePointer, report, imported⟩
      steps).database
    ∃ p, db.slot? typeName group name = some p ∧
      p.previousTypes.map db.render =
        ((texts.destutter (· ≠ ·)).dropLast).map Except.ok ∧
      (db.render p.type).toOption = texts.getLast? := by
  intro db
  have hempty : Database.empty.Tells typeName group name [] := rfl
  have htells : db.Tells typeName group name (texts.foldl remembered []) :=
    tells_runAll (Database.consistent_empty supply) hempty steps htexts
  have hlast : (texts.foldl remembered []).getLast? = texts.getLast? := by
    obtain ⟨front, last, rfl⟩ : ∃ front last, texts = front ++ [last] :=
      ⟨_, _, (List.dropLast_append_getLast hne).symm⟩
    rw [List.foldl_append, List.getLast?_concat]
    exact getLast?_remembered _ last
  rw [← hlast, ← foldl_remembered]
  generalize texts.foldl remembered [] = told at htells hlast ⊢
  obtain ⟨front, last, rfl⟩ : ∃ front last, told = front ++ [last] := by
    have hne' : told ≠ [] := by
      rintro rfl
      exact hne (List.getLast?_eq_none_iff.1 hlast.symm)
    exact ⟨_, _, (List.dropLast_append_getLast hne').symm⟩
  obtain ⟨p, hp, hhistory⟩ := Database.tells_iff (List.concat_ne_nil _ _) |>.1 htells
  rw [Property.history, List.map_append, List.map_append] at hhistory
  obtain ⟨hprevious, hcurrent⟩ := List.append_inj' hhistory rfl
  refine ⟨p, hp, ?_, ?_⟩
  · rw [List.dropLast_concat]
    exact hprevious
  · rw [show db.render p.type = .ok last from (List.cons.inj hcurrent).1, List.getLast?_concat]
    rfl

/-- A document that declares a length. -/
def lengthDocument (schema : Json) : Json := .obj [("properties", .obj [("Length", schema)])]

/-- A length with a unit. -/
def unitRecord : Json :=
  .obj [("properties", .obj [("Unit", .obj [("type", .str "string")])]), ("type", .str "object")]

/-- A length that is a number, then twice a record, then a number and a text, while another resource
is imported, too. -/
def lengthSteps : List BuildStep :=
  [.importDocument "A::B::C" (lengthDocument (.obj [("type", .str "number")])) none,
    .importDocument "A::B::C" (lengthDocument unitRecord) none,
    .importDocument "A::B::D" (lengthDocument unitRecord) none,
    .importDocument "A::B::C" (lengthDocument unitRecord) none,
    .importDocument "A::B::C" (lengthDocument (.obj [("type", .str "number")])) none,
    .importDocument "A::B::C" (lengthDocument (.obj [("type", .str "string")])) none]

/-- The record is remembered once, under the name of its definition, which is not used any more. -/
theorem history_lengthSteps :
    let db := (runAll bareBuilder lengthSteps).database
    (afterImports "A::B::C" bareBuilder lengthSteps).map
        (fun db => db.slotText? "A::B::C" .properties "Length") =
      ["number", "Length", "Length", "number", "string"].map some ∧
    ∃ p, db.slot? "A::B::C" .properties "Length" = some p ∧
      p.previousTypes.map db.render = ["number", "Length", "number"].map Except.ok ∧
      (db.render p.type).toOption = some "string" := by
  have htexts : (afterImports "A::B::C" bareBuilder lengthSteps).map
      (fun db => db.slotText? "A::B::C" .properties "Length") =
        ["number", "Length", "Length", "number", "string"].map some := by decide +kernel
  exact ⟨htexts, history_runAll_empty Supply.full RuleBook.empty defaultAttributePointer
    BuildReport.empty 0 lengthSteps "A::B::C" .properties "Length" (by decide) htexts⟩

end BuildStep

end ResourceCatalog
