import Mathlib
import ResourceCatalog.Proofs.Import.Neighbours

/-!
# Definitions that stay behind

Pruning looks at the definitions that a resource used before the import, and removes those that it
does not reach any more. A definition that only the history of the resource mentions is not used, so
pruning never looks at it again. If an import takes the last mention away, the definition stays in
the collection although nothing leads to it. This is the only way in which definitions stay behind:
`leftover_runAll_empty_iff`.
-/

namespace ResourceCatalog

namespace Database

/-- A definition that a resource uses, that its properties and attributes mention, also in the types
they had before, or that such a definition leads to. -/
inductive ReachedFrom (db : Database) (r : Record Resource) : Identity → Prop
  | mentioned {id : Identity} (h : id ∈ db.mentions r) : ReachedFrom db r id
  | through {d : Record TypeDefinition} {id : Identity} (hd : d ∈ db.typeDefinitions.all)
      (hreach : ReachedFrom db r d.id) (h : id ∈ PropertyMap.references d.entity.properties) :
      ReachedFrom db r id

/-- Some resource reaches the definition. -/
def Reached (db : Database) (id : Identity) : Prop :=
  ∃ r ∈ db.resources.all, db.ReachedFrom r id

/-- The definition is there, but no resource reaches it. -/
structure Leftover (db : Database) (id : Identity) : Prop where
  present : id ∈ db.typeDefinitions.ids
  unreached : ¬db.Reached id

/-- The resource of a name reached a definition that nobody used, and nothing reaches it any
more. -/
structure Forgets (typeName : String) (before after : Database) (id : Identity) : Prop where
  remembered : ∃ r ∈ before.resources.all, r.entity.typeName = typeName ∧ before.ReachedFrom r id
  unused : ∀ user, ¬before.usesType.Joins user id
  lost : ¬after.Reached id

variable {db a b : Database} {supply : Supply} {r s : Record Resource} {id : Identity}

theorem mem_mentions : id ∈ db.mentions r ↔ (id ∈ r.entity.currentReferences ∨
    id ∈ r.entity.previousReferences) ∨ db.usesType.Joins r.id id := by
  rw [mentions, List.mem_append, Resource.mem_references_slots, List.mem_map]
  rfl

theorem mentions_eq (hslots : s.entity.slots = r.entity.slots)
    (huses : b.usesType.outgoing s.id = a.usesType.outgoing r.id) (id : Identity) :
    id ∈ b.mentions s ↔ id ∈ a.mentions r := by
  rw [mem_mentions, mem_mentions, Edges.Joins, Edges.Joins, huses, Resource.currentReferences,
    Resource.currentReferences, Resource.previousReferences, Resource.previousReferences, hslots]

/-- What is reached is reached elsewhere, too, if the definitions on the way are there. -/
theorem ReachedFrom.mono (h : a.ReachedFrom r id)
    (hmentions : ∀ id, id ∈ a.mentions r → id ∈ b.mentions s)
    (hdefinitions : ∀ d ∈ a.typeDefinitions.all, a.ReachedFrom r d.id →
      d ∈ b.typeDefinitions.all) : b.ReachedFrom s id := by
  induction h with
  | mentioned h => exact .mentioned (hmentions _ h)
  | through hd hreach h ih => exact .through (hdefinitions _ hd hreach) ih h

theorem Reached.of_joins (h : db.Consistent supply) {user : Identity}
    (hjoin : db.usesType.Joins user id) : db.Reached id := by
  obtain ⟨r, hr, rfl⟩ := Collection.mem_ids.1 (h.usesType.ends user id hjoin).1
  exact ⟨r, hr, .mentioned (mem_mentions.2 (Or.inr hjoin))⟩

theorem ReachedFrom.present (h : db.Consistent supply) (hr : r ∈ db.resources.all)
    (hreach : db.ReachedFrom r id) : id ∈ db.typeDefinitions.ids := by
  cases hreach with
  | mentioned hid => exact h.mentions_subset hr hid
  | through hd _ hid => exact (h.generations.together _ hd _ hid).1

/-- A resource uses what it reaches, or nobody does. -/
theorem ReachedFrom.joins_or_unused (h : db.Consistent supply) (hr : r ∈ db.resources.all)
    (hreach : db.ReachedFrom r id) :
    db.usesType.Joins r.id id ∨ ∀ user, ¬db.usesType.Joins user id := by
  induction hreach with
  | mentioned hid =>
    rcases mem_mentions.1 hid with (hcurrent | hprevious) | hjoin
    · exact Or.inl (h.generations.current r hr _ hcurrent)
    · exact Or.inr (h.generations.previous r hr _ hprevious).2
    · exact Or.inl hjoin
  | through hd _ hid ih =>
    have htogether := (h.generations.together _ hd _ hid).2
    exact ih.imp (htogether r.id).1 fun hnone user => mt (htogether user).2 (hnone user)

theorem not_forgets_self {typeName : String} : ¬Forgets typeName db db id := by
  rintro ⟨⟨r, hr, -, hreach⟩, -, hlost⟩
  exact hlost ⟨r, hr, hreach⟩

end Database

namespace Building

/-! ### One import -/

section Sketched

variable {typeName : String} {legacy : Option LegacySpec} {document : Json}
  {started left : Builder} {r : Record Resource} {found : Findings} {sketch : Typing.Sketch}
  (h : Sketched typeName legacy document started r found left sketch) {id : Identity}

include h

theorem Sketched.mem_left : (⟨r.id, found.resource typeName legacy document r.entity⟩ :
    Record Resource) ∈ left.database.resources.all := by
  rw [h.interpreted.resources]
  exact List.mem_map.2 ⟨r, h.mem, if_pos rfl⟩

theorem Sketched.mem_left_iff {d : Record TypeDefinition} :
    d ∈ left.database.typeDefinitions.all ↔ d ∈ found.typed.database.typeDefinitions.all ∧
      (started.database.usesType.Joins r.id d.id → d.id ∈ found.live) := by
  rw [h.interpreted.definitions, List.mem_filter, decide_eq_true_eq, List.mem_map]
  rfl

/-- The resource reaches what pruning has found. -/
theorem Sketched.reached_of_live (hlive : id ∈ found.live) : left.database.Reached id := by
  refine ⟨_, h.mem_left, ?_⟩
  have hinside : ∀ id ∈ found.live, id ∈ found.live ∧
      left.database.ReachedFrom ⟨r.id, found.resource typeName legacy document r.entity⟩ id := by
    apply h.interpreted.live.least
    · rintro d hd ⟨hdlive, hreach⟩ id hid
      exact ⟨h.interpreted.live.closed d hd hdlive hid,
        .through (h.mem_left_iff.2 ⟨hd, fun _ => hdlive⟩) hreach hid⟩
    · intro id hid
      exact ⟨h.interpreted.live.mentioned hid, .mentioned hid⟩
  exact (hinside id hlive).2

/-- What was used before and is still there is reached. -/
theorem Sketched.reached_of_joins (hid : id ∈ left.database.typeDefinitions.ids) {user : Identity}
    (hjoin : started.database.usesType.Joins user id) : left.database.Reached id := by
  by_cases huser : user = r.id
  · subst huser
    obtain ⟨d, hd, rfl⟩ := Collection.mem_ids.1 hid
    exact h.reached_of_live ((h.mem_left_iff.1 hd).2 hjoin)
  · have hstill : left.database.usesType.Joins user id := by
      rw [Edges.Joins, h.outgoing_of_ne huser]
      exact hjoin
    exact .of_joins h.interpreted.consistent hstill

/-- What another resource reached is reached by it still: nothing on the way is pruned. -/
theorem Sketched.reached_of_other {other : Record Resource}
    (hother : other ∈ started.database.resources.all) (hne : other.id ≠ r.id)
    (hreach : started.database.ReachedFrom other id) : left.database.Reached id := by
  refine ⟨other, ?_, hreach.mono (fun id hid => ?_) fun d hd hway => ?_⟩
  · rw [h.interpreted.resources]
    exact List.mem_map.2 ⟨other, hother, if_neg hne⟩
  · exact (Database.mentions_eq rfl (h.outgoing_of_ne hne) id).2 hid
  · refine h.mem_left_iff.2 ⟨h.interpreted.progress.old d hd, fun hjoin => ?_⟩
    rcases hway.joins_or_unused h.consistent hother with hown | hunused
    · exact absurd (h.consistent.generations.oneUser _ _ _ hown hjoin) hne
    · exact absurd hjoin (hunused r.id)

/-- Nothing comes within reach by an import, apart from what is new. -/
theorem Sketched.found_or_reached (hreach : left.database.Reached id) :
    id ∈ found.typed.found ∨ started.database.Reached id := by
  have hp := h.interpreted.progress
  have hrenews : r.entity.Renews (found.resource typeName legacy document r.entity)
      found.typed.found :=
    renews_renewed h.interpreted.properties h.interpreted.attributes
  obtain ⟨other, hother, hreach⟩ := hreach
  induction hreach with
  | mentioned hid =>
    rw [Database.mem_mentions] at hid
    rcases h.interpreted.mem_resources hother with rfl | ⟨hne, hold⟩
    · rcases hid with (hid | hid) | hid
      · exact Or.inl (hrenews.current hid)
      · refine Or.inr ⟨r, h.mem, .mentioned ?_⟩
        exact Database.mem_mentions.2 (Or.inl (hrenews.previous hid))
      · rw [h.interpreted.usesType, hp.joins_iff h.consistent] at hid
        exact Or.inl (hid.resolve_left fun hold => hold.1 rfl).2
    · refine Or.inr ⟨other, hold, .mentioned (Database.mem_mentions.2 ?_)⟩
      rwa [Edges.Joins, h.outgoing_of_ne hne] at hid
  | through hd _ hid ih =>
    rcases hp.stored _ (h.mem_left_iff.1 hd).1 with hold | ⟨-, hmentions⟩
    · have hnot := hp.not_found (Collection.mem_ids.2 ⟨_, hold, rfl⟩)
      obtain ⟨user, huser, hway⟩ := ih.resolve_left hnot
      exact Or.inr ⟨user, huser, .through hold hway hid⟩
    · exact Or.inl (hmentions hid)

theorem Sketched.present_of_unused (hid : id ∈ started.database.typeDefinitions.ids)
    (hunused : ∀ user, ¬started.database.usesType.Joins user id) :
    id ∈ left.database.typeDefinitions.ids := by
  obtain ⟨d, hd, rfl⟩ := Collection.mem_ids.1 hid
  exact Collection.mem_ids.2 ⟨d, h.mem_left_iff.2 ⟨h.interpreted.progress.old d hd,
    fun hjoin => absurd hjoin (hunused r.id)⟩, rfl⟩

/-- A definition stays behind if it has done so before, or if the resource remembered it without
using it and has now forgotten it. -/
theorem Sketched.leftover_iff (hname : r.entity.typeName = typeName) :
    left.database.Leftover id ↔ started.database.Leftover id ∨
      Database.Forgets typeName started.database left.database id := by
  constructor
  · rintro ⟨hpresent, hunreached⟩
    have hunused : ∀ user, ¬started.database.usesType.Joins user id := fun user hjoin =>
      hunreached (h.reached_of_joins hpresent hjoin)
    have hold : id ∈ started.database.typeDefinitions.ids := by
      obtain ⟨d, hd, rfl⟩ := Collection.mem_ids.1 hpresent
      rcases h.interpreted.progress.stored d (h.mem_left_iff.1 hd).1 with hold | ⟨hnew, -⟩
      · exact Collection.mem_ids.2 ⟨d, hold, rfl⟩
      · have hjoin : left.database.usesType.Joins r.id d.id := by
          rw [h.interpreted.usesType, h.interpreted.progress.joins_new_iff h.consistent hnew]
        exact absurd (.of_joins h.interpreted.consistent hjoin) hunreached
    by_cases hreach : started.database.Reached id
    · obtain ⟨other, hother, hway⟩ := hreach
      have hself : other.id = r.id := by
        by_contra hne
        exact hunreached (h.reached_of_other hother hne hway)
      obtain rfl := Collection.eq_of_id_eq h.consistent.resources.coherent.distinct hother h.mem
        hself
      exact Or.inr ⟨⟨other, hother, hname, hway⟩, hunused, hunreached⟩
    · exact Or.inl ⟨hold, hreach⟩
  · rintro (⟨hpresent, hunreached⟩ | ⟨⟨other, hother, -, hway⟩, hunused, hlost⟩)
    · refine ⟨h.present_of_unused hpresent fun user hjoin => ?_, fun hreach => ?_⟩
      · exact hunreached (.of_joins h.consistent hjoin)
      · rcases h.found_or_reached hreach with hfound | hreach
        · exact h.interpreted.progress.not_found hpresent hfound
        · exact hunreached hreach
    · exact ⟨h.present_of_unused (hway.present h.consistent hother) hunused, hlost⟩

end Sketched

section Opened

variable {before after : Database} {typeName : String} {r : Record Resource}
  {supply supply' : Supply} (h : Opened before typeName r after) {id : Identity}

include h

theorem Opened.reachedFrom_iff {other : Record Resource} :
    after.ReachedFrom other id ↔ before.ReachedFrom other id := by
  have hdefinitions : after.typeDefinitions = before.typeDefinitions := by rw [h.kept]
  have huses : after.usesType.outgoing other.id = before.usesType.outgoing other.id := by
    rw [h.kept]
  have hmentions := Database.mentions_eq (r := other) (s := other) rfl huses
  constructor
  · exact fun hreach => hreach.mono (fun id => (hmentions id).1) fun d hd _ => hdefinitions ▸ hd
  · exact fun hreach => hreach.mono (fun id => (hmentions id).2) fun d hd _ => hdefinitions ▸ hd

variable (hbefore : before.Consistent supply) (hafter : after.Consistent supply')

include hbefore hafter

/-- A resource that has just been made reaches nothing. -/
theorem Opened.mem_of_reachedFrom {other : Record Resource}
    (hother : other ∈ after.resources.all) (hreach : after.ReachedFrom other id) :
    other ∈ before.resources.all := by
  induction hreach with
  | mentioned hid =>
    rw [Database.mem_mentions] at hid
    rcases hid with hslots | hjoin
    · rcases h.resources with hall | hall
      · exact hall ▸ hother
      · rw [hall, List.mem_append, List.mem_singleton] at hother
        refine hother.resolve_right fun hnew => ?_
        subst hnew
        exact hslots.elim List.not_mem_nil List.not_mem_nil
    · have huses : after.usesType = before.usesType := by rw [h.kept]
      refine Collection.mem_of_mem_ids h.resources hafter.resources.coherent.distinct hother ?_
      exact (hbefore.usesType.ends _ _ (huses ▸ hjoin)).1
  | through _ _ _ ih => exact ih

theorem Opened.exists_reachedFrom_iff (that : Record Resource → Prop) (id : Identity) :
    (∃ other ∈ after.resources.all, that other ∧ after.ReachedFrom other id) ↔
      ∃ other ∈ before.resources.all, that other ∧ before.ReachedFrom other id := by
  constructor
  · rintro ⟨other, hother, hthat, hreach⟩
    exact ⟨other, h.mem_of_reachedFrom hbefore hafter hother hreach, hthat,
      h.reachedFrom_iff.1 hreach⟩
  · rintro ⟨other, hother, hthat, hreach⟩
    exact ⟨other, Collection.subset_of_all h.resources hother, hthat, h.reachedFrom_iff.2 hreach⟩

theorem Opened.reached_iff : after.Reached id ↔ before.Reached id := by
  have hany := h.exists_reachedFrom_iff hbefore hafter (fun _ => True) id
  simp only [true_and] at hany
  exact hany

theorem Opened.leftover_iff : after.Leftover id ↔ before.Leftover id := by
  have hdefinitions : after.typeDefinitions = before.typeDefinitions := by rw [h.kept]
  constructor
  · rintro ⟨hpresent, hunreached⟩
    exact ⟨hdefinitions ▸ hpresent, mt (h.reached_iff hbefore hafter).2 hunreached⟩
  · rintro ⟨hpresent, hunreached⟩
    exact ⟨hdefinitions ▸ hpresent, mt (h.reached_iff hbefore hafter).1 hunreached⟩

theorem Opened.forgets_iff {left : Database} :
    Database.Forgets typeName after left id ↔ Database.Forgets typeName before left id := by
  have huses : after.usesType = before.usesType := by rw [h.kept]
  have hremembered := h.exists_reachedFrom_iff hbefore hafter
    (fun other => other.entity.typeName = typeName) id
  constructor
  · rintro ⟨hthere, hunused, hlost⟩
    exact ⟨hremembered.1 hthere, huses ▸ hunused, hlost⟩
  · rintro ⟨hthere, hunused, hlost⟩
    exact ⟨hremembered.2 hthere, huses ▸ hunused, hlost⟩

end Opened

theorem Imported.leftover_iff {typeName : String} {legacy : Option LegacySpec}
    {before left : Builder} {document? : Option Json} {supply : Supply}
    (h : Imported typeName legacy before left document?)
    (hbefore : before.database.Consistent supply) {id : Identity} :
    left.database.Leftover id ↔ before.database.Leftover id ∨
      Database.Forgets typeName before.database left.database id := by
  cases h with
  | ignored h =>
    rw [h]
    exact (or_iff_left Database.not_forgets_self).symm
  | interpreted hopened hstarted hpointer hsketch =>
    rw [hsketch.leftover_iff hstarted.name, hopened.leftover_iff hbefore hsketch.consistent,
      hopened.forgets_iff hbefore hsketch.consistent]

end Building

/-! ### Late bindings -/

/-- What does not change what is reached. -/
structure SameMentions (before after : Database) : Prop where
  types : Binding.SameTypes before after
  resources : (after.resources.all.map fun r => (r.id, r.entity.slots)) =
    before.resources.all.map fun r => (r.id, r.entity.slots)

namespace SameMentions

variable {before after : Database} {id : Identity}

theorem unbound (before : Database) : Binding.Unbound (SameMentions before) where
  resources := fun _ _ h hunmarked =>
    ⟨h.types, (Resource.map_slots_of_unmarked hunmarked).trans h.resources⟩
  regions := fun _ _ _ h => ⟨h.types, h.resources⟩

theorem symm (h : SameMentions before after) : SameMentions after before :=
  ⟨⟨h.types.1.symm, h.types.2.symm⟩, h.resources.symm⟩

theorem reached (h : SameMentions before after) (hreach : before.Reached id) :
    after.Reached id := by
  obtain ⟨r, hr, hway⟩ := hreach
  have hslots : (r.id, r.entity.slots) ∈
      after.resources.all.map fun r => (r.id, r.entity.slots) := by
    rw [h.resources]
    exact List.mem_map_of_mem hr
  obtain ⟨s, hs, hsame⟩ := List.mem_map.1 hslots
  obtain ⟨hid, hentity⟩ := Prod.mk.inj hsame
  refine ⟨s, hs, hway.mono (fun id hmention => ?_) fun d hd _ => h.types.1 ▸ hd⟩
  exact (Database.mentions_eq hentity (by rw [hid, h.types.2]) id).2 hmention

theorem leftover_iff (h : SameMentions before after) :
    after.Leftover id ↔ before.Leftover id := by
  constructor
  · rintro ⟨hpresent, hunreached⟩
    exact ⟨h.types.1 ▸ hpresent, mt h.reached hunreached⟩
  · rintro ⟨hpresent, hunreached⟩
    exact ⟨h.types.1 ▸ hpresent, mt h.symm.reached hunreached⟩

end SameMentions

/-! ### Whole builds -/

namespace BuildStep

theorem leftover_bind {α : Type} {binding : Binding α} {builder : Builder} {id : Identity}
    (h : Ends binding (builder.database, builder.supply)
      (fun _ left => left.1.Consistent left.2 ∧ SameMentions builder.database left.1)
      (fun _ _ => False)) :
    (bind binding builder).database.Leftover id ↔ builder.database.Leftover id :=
  (consistent_bind h).2.leftover_iff

/-- A step is an import by which a definition is forgotten. -/
def ForgetsBy (builder : Builder) (id : Identity) : BuildStep → Prop
  | .importDocument typeName document legacy =>
    Database.Forgets typeName builder.database
      (run builder (.importDocument typeName document legacy)).database id
  | _ => False

theorem leftover_run_iff {builder : Builder} (h : builder.database.Consistent builder.supply)
    (step : BuildStep) {id : Identity} :
    (run builder step).database.Leftover id ↔
      builder.database.Leftover id ∨ ForgetsBy builder id step := by
  cases step with
  | importDocument typeName document legacy =>
    exact (Building.imported_importResource h typeName document legacy).1.leftover_iff h
  | markStateful names =>
    refine (leftover_bind ?_).trans (or_iff_left not_false).symm
    exact Binding.ends_markStateful_of_unbound (SameMentions.unbound _) h ⟨⟨rfl, rfl⟩, rfl⟩ names
  | linkRegion region names =>
    refine (leftover_bind ?_).trans (or_iff_left not_false).symm
    exact Binding.ends_linkRegion_of_unbound (SameMentions.unbound _) h ⟨⟨rfl, rfl⟩, rfl⟩ region
      names

/-- One of the steps is an import by which a definition is forgotten. -/
def ForgetsAmong (builder : Builder) (id : Identity) (steps : List BuildStep) : Prop :=
  ∃ before step after, steps = before ++ step :: after ∧
    ForgetsBy (runAll builder before) id step

theorem forgetsAmong_cons {builder : Builder} {id : Identity} {step : BuildStep}
    {rest : List BuildStep} : ForgetsAmong builder id (step :: rest) ↔
      ForgetsBy builder id step ∨ ForgetsAmong (run builder step) id rest := by
  constructor
  · rintro ⟨before, made, after, hsplit, hforgets⟩
    cases before with
    | nil =>
      obtain ⟨rfl, rfl⟩ := List.cons.inj hsplit
      exact Or.inl hforgets
    | cons first before =>
      obtain ⟨rfl, rfl⟩ := List.cons.inj hsplit
      exact Or.inr ⟨before, made, after, rfl, hforgets⟩
  · rintro (hforgets | ⟨before, made, after, rfl, hforgets⟩)
    · exact ⟨[], step, rest, rfl, hforgets⟩
    · exact ⟨step :: before, made, after, rfl, hforgets⟩

theorem leftover_runAll_iff {builder : Builder} (h : builder.database.Consistent builder.supply)
    (steps : List BuildStep) {id : Identity} :
    (runAll builder steps).database.Leftover id ↔
      builder.database.Leftover id ∨ ForgetsAmong builder id steps := by
  induction steps generalizing builder with
  | nil =>
    refine (or_iff_left ?_).symm
    rintro ⟨before, step, after, hsplit, -⟩
    exact absurd hsplit (by simp)
  | cons step rest ih =>
    have hrest := ih (consistent_run h step).1
    rw [leftover_run_iff h step, or_assoc, ← forgetsAmong_cons] at hrest
    exact hrest

/-- After any steps from the empty database, the definitions that no resource reaches are those that
an import has forgotten: until then the resource of its name remembered them, and nobody used them
any more. -/
theorem leftover_runAll_empty_iff (supply : Supply) (rules : RuleBook) (attributePointer : String)
    (report : BuildReport) (imported : Nat) (steps : List BuildStep) (id : Identity) :
    let start : Builder :=
      ⟨Database.empty, supply, rules, attributePointer, report, imported⟩
    (runAll start steps).database.Leftover id ↔ ForgetsAmong start id steps := by
  intro start
  rw [leftover_runAll_iff (Database.consistent_empty supply) steps]
  exact or_iff_right fun hnone => List.not_mem_nil hnone.present

/-- A document with a property `Size`, which is a record, a text or missing. -/
def sizeDocument (size? : Option Json) : Json :=
  .obj [("properties", .obj (size?.toList.map fun size => ("Size", size)))]

def sizeRecord : Json :=
  .obj [("properties", .obj [("A", .obj [("type", .str "string")])]), ("type", .str "object")]

/-- A property that is a record, then a text and then missing. -/
def sizeSteps : List BuildStep :=
  [sizeDocument (some sizeRecord), sizeDocument (some (.obj [("type", .str "string")])),
    sizeDocument none].map fun document => .importDocument "A::B::C" document none

/-- The definition of the record stays behind after the last import, which forgets it. -/
theorem forgetsAmong_sizeSteps :
    (runAll bareBuilder sizeSteps).database.Leftover ⟨3⟩ ∧
      ForgetsAmong bareBuilder ⟨3⟩ sizeSteps := by
  have hmentions : ∀ r ∈ (runAll bareBuilder sizeSteps).database.resources.all,
      (runAll bareBuilder sizeSteps).database.mentions r = [] := by
    decide +kernel
  have hleftover : (runAll bareBuilder sizeSteps).database.Leftover ⟨3⟩ := by
    refine ⟨by decide +kernel, ?_⟩
    rintro ⟨r, hr, hreach⟩
    generalize (⟨3⟩ : Identity) = id at hreach
    induction hreach with
    | mentioned h => exact absurd (hmentions r hr ▸ h) List.not_mem_nil
    | through _ _ _ ih => exact ih
  exact ⟨hleftover, (leftover_runAll_empty_iff Supply.full RuleBook.empty defaultAttributePointer
    BuildReport.empty 0 sizeSteps ⟨3⟩).1 hleftover⟩

end BuildStep

end ResourceCatalog
