import Mathlib
import ResourceCatalog.Import.Typing
import ResourceCatalog.Proofs.Computation
import ResourceCatalog.Proofs.Graph.Collection
import ResourceCatalog.Proofs.Graph.Edges

/-!
# What typing adds

Typing only ever adds, whether it ends with a type or with an error. The definitions there were stay
as they are and new ones come behind them, under the next identities; so do the uses of the resource,
each by way of the path that is typed or of one inside of it. `Typing.Grows` says so of two states,
and says exactly what the tables of the state have gained. A definition that has just been made is
changed once more, when its properties are known, but no definition from before ever is.
-/

namespace ResourceCatalog

/-- What every step of typing keeps. -/
structure TypingState.Coherent (state : TypingState) : Prop where
  definitions : state.database.typeDefinitions.Holds state.supply
  uses : state.database.usesType.Coherent

namespace TypingState

def withUse (state : TypingState) (resource id : Identity) (path : String) : TypingState :=
  { state with database := { state.database with
      usesType := state.database.usesType.add resource id ⟨path⟩ } }

/-- The state with one more definition, which takes the next identity. -/
def withDefinition (state : TypingState) (fingerprint name : String) : TypingState where
  database := { state.database with
    typeDefinitions := state.database.typeDefinitions.append
      ⟨⟨state.supply.next⟩, TypeDefinition.ofName name⟩ }
  supply := ⟨state.supply.next + 1⟩
  seen := (fingerprint, ⟨state.supply.next⟩) :: state.seen
  names := name :: state.names
  failures := state.failures

theorem Coherent.withUse {state : TypingState} (h : state.Coherent) (resource id : Identity)
    (path : String) : (state.withUse resource id path).Coherent :=
  ⟨h.definitions, h.uses.add _ _ _⟩

theorem Coherent.withDefinition {state : TypingState} (h : state.Coherent)
    (fingerprint name : String) : (state.withDefinition fingerprint name).Coherent :=
  ⟨h.definitions.append h.definitions.next_not_mem (Nat.le_succ _) (Nat.lt_succ_self _), h.uses⟩

end TypingState

namespace Typing

/-! ### Paths -/

/-- A path and the paths of the properties inside of it. -/
inductive PathUnder (base : String) : String → Prop where
  | here : PathUnder base base
  | member {path : String} (name : String) (h : PathUnder base path) :
    PathUnder base (joinPath path name)

/-- The path of a property inside of another. -/
def PathInside (base path : String) : Prop := ∃ name, PathUnder (joinPath base name) path

theorem PathInside.under {base path : String} (h : PathInside base path) : PathUnder base path := by
  obtain ⟨name, h⟩ := h
  induction h with
  | here => exact PathUnder.here.member name
  | member name _ ih => exact ih.member name

/-! ### Additions -/

/-- What has been added to a state. -/
structure Additions where
  definitions : List (Record TypeDefinition)
  uses : List (Edge Use)
  seen : List (String × Identity)
  failures : List TypingFailure

namespace Additions

def none : Additions := ⟨[], [], [], []⟩

def followedBy (new more : Additions) : Additions where
  definitions := new.definitions ++ more.definitions
  uses := new.uses ++ more.uses
  seen := more.seen ++ new.seen
  failures := more.failures ++ new.failures

end Additions

/-- A state after some additions that were made for a path. -/
structure Grows (resource : Identity) (path : String) (before after : TypingState)
    (new : Additions) : Prop where
  kept : after.database = { before.database with
    typeDefinitions := after.database.typeDefinitions
    usesType := after.database.usesType }
  definitions : after.database.typeDefinitions.all =
    before.database.typeDefinitions.all ++ new.definitions
  identities : new.definitions.map (fun d => d.id.value) =
    List.range' before.supply.next new.definitions.length
  supply : after.supply.next = before.supply.next + new.definitions.length
  seen : after.seen = new.seen ++ before.seen
  found : new.seen.map Prod.snd = (new.definitions.map Record.id).reverse
  names : after.names = (new.definitions.map fun d => d.entity.name).reverse ++ before.names
  uses : after.database.usesType.outgoing resource =
    before.database.usesType.outgoing resource ++ new.uses
  elsewhere : ∀ other ≠ resource,
    after.database.usesType.outgoing other = before.database.usesType.outgoing other
  via : ∀ use ∈ new.uses, PathUnder path use.attributes.via ∧ use.id ∈ after.seen.map Prod.snd
  failures : after.failures = new.failures ++ before.failures
  inside : ∀ failure ∈ new.failures, PathInside path failure.path
  unchanged : new.definitions = [] → new.uses = [] → new.failures = [] → after = before

variable {resource : Identity} {path : String} {before middle after : TypingState}
  {new more : Additions}

theorem Grows.refl (state : TypingState) : Grows resource path state state .none where
  kept := rfl
  definitions := (List.append_nil _).symm
  identities := rfl
  supply := rfl
  seen := rfl
  found := rfl
  names := rfl
  uses := (List.append_nil _).symm
  elsewhere _ _ := rfl
  via _ h := absurd h List.not_mem_nil
  failures := rfl
  inside _ h := absurd h List.not_mem_nil
  unchanged _ _ _ := rfl

theorem Grows.trans (h : Grows resource path before middle new)
    (h' : Grows resource path middle after more) :
    Grows resource path before after (new.followedBy more) where
  kept := by rw [h'.kept, h.kept]
  definitions := by rw [h'.definitions, h.definitions, List.append_assoc, Additions.followedBy]
  identities := by
    rw [Additions.followedBy, List.map_append, h.identities, h'.identities, h.supply,
      List.length_append, List.range'_append_1]
  supply := by rw [h'.supply, h.supply, Additions.followedBy, List.length_append, Nat.add_assoc]
  seen := by rw [h'.seen, h.seen, ← List.append_assoc, Additions.followedBy]
  found := by
    rw [Additions.followedBy, List.map_append, List.map_append, List.reverse_append, h.found,
      h'.found]
  names := by
    rw [h'.names, h.names, Additions.followedBy, List.map_append, List.reverse_append,
      List.append_assoc]
  uses := by rw [h'.uses, h.uses, List.append_assoc, Additions.followedBy]
  elsewhere other hother := (h'.elsewhere other hother).trans (h.elsewhere other hother)
  via use huse := by
    rcases List.mem_append.1 huse with huse | huse
    · obtain ⟨hunder, hfound⟩ := h.via use huse
      refine ⟨hunder, ?_⟩
      rw [h'.seen, List.map_append]
      exact List.mem_append_right _ hfound
    · exact h'.via use huse
  failures := by rw [h'.failures, h.failures, ← List.append_assoc, Additions.followedBy]
  inside failure hfailure :=
    (List.mem_append.1 hfailure).elim (h'.inside failure) (h.inside failure)
  unchanged hdefinitions huses hfailures := by
    obtain ⟨hnew, hmore⟩ := List.append_eq_nil_iff.1 hdefinitions
    obtain ⟨huses, huses'⟩ := List.append_eq_nil_iff.1 huses
    obtain ⟨hfailures', hfailures⟩ := List.append_eq_nil_iff.1 hfailures
    rw [h'.unchanged hmore huses' hfailures', h.unchanged hnew huses hfailures]

/-- What is added for a property is added for the record that it belongs to. -/
theorem Grows.outward {base name : String}
    (h : Grows resource (joinPath base name) before after new) :
    Grows resource base before after new :=
  { h with
    via := fun use huse => ⟨PathInside.under ⟨name, (h.via use huse).1⟩, (h.via use huse).2⟩
    inside := fun failure hfailure => ⟨name, (h.inside failure hfailure).under⟩ }

theorem Grows.record {state : TypingState} {base : String} (name : String) (error : TypingError) :
    Grows resource base state
      { state with failures := ⟨joinPath base name, error⟩ :: state.failures }
      ⟨[], [], [], [⟨joinPath base name, error⟩]⟩ where
  kept := rfl
  definitions := (List.append_nil _).symm
  identities := rfl
  supply := rfl
  seen := rfl
  found := rfl
  names := rfl
  uses := (List.append_nil _).symm
  elsewhere _ _ := rfl
  via _ h := absurd h List.not_mem_nil
  failures := rfl
  inside _ h := List.mem_singleton.1 h ▸ ⟨name, .here⟩
  unchanged _ _ h := absurd h (List.cons_ne_nil _ _)

/-- The edge that a use adds: none if it is there already. -/
def newUse (state : TypingState) (resource id : Identity) (path : String) : List (Edge Use) :=
  if ⟨id, ⟨path⟩⟩ ∈ state.database.usesType.outgoing resource then [] else [⟨id, ⟨path⟩⟩]

theorem Grows.addUse {state : TypingState} (hstate : state.Coherent) {id : Identity}
    (hid : id ∈ state.seen.map Prod.snd) :
    Grows resource path state (state.withUse resource id path)
      ⟨[], newUse state resource id path, [], []⟩ where
  kept := rfl
  definitions := (List.append_nil _).symm
  identities := rfl
  supply := rfl
  seen := rfl
  found := rfl
  names := rfl
  uses := by
    rw [TypingState.withUse, Edges.outgoing_add hstate.uses.forward, newUse]
    by_cases hmem : ⟨id, ⟨path⟩⟩ ∈ state.database.usesType.outgoing resource
    · rw [if_neg fun h => h.2 hmem, if_pos hmem, List.append_nil]
    · rw [if_pos ⟨rfl, hmem⟩, if_neg hmem]
  elsewhere other hother := by
    rw [TypingState.withUse, Edges.outgoing_add hstate.uses.forward, if_neg fun h => hother h.1]
  via use huse := by
    rw [newUse] at huse
    split at huse
    · exact absurd huse List.not_mem_nil
    · obtain rfl := List.mem_singleton.1 huse
      exact ⟨.here, hid⟩
  failures := rfl
  inside _ h := absurd h List.not_mem_nil
  unchanged _ huses _ := by
    have hmem : ⟨id, ⟨path⟩⟩ ∈ state.database.usesType.outgoing resource := by
      by_contra hmem
      rw [newUse, if_neg hmem] at huses
      exact List.cons_ne_nil _ _ huses
    rw [TypingState.withUse, Edges.add, Edges.add?, if_pos (List.contains_iff_mem.2 hmem)]
    rfl

theorem Grows.start (state : TypingState) (fingerprint name : String) :
    Grows resource path state (state.withDefinition fingerprint name)
      ⟨[⟨⟨state.supply.next⟩, TypeDefinition.ofName name⟩], [],
        [(fingerprint, ⟨state.supply.next⟩)], []⟩ where
  kept := rfl
  definitions := Collection.all_append _ _
  identities := rfl
  supply := rfl
  seen := rfl
  found := rfl
  names := rfl
  uses := (List.append_nil _).symm
  elsewhere _ _ := rfl
  via _ h := absurd h List.not_mem_nil
  failures := rfl
  inside _ h := absurd h List.not_mem_nil
  unchanged h := absurd h (List.cons_ne_nil _ _)

/-- A definition that has been taken in gets its properties. It is the first of the new ones, so all
others are left alone. -/
theorem Grows.finish (hbefore : before.Coherent) (h : Grows resource path before after new)
    {id : Identity} {first : TypeDefinition} {rest : List (Record TypeDefinition)}
    (hnew : new.definitions = ⟨id, first⟩ :: rest) (change : TypeDefinition → TypeDefinition)
    (hname : (change first).name = first.name) {c : Collection TypeDefinition}
    (hall : c.all = after.database.typeDefinitions.all.map fun d =>
      if d.id = id then ⟨id, change d.entity⟩ else d) :
    Grows resource path before
      { after with database := { after.database with typeDefinitions := c } }
      { new with definitions := ⟨id, change first⟩ :: rest } := by
  have hidentities := h.identities
  rw [hnew, List.map_cons, List.length_cons, List.range'_succ, List.cons.injEq] at hidentities
  obtain ⟨hid, hrest⟩ := hidentities
  -- what was there has an identity from below the supply, and what came later one from above
  have hold : ∀ d ∈ before.database.typeDefinitions.all, d.id ≠ id := by
    intro d hd hsame
    have htaken := hbefore.definitions.taken d.id (Collection.mem_ids.2 ⟨d, hd, rfl⟩)
    rw [hsame, hid] at htaken
    exact lt_irrefl _ htaken
  have hlater : ∀ d ∈ rest, d.id ≠ id := by
    intro d hd hsame
    have hmem : d.id.value ∈ rest.map fun d => d.id.value := List.mem_map.2 ⟨d, hd, rfl⟩
    rw [hrest, List.mem_range'_1, hsame, hid] at hmem
    exact absurd hmem.1 (Nat.not_succ_le_self _)
  have hsame : ∀ {records : List (Record TypeDefinition)}, (∀ d ∈ records, d.id ≠ id) →
      (records.map fun d => if d.id = id then ⟨id, change d.entity⟩ else d) = records := by
    intro records hne
    exact (List.map_congr_left fun d hd => if_neg (hne d hd)).trans (List.map_id _)
  exact {
    kept := by rw [h.kept]
    definitions := by
      rw [hall, h.definitions, hnew, List.map_append, List.map_cons, hsame hold, hsame hlater,
        if_pos rfl]
    identities := by
      rw [List.map_cons, hid, hrest, List.length_cons, List.range'_succ]
    supply := by rw [h.supply, hnew, List.length_cons, List.length_cons]
    seen := h.seen
    found := by rw [h.found, hnew, List.map_cons, List.map_cons]
    names := by rw [h.names, hnew, List.map_cons, List.map_cons, hname]
    uses := h.uses
    elsewhere := h.elsewhere
    via := h.via
    failures := h.failures
    inside := h.inside
    unchanged := fun hnil => absurd hnil (List.cons_ne_nil _ _) }

/-! ### Computations that add -/

/-- The resource uses one of its definitions by way of a path. -/
def Linked (resource : Identity) (path : String) (state : TypingState) : Prop :=
  ∃ use ∈ state.database.usesType.outgoing resource,
    use.attributes.via = path ∧ use.id ∈ state.seen.map Prod.snd

theorem Grows.linked {base : String} (h : Grows resource base before after new)
    (hlinked : Linked resource path before) : Linked resource path after := by
  obtain ⟨use, huse, hvia, hfound⟩ := hlinked
  refine ⟨use, ?_, hvia, ?_⟩
  · rw [h.uses]
    exact List.mem_append_left _ huse
  · rw [h.seen, List.map_append]
    exact List.mem_append_right _ hfound

theorem linked_withUse {state : TypingState} (hstate : state.Coherent) {id : Identity}
    (hid : id ∈ state.seen.map Prod.snd) :
    Linked resource path (state.withUse resource id path) :=
  ⟨⟨id, ⟨path⟩⟩, (Edges.mem_outgoing_add hstate.uses.forward).2 (Or.inr ⟨rfl, rfl⟩), rfl, hid⟩

/-- A state after additions for a path. Only what has been made can have failures inside of it. -/
def Added (resource : Identity) (path : String) (before after : TypingState) : Prop :=
  after.Coherent ∧ ∃ new, Grows resource path before after new ∧
    (new.definitions = [] → new.failures = [])

theorem Added.refl {state : TypingState} (h : state.Coherent) : Added resource path state state :=
  ⟨h, .none, .refl state, fun _ => rfl⟩

theorem Added.trans (h : Added resource path before middle)
    (h' : Added resource path middle after) : Added resource path before after := by
  obtain ⟨_, new, hgrows, hsilent⟩ := h
  obtain ⟨hafter, more, hgrows', hsilent'⟩ := h'
  refine ⟨hafter, new.followedBy more, hgrows.trans hgrows', fun hnone => ?_⟩
  obtain ⟨hnew, hmore⟩ := List.append_eq_nil_iff.1 hnone
  rw [Additions.followedBy, hsilent hnew, hsilent' hmore]
  rfl

/-- The definitions and uses show whether anything has been added. -/
theorem Added.eq_of_same (h : Added resource path before after)
    (hdefinitions : after.database.typeDefinitions = before.database.typeDefinitions)
    (huses : after.database.usesType = before.database.usesType) : after = before := by
  obtain ⟨_, new, hgrows, hsilent⟩ := h
  have hnew : new.definitions = [] := by
    have hall := hgrows.definitions
    rwa [hdefinitions, List.self_eq_append_right] at hall
  have hnewUses : new.uses = [] := by
    have hall := hgrows.uses
    rwa [huses, List.self_eq_append_right] at hall
  exact hgrows.unchanged hnew hnewUses (hsilent hnew)

/-- A computation only adds, whatever comes of it. -/
def Adds (resource : Identity) (path : String) {α : Type} (m : Typing α) : Prop :=
  ∀ state : TypingState, state.Coherent →
    Ends m state (fun _ left => Added resource path state left)
      (fun _ left => Added resource path state left)

section Rules

variable {α β : Type}

theorem Adds.of_unchanged {m : Typing α} (h : ∀ state, (m.run.run state).2 = state) :
    Adds resource path m := by
  intro state hstate
  have hleft := h state
  rw [Ends]
  generalize m.run.run state = outcome at hleft
  obtain ⟨result, left⟩ := outcome
  obtain rfl : left = state := hleft
  cases result <;> exact Added.refl hstate

theorem adds_pure (a : α) : Adds resource path (pure a) := Adds.of_unchanged fun _ => rfl

theorem adds_throw (e : TypingError) : Adds resource path (throw e : Typing α) :=
  Adds.of_unchanged fun _ => rfl

theorem adds_lift (result : Except TypingError α) :
    Adds resource path (liftM result : Typing α) :=
  Adds.of_unchanged fun _ => by cases result <;> rfl

theorem Adds.bind {m : Typing β} {f : β → Typing α} (hm : Adds resource path m)
    (hf : ∀ b, Adds resource path (f b)) : Adds resource path (m >>= f) := by
  intro state hstate
  refine ends_bind.2 ((hm state hstate).mono (fun b left hleft => ?_) fun _ _ h => h)
  exact (hf b left hleft.1).mono (fun _ _ h => hleft.trans h) fun _ _ h => hleft.trans h

theorem Adds.mapM {f : β → Typing α} (hf : ∀ b, Adds resource path (f b)) (items : List β) :
    Adds resource path (items.mapM f) := by
  induction items with
  | nil =>
    rw [List.mapM_nil]
    exact adds_pure _
  | cons item rest ih =>
    rw [List.mapM_cons]
    exact (hf item).bind fun _ => ih.bind fun _ => adds_pure _

theorem adds_render (type : PropertyType) : Adds resource path (render type) :=
  Adds.of_unchanged fun state => by
    rw [render]
    change ((ofGraph (state.database.render type)).run.run state).2 = state
    cases state.database.render type <;> rfl

end Rules

/-! ### Computations by way of those one level further in -/

/-- The computations one level further in only add. -/
def InnerAdds (resource : Identity)
    (inner : String → String → Schema.Resolved → Typing PropertyType) : Prop :=
  ∀ path hint resolved, Adds resource path (inner path hint resolved)

section Level

variable {inner : String → String → Schema.Resolved → Typing PropertyType} {subject : Subject}

theorem adds_resolve (schema : Json) : Adds resource path (resolve subject schema) := adds_lift _

theorem adds_typeInner (hinner : InnerAdds resource inner) (path hint : String) (schema : Json) :
    Adds resource path (typeInner inner subject path hint schema) :=
  (adds_resolve schema).bind fun resolved => hinner path hint resolved

theorem adds_propertyOf (hinner : InnerAdds resource inner) (path name : String) (schema : Json) :
    Adds resource path (propertyOf inner subject path name schema) :=
  (adds_resolve schema).bind fun resolved =>
    (hinner path name resolved).bind fun _ => adds_pure _

/-- A state after additions inside of a record, which may have failures and nothing else. -/
def Gathered (resource : Identity) (path : String) (before after : TypingState) : Prop :=
  after.Coherent ∧ ∃ new, Grows resource path before after new

theorem Gathered.trans (h : Gathered resource path before middle)
    (h' : Gathered resource path middle after) : Gathered resource path before after := by
  obtain ⟨_, new, hgrows⟩ := h
  obtain ⟨hafter, more, hgrows'⟩ := h'
  exact ⟨hafter, new.followedBy more, hgrows.trans hgrows'⟩

/-- A computation for a property of a record whose failure is recorded. -/
theorem ends_attempt {α : Type} {base name : String} {m : Typing α}
    (hm : Adds resource (joinPath base name) m) {state : TypingState} (hstate : state.Coherent) :
    Ends (tryCatch (some <$> m) fun error => do
        recordFailure (joinPath base name) error
        return none) state
      (fun _ left => Gathered resource base state left)
      (fun _ left => Gathered resource base state left) := by
  rw [ends_tryCatch, ends_map]
  refine (hm state hstate).mono ?_ ?_
  · rintro _ left ⟨hleft, new, hgrows, _⟩
    exact ⟨hleft, new, hgrows.outward⟩
  · rintro error left ⟨hleft, new, hgrows, _⟩
    rw [ends_bind, recordFailure]
    split
    · exact ⟨hleft, new, hgrows.outward⟩
    · exact ⟨⟨hleft.definitions, hleft.uses⟩, _, hgrows.outward.trans (.record name error)⟩

theorem ends_propertiesOf (hinner : InnerAdds resource inner) (base : String)
    (required : List String) (members : Members) {state : TypingState} (hstate : state.Coherent) :
    Ends (propertiesOf inner subject base required members) state
      (fun _ left => Gathered resource base state left)
      (fun _ left => Gathered resource base state left) := by
  induction members generalizing state with
  | nil => exact ⟨hstate, .none, .refl state⟩
  | cons member rest ih =>
    obtain ⟨name, schema⟩ := member
    rw [propertiesOf, ends_bind]
    refine (ends_attempt (adds_propertyOf hinner _ name schema) hstate).mono
      (fun found left hleft => ?_) fun _ _ h => h
    rw [ends_bind]
    refine (ih hleft.1).mono (fun others left' hleft' => ?_) fun _ _ h => hleft.trans h
    cases found with
    | none => exact hleft.trans hleft'
    | some property => exact hleft.trans hleft'

/-- The first of the new definitions gets its properties. -/
theorem ends_finish {state left : TypingState} (hstate : state.Coherent) (hleft : left.Coherent)
    (h : Grows resource path state left new) {first : Record TypeDefinition}
    {rest : List (Record TypeDefinition)} (hnew : new.definitions = first :: rest)
    (documentation : Option String) (properties : PropertyMap) :
    Ends (finishDefinition first.id documentation properties) left
      (fun _ done => Added resource path state done ∧
        done.database.usesType = left.database.usesType ∧ done.seen = left.seen)
      (fun _ _ => False) := by
  have hid : first.id ∈ left.database.typeDefinitions.ids := by
    refine Collection.mem_ids.2 ⟨first, ?_, rfl⟩
    rw [h.definitions, hnew]
    exact List.mem_append_right _ List.mem_cons_self
  let change (definition : TypeDefinition) : TypeDefinition :=
    { definition with documentation, properties }
  obtain ⟨c, hc, hcoherent, hall⟩ :=
    Collection.update_eq_ok hleft.definitions.coherent hid change
  have hids : c.ids = left.database.typeDefinitions.ids := Collection.ids_replaced hall
  rw [finishDefinition, ends_bind, ends_get, ends_bind, hc]
  exact ⟨⟨⟨⟨hcoherent, hids ▸ hleft.definitions.taken⟩, hleft.uses⟩, _,
    h.finish hstate hnew change rfl hall, fun hnone => absurd hnone (List.cons_ne_nil _ _)⟩,
    rfl, rfl⟩

/-- The definition of a record is used by way of the path, also if it was there already. -/
theorem ends_definitionOf (hinner : InnerAdds subject.resource inner) (path name : String)
    (schema : Json) {state : TypingState} (hstate : state.Coherent) :
    Ends (definitionOf inner subject path name schema) state
      (fun _ left => Added subject.resource path state left ∧ Linked subject.resource path left)
      (fun _ left => Added subject.resource path state left ∧ Linked subject.resource path left) := by
  rw [definitionOf, ends_bind, ends_get]
  split
  case h_1 id hseen =>
    have hid : id ∈ state.seen.map Prod.snd := by
      obtain ⟨before, behind, hsplit, _⟩ := List.lookup_eq_some_iff.1 hseen
      rw [hsplit, List.map_append, List.map_cons]
      exact List.mem_append_right _ List.mem_cons_self
    exact ⟨⟨hstate.withUse _ _ _, _, .addUse hstate hid, fun _ => rfl⟩, linked_withUse hstate hid⟩
  case h_2 =>
    let id : Identity := ⟨state.supply.next⟩
    let started := state.withDefinition (Schema.fingerprint schema) (freeName state.names name)
    have hstarted : started.Coherent := hstate.withDefinition _ _
    have hmade : Grows subject.resource path state (started.withUse subject.resource id path) _ :=
      (Grows.start state _ _).trans (.addUse hstarted List.mem_cons_self)
    have hlinked : Linked subject.resource path (started.withUse subject.resource id path) :=
      linked_withUse hstarted List.mem_cons_self
    change Ends (do
      let properties ← declaredProperties inner subject path schema []
      finishDefinition id (documentation? schema) properties
      return id) (started.withUse subject.resource id path) _ _
    rw [ends_bind]
    refine (ends_propertiesOf hinner path _ _ (hstarted.withUse _ _ _)).mono ?_ ?_
    · rintro properties left ⟨hleft, more, hmore⟩
      obtain ⟨use, huse, hvia⟩ := hmore.linked hlinked
      refine ends_bind.2 ((ends_finish hstate hleft (hmade.trans hmore) rfl _ _).mono ?_ ?_)
      · rintro _ done ⟨hdone, huses, hseen⟩
        exact ⟨hdone, use, huses ▸ huse, hvia.1, hseen ▸ hvia.2⟩
      · exact fun _ _ hfalse => hfalse.elim
    · rintro _ left ⟨hleft, more, hmore⟩
      exact ⟨⟨hleft, _, hmade.trans hmore, fun hnone => absurd hnone (List.cons_ne_nil _ _)⟩,
        hmore.linked hlinked⟩

theorem adds_definitionOf (hinner : InnerAdds subject.resource inner) (path name : String)
    (schema : Json) : Adds subject.resource path (definitionOf inner subject path name schema) :=
  fun _ hstate => (ends_definitionOf hinner path name schema hstate).mono
    (fun _ _ h => h.1) fun _ _ h => h.1

theorem adds_typeOfValues (hinner : InnerAdds resource inner) (path name : String)
    (values : List Json) : Adds resource path (typeOfValues inner subject path name values) := by
  unfold typeOfValues
  split
  · exact adds_typeInner hinner path name _
  · exact (Adds.mapM adds_resolve _).bind fun resolved =>
      (adds_lift _).bind fun unified => adds_typeInner hinner path _ unified

theorem adds_typeOfObject (hinner : InnerAdds subject.resource inner) (path name : String)
    (schema : Json) :
    Adds subject.resource path (typeOfObject inner subject path name schema) := by
  rw [typeOfObject]
  split
  · exact (adds_definitionOf hinner path name schema).bind fun _ => adds_pure _
  · split
    · exact (adds_typeOfValues hinner path name _).bind fun _ => adds_pure _
    · exact adds_pure _

theorem adds_typeOfConcrete (hinner : InnerAdds subject.resource inner) (path name : String)
    (schema : Json) :
    Adds subject.resource path (typeOfConcrete inner subject path name schema) := by
  have hobject := adds_typeOfObject hinner path name schema
  rw [typeOfConcrete]
  repeat' split
  all_goals first | exact hobject | exact adds_pure _ | exact adds_throw _

theorem adds_unionOf (types : List PropertyType) :
    Adds resource path (typeOf.unionOf path types) := by
  unfold typeOf.unionOf
  split
  · exact adds_throw _
  · exact adds_pure _
  · exact adds_pure _

mutual

theorem adds_typeOf (hinner : InnerAdds subject.resource inner) (path hint : String)
    (resolved : Schema.Resolved) :
    Adds subject.resource path (typeOf inner subject path hint resolved) := by
  cases resolved with
  | concrete schema name => exact adds_typeOfConcrete hinner path _ schema
  | array schema name items =>
    cases items with
    | none => exact adds_pure _
    | some items =>
      rw [typeOf]
      exact (adds_typeOf hinner path hint items).bind fun _ => adds_pure _
  | combined schema name op branches =>
    cases op with
    | allOf =>
      rw [typeOf]
      split
      · exact adds_pure _
      · exact adds_typeOfConstrained hinner path hint branches
      · exact (adds_lift _).bind fun unified => adds_typeInner hinner path _ unified
    | anyOf =>
      rw [typeOf]
      exact (adds_typesOf hinner path hint [] branches).bind fun types => adds_unionOf types
    | oneOf =>
      rw [typeOf]
      exact (adds_typesOf hinner path hint [] branches).bind fun types => adds_unionOf types

theorem adds_typeOfConstrained (hinner : InnerAdds subject.resource inner) (path hint : String)
    (branches : List Schema.Resolved) :
    Adds subject.resource path (typeOfConstrained inner subject path hint branches) := by
  cases branches with
  | nil => exact adds_pure _
  | cons branch rest =>
    rw [typeOfConstrained]
    split
    · exact adds_typeOf hinner path hint branch
    · exact adds_typeOfConstrained hinner path hint rest

theorem adds_typesOf (hinner : InnerAdds subject.resource inner) (path hint : String)
    (texts : List String) (branches : List Schema.Resolved) :
    Adds subject.resource path (typesOf inner subject path hint texts branches) := by
  cases branches with
  | nil => exact adds_pure _
  | cons branch rest =>
    rw [typesOf]
    refine (adds_typeOf hinner path hint branch).bind fun type =>
      (adds_render type).bind fun text => ?_
    split
    · exact adds_typesOf hinner path hint texts rest
    · exact (adds_typesOf hinner path hint (text :: texts) rest).bind fun _ => adds_pure _

end

end Level

/-! ### Properties -/

theorem adds_typeWithin (subject : Subject) (levels : Nat) (path hint : String)
    (resolved : Schema.Resolved) :
    Adds subject.resource path (typeWithin subject levels path hint resolved) := by
  induction levels generalizing path hint resolved with
  | zero => exact adds_throw _
  | succ levels ih => exact adds_typeOf ih path hint resolved

/-- A property only adds, whether it has a type or not. -/
theorem adds_property (subject : Subject) (path name : String) (schema : Json) :
    Adds subject.resource path (property subject path name schema) :=
  adds_propertyOf (adds_typeWithin subject _) path name schema

end Typing

end ResourceCatalog
