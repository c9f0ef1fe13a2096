import Mathlib
import ResourceCatalog.Proofs.Catalog.Renaming
import ResourceCatalog.Proofs.Import.Additions
import ResourceCatalog.Proofs.Pointer.Tokens

/-!
# Typing from another start

What typing makes of a document does not depend on the database it starts from, apart from the
identities, which are the next ones of the supply. A `Sketch` tells what has been made with
identities counted from nought, and `Sketch.Shows` that a state consists of a start and of a sketch
that has been placed there. `Typing.Parallel` is the judgement that two runs that show one sketch go
on to show one sketch, with results that are the same in two places; every rule of typing has one
lemma.
-/

namespace ResourceCatalog

/-- An identity, counted from the next one of a supply. -/
def Supply.place (supply : Supply) (id : Identity) : Identity := ⟨supply.next + id.value⟩

theorem Supply.place_injective (supply : Supply) : Function.Injective supply.place := by
  intro x y h
  cases x
  cases y
  exact congrArg Identity.mk (Nat.add_left_cancel (Identity.mk.inj h))

namespace Typing

/-! ### Free names -/

theorem candidateName_injective (base : String) : Function.Injective (candidateName base) := by
  have hnumbered : ∀ i, i ≠ 0 → (candidateName base i).toList =
      base.toList ++ (toString (i + 1)).toList := by
    intro i hi
    rw [candidateName, if_neg hi]
    exact String.toList_append
  have hzero : candidateName base 0 = base := rfl
  have hlonger : ∀ i, i ≠ 0 → candidateName base i ≠ base := by
    intro i hi hsame
    have htext := hnumbered i hi
    rw [hsame, Pointer.toList_toString, List.self_eq_append_right] at htext
    exact Nat.toDigits_ne_nil htext
  intro i j h
  by_cases hi : i = 0
  · by_cases hj : j = 0
    · exact hi.trans hj.symm
    · rw [hi, hzero] at h
      exact absurd h.symm (hlonger j hj)
  · by_cases hj : j = 0
    · rw [hj, hzero] at h
      exact absurd h (hlonger i hi)
    · have htext := (hnumbered i hi).symm.trans ((congrArg String.toList h).trans (hnumbered j hj))
      exact Nat.succ_injective
        (Pointer.toString_injective (String.toList_inj.1 (List.append_cancel_left htext)))

/-- There are more candidates than names, so one of them is free. -/
theorem freeName_not_mem (names : List String) (base : String) : freeName names base ∉ names := by
  rw [freeName]
  generalize (if base = "" then "Type" else base) = base
  cases hfound : ((List.range (names.length + 1)).map (candidateName base)).find? fun name =>
      !names.contains name with
  | some name =>
    have hnew := List.find?_some hfound
    rw [Bool.not_eq_true', ← Bool.not_eq_true, List.contains_iff_mem] at hnew
    exact hnew
  | none =>
    have hall : (List.range (names.length + 1)).map (candidateName base) ⊆ names := by
      intro name hname
      have hnot := List.find?_eq_none.1 hfound name hname
      rwa [Bool.not_eq_true', Bool.not_eq_false, List.contains_iff_mem] at hnot
    have hnodup : ((List.range (names.length + 1)).map (candidateName base)).Nodup :=
      List.nodup_range.map (candidateName_injective base)
    have hlength := (List.subperm_of_subset hnodup hall).length_le
    rw [List.length_map, List.length_range] at hlength
    omega

/-! ### Sketches -/

/-- What has been made for a resource, with identities counted from nought. -/
structure Sketch where
  definitions : List (Record TypeDefinition)
  uses : List (Edge Use)
  seen : List (String × Identity)
  names : List String
  failures : List TypingFailure

namespace Sketch

def empty : Sketch := ⟨[], [], [], [], []⟩

def withUse (sketch : Sketch) (id : Identity) (path : String) : Sketch :=
  { sketch with
    uses := if sketch.uses.contains ⟨id, ⟨path⟩⟩ then sketch.uses
      else sketch.uses ++ [⟨id, ⟨path⟩⟩] }

def withDefinition (sketch : Sketch) (fingerprint name : String) : Sketch :=
  { sketch with
    definitions := sketch.definitions ++
      [⟨⟨sketch.definitions.length⟩, TypeDefinition.ofName name⟩]
    seen := (fingerprint, ⟨sketch.definitions.length⟩) :: sketch.seen
    names := name :: sketch.names }

def finish (sketch : Sketch) (id : Identity) (documentation : Option String)
    (properties : PropertyMap) : Sketch :=
  { sketch with
    definitions := sketch.definitions.map fun d =>
      if d.id = id then ⟨id, { d.entity with documentation, properties }⟩ else d }

def withFailure (sketch : Sketch) (failure : TypingFailure) : Sketch :=
  { sketch with failures := failure :: sketch.failures }

/-- The definitions have the names that are taken, and no two of them have the same. -/
structure Named (sketch : Sketch) : Prop where
  distinct : sketch.names.Nodup
  named : (sketch.definitions.map fun d => d.entity.name) = sketch.names.reverse

theorem named_empty : empty.Named := ⟨List.nodup_nil, rfl⟩

namespace Named

variable {sketch : Sketch} (h : sketch.Named)

include h

theorem withUse (id : Identity) (path : String) : (sketch.withUse id path).Named :=
  ⟨h.distinct, h.named⟩

theorem withDefinition (fingerprint : String) {name : String} (hname : name ∉ sketch.names) :
    (sketch.withDefinition fingerprint name).Named where
  distinct := List.nodup_cons.2 ⟨hname, h.distinct⟩
  named := by
    rw [Sketch.withDefinition, List.map_append, h.named, List.reverse_cons]
    rfl

theorem finish (id : Identity) (documentation : Option String) (properties : PropertyMap) :
    (sketch.finish id documentation properties).Named where
  distinct := h.distinct
  named := by
    rw [Sketch.finish, List.map_map, ← h.named]
    refine List.map_congr_left fun d _ => ?_
    rw [Function.comp_apply]
    split <;> rfl

theorem withFailure (failure : TypingFailure) : (sketch.withFailure failure).Named :=
  ⟨h.distinct, h.named⟩

/-- Definitions of one name are the same. -/
theorem eq_of_name_eq {d e : Record TypeDefinition} (hd : d ∈ sketch.definitions)
    (he : e ∈ sketch.definitions) (hname : d.entity.name = e.entity.name) : d = e := by
  have hnodup : (sketch.definitions.map fun d => d.entity.name).Nodup := by
    rw [h.named, List.nodup_reverse]
    exact h.distinct
  exact List.inj_on_of_nodup_map hnodup hd he hname

end Named

end Sketch

/-- A database from which typing starts, the supply that it takes identities from, and the resource
that is typed. -/
structure Start where
  database : Database
  supply : Supply
  resource : Identity

namespace Start

def state (start : Start) : TypingState := ⟨start.database, start.supply, [], [], []⟩

def subject (start : Start) (document : Json) : Subject := ⟨start.resource, document⟩

end Start

/-- A state consists of a start and of a sketch that is placed behind it. -/
structure Sketch.Shows (sketch : Sketch) (start : Start) (state : TypingState) : Prop where
  coherent : state.Coherent
  older : ∀ id ∈ start.database.typeDefinitions.ids, id.value < start.supply.next
  supply : state.supply.next = start.supply.next + sketch.definitions.length
  definitions : state.database.typeDefinitions.all = start.database.typeDefinitions.all ++
    sketch.definitions.map (Record.rename start.supply.place)
  uses : state.database.usesType.outgoing start.resource =
    sketch.uses.map (Edge.rename start.supply.place)
  elsewhere : ∀ other ≠ start.resource, state.database.usesType.outgoing other =
    start.database.usesType.outgoing other
  seen : state.seen = sketch.seen.map fun entry => (entry.1, start.supply.place entry.2)
  names : state.names = sketch.names
  failures : state.failures = sketch.failures

section Shows

variable {sketch : Sketch} {start : Start} {state : TypingState}

theorem Sketch.shows_empty
    (hdefinitions : start.database.typeDefinitions.Holds start.supply)
    (huses : start.database.usesType.Coherent)
    (hnone : start.database.usesType.outgoing start.resource = []) :
    Sketch.empty.Shows start start.state where
  coherent := ⟨hdefinitions, huses⟩
  older := hdefinitions.taken
  supply := rfl
  definitions := (List.append_nil _).symm
  uses := hnone
  elsewhere _ _ := rfl
  seen := rfl
  names := rfl
  failures := rfl

namespace Sketch.Shows

variable (h : sketch.Shows start state)

include h

theorem not_older {id : Identity} : start.supply.place id ∉ start.database.typeDefinitions.ids :=
  fun hid => absurd (h.older _ hid) (not_lt.2 (Nat.le_add_right _ _))

/-- The identities behind the start are those of the sketch. -/
theorem mem_ids_iff {id : Identity} :
    start.supply.place id ∈ state.database.typeDefinitions.ids ↔
      ∃ d ∈ sketch.definitions, d.id = id := by
  have hplaced : (sketch.definitions.map (Record.rename start.supply.place)).map Record.id =
      sketch.definitions.map fun d => start.supply.place d.id := List.map_map
  rw [Collection.ids, h.definitions, List.map_append, List.mem_append, hplaced]
  refine (or_iff_right h.not_older).trans (List.mem_map.trans ?_)
  exact exists_congr fun d => and_congr_right fun _ => start.supply.place_injective.eq_iff

/-- The name of a definition is that of the sketch. -/
theorem typeName_of_mem {d : Record TypeDefinition} (hd : d ∈ sketch.definitions) :
    state.database.typeName (start.supply.place d.id) = .ok d.entity.name := by
  have hmem : d.rename start.supply.place ∈ state.database.typeDefinitions.all := by
    rw [h.definitions]
    exact List.mem_append_right _ (List.mem_map_of_mem hd)
  have hget := Collection.get_of_mem h.coherent.definitions.coherent.distinct hmem
  rw [Database.typeName]
  change Except.map _ (state.database.typeDefinitions.get (d.rename start.supply.place).id) = _
  rw [hget]
  rfl

theorem typeName_of_not_mem {id : Identity} (hid : ¬ ∃ d ∈ sketch.definitions, d.id = id) :
    (state.database.typeName (start.supply.place id)).toOption = none := by
  rw [← h.mem_ids_iff] at hid
  rw [Database.typeName, Collection.get, Collection.row?_eq_none hid]
  rfl

theorem lookup_seen (fingerprint : String) :
    state.seen.lookup fingerprint =
      (sketch.seen.lookup fingerprint).map start.supply.place := by
  rw [h.seen]
  induction sketch.seen with
  | nil => rfl
  | cons entry rest ih =>
    rw [List.map_cons, List.lookup_cons, List.lookup_cons, ih]
    cases fingerprint == entry.1 <;> rfl

theorem withUse (id : Identity) (path : String) :
    (sketch.withUse id path).Shows start
      (state.withUse start.resource (start.supply.place id) path) where
  coherent := h.coherent.withUse _ _ _
  older := h.older
  supply := h.supply
  definitions := h.definitions
  uses := by
    have hmem : ⟨start.supply.place id, ⟨path⟩⟩ ∈ state.database.usesType.outgoing start.resource ↔
        ⟨id, ⟨path⟩⟩ ∈ sketch.uses := by
      rw [h.uses]
      exact List.mem_map_of_injective (Edge.rename_injective start.supply.place_injective)
        (a := (⟨id, ⟨path⟩⟩ : Edge Use))
    rw [TypingState.withUse, Edges.outgoing_add h.coherent.uses.forward, Sketch.withUse]
    by_cases hthere : ⟨id, ⟨path⟩⟩ ∈ sketch.uses
    · rw [if_neg fun hnew => hnew.2 (hmem.2 hthere), if_pos (List.contains_iff_mem.2 hthere), h.uses]
    · rw [if_pos ⟨rfl, fun hold => hthere (hmem.1 hold)⟩,
        if_neg fun hc => hthere (List.contains_iff_mem.1 hc), h.uses, List.map_append]
      rfl
  elsewhere other hother := by
    rw [TypingState.withUse, Edges.outgoing_add h.coherent.uses.forward,
      if_neg fun hsame => hother hsame.1]
    exact h.elsewhere other hother
  seen := h.seen
  names := h.names
  failures := h.failures

/-- The next identity is the one behind those of the sketch. -/
theorem next_eq : (⟨state.supply.next⟩ : Identity) =
    start.supply.place ⟨sketch.definitions.length⟩ := congrArg Identity.mk h.supply

theorem withDefinition (fingerprint name : String) :
    (sketch.withDefinition fingerprint name).Shows start
      (state.withDefinition fingerprint name) where
  coherent := h.coherent.withDefinition _ _
  older := h.older
  supply := by
    change state.supply.next + 1 = _
    rw [h.supply, Sketch.withDefinition, List.length_append]
    rfl
  definitions := by
    rw [TypingState.withDefinition, Collection.all_append, h.definitions, h.next_eq,
      Sketch.withDefinition, List.map_append, List.append_assoc]
    rfl
  uses := h.uses
  elsewhere := h.elsewhere
  seen := by
    rw [TypingState.withDefinition, h.next_eq, h.seen]
    rfl
  names := congrArg (name :: ·) h.names
  failures := h.failures

theorem finish {id : Identity} {documentation : Option String} {properties : PropertyMap}
    {c : Collection TypeDefinition} (hc : c.Coherent)
    (hall : c.all = state.database.typeDefinitions.all.map fun d =>
      if d.id = start.supply.place id then ⟨start.supply.place id,
        { d.entity with documentation, properties := properties.rename start.supply.place }⟩
      else d) :
    (sketch.finish id documentation properties).Shows start
      { state with database := { state.database with typeDefinitions := c } } where
  coherent := by
    have hids : c.ids = state.database.typeDefinitions.ids := Collection.ids_replaced hall
    exact ⟨⟨hc, hids ▸ h.coherent.definitions.taken⟩, h.coherent.uses⟩
  older := h.older
  supply := by
    rw [Sketch.finish, List.length_map]
    exact h.supply
  definitions := by
    have hold : ∀ d ∈ start.database.typeDefinitions.all, d.id ≠ start.supply.place id :=
      fun d hd hsame => h.not_older (Collection.mem_ids.2 ⟨d, hd, hsame⟩)
    rw [hall, h.definitions, List.map_append, Sketch.finish, List.map_map, List.map_map]
    congr 1
    · exact (List.map_congr_left fun d hd => if_neg (hold d hd)).trans (List.map_id _)
    · refine List.map_congr_left fun d _ => ?_
      rw [Function.comp_apply, Function.comp_apply, Record.rename]
      by_cases hid : d.id = id
      · rw [if_pos hid, if_pos (congrArg _ hid)]
        rfl
      · rw [if_neg hid, if_neg fun hsame => hid (start.supply.place_injective hsame)]
        rfl
  uses := h.uses
  elsewhere := h.elsewhere
  seen := h.seen
  names := h.names
  failures := h.failures

theorem withFailure (failure : TypingFailure) :
    (sketch.withFailure failure).Shows start
      { state with failures := failure :: state.failures } where
  coherent := ⟨h.coherent.definitions, h.coherent.uses⟩
  older := h.older
  supply := h.supply
  definitions := h.definitions
  uses := h.uses
  elsewhere := h.elsewhere
  seen := h.seen
  names := h.names
  failures := congrArg (failure :: ·) h.failures

end Sketch.Shows

end Shows

end Typing

end ResourceCatalog
