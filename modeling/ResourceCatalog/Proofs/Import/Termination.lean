import Mathlib
import ResourceCatalog.Proofs.Computation
import ResourceCatalog.Proofs.Import.Territory

/-!
# Typing comes to an end

Where no map leads back to itself without a record in between, the levels that typing is given are
never used up: a record is entered once for each fingerprint, between two records lie no more maps
than there are in the document and the schema, and between two maps no more unified schemas than the
unfoldings are deep. So a larger number of levels gives the same result and leaves the same state,
and typing ends also when it is not told how far to go.
-/

namespace ResourceCatalog

/-- The error says that the levels have been used up. -/
def TypingError.IsEndless : TypingError → Prop
  | .endless _ => True
  | _ => False

/-- The fingerprints for which there is no definition yet. -/
def TypingState.unseen (fingerprints : Finset String) (state : TypingState) : Finset String :=
  fingerprints.filter fun fingerprint => state.seen.lookup fingerprint = none

/-- At most so many fingerprints are unseen. What is swallowed on the way stays visible: apart from
the old failures none says that the levels have been used up. -/
structure TypingState.Holds (fingerprints : Finset String) (old : List TypingFailure)
    (unseen : Nat) (state : TypingState) : Prop where
  unseen : (state.unseen fingerprints).card ≤ unseen
  failures : ∀ failure ∈ state.failures, failure ∈ old ∨ ¬ failure.error.IsEndless

theorem TypingState.Holds.mono {fingerprints : Finset String} {old : List TypingFailure}
    {unseen more : Nat} {state : TypingState} (h : state.Holds fingerprints old unseen)
    (hle : unseen ≤ more) : state.Holds fingerprints old more :=
  ⟨h.unseen.trans hle, h.failures⟩

namespace Typing

/-! ### The judgement -/

section Judgement

variable (fingerprints : Finset String) (old : List TypingFailure)

/-- Two computations do the same to a state, and neither of them uses the levels up. -/
def SettlesAt {α : Type} (unseen : Nat) (state : TypingState) (m m' : Typing α)
    (post : α → Prop) : Prop :=
  m.run.run state = m'.run.run state ∧
    Ends m state (fun a left => left.Holds fingerprints old unseen ∧ post a)
      fun e left => left.Holds fingerprints old unseen ∧ ¬ e.IsEndless

def Settles {α : Type} (unseen : Nat) (m m' : Typing α) (post : α → Prop) : Prop :=
  ∀ state : TypingState, state.Holds fingerprints old unseen →
    SettlesAt fingerprints old unseen state m m' post

end Judgement

section Rules

variable {fingerprints : Finset String} {old : List TypingFailure} {unseen : Nat} {α β : Type}
  {post : α → Prop}

theorem Settles.pure {a : α} (h : post a) :
    Settles fingerprints old unseen (pure a) (pure a) post :=
  fun _ hstate => ⟨rfl, hstate, h⟩

theorem Settles.throw {e : TypingError} (h : ¬ e.IsEndless) :
    Settles fingerprints old unseen (throw e : Typing α) (throw e) post :=
  fun _ hstate => ⟨rfl, hstate, h⟩

theorem SettlesAt.bind {m m' : Typing β} {f f' : β → Typing α} {middle : β → Prop}
    {state : TypingState} (hm : SettlesAt fingerprints old unseen state m m' middle)
    (hf : ∀ b, middle b → Settles fingerprints old unseen (f b) (f' b) post) :
    SettlesAt fingerprints old unseen state (m >>= f) (m' >>= f') post := by
  obtain ⟨hrun, hends⟩ := hm
  refine ⟨?_, ends_bind.2 (hends.mono (fun b left h => (hf b h.2 left h.1).2) fun _ _ h => h)⟩
  rw [ExceptT.run_bind, ExceptT.run_bind, StateT.run_bind, StateT.run_bind, ← hrun]
  rcases hresult : m.run.run state with ⟨e | b, left⟩
  · rfl
  · have hleft := hends.of_run_ok hresult
    exact (hf b hleft.2 left hleft.1).1

theorem Settles.bind {m m' : Typing β} {f f' : β → Typing α} {middle : β → Prop}
    (hm : Settles fingerprints old unseen m m' middle)
    (hf : ∀ b, middle b → Settles fingerprints old unseen (f b) (f' b) post) :
    Settles fingerprints old unseen (m >>= f) (m' >>= f') post :=
  fun state hstate => (hm state hstate).bind hf

theorem Settles.mapM {f : β → Typing α} {related : β → α → Prop} {items : List β}
    (hf : ∀ item ∈ items, Settles fingerprints old unseen (f item) (f item) (related item)) :
    Settles fingerprints old unseen (items.mapM f) (items.mapM f) (List.Forall₂ related items) := by
  induction items with
  | nil => exact Settles.pure .nil
  | cons item rest ih =>
    obtain ⟨hitem, hrest⟩ := List.forall_mem_cons.1 hf
    rw [List.mapM_cons]
    refine hitem.bind fun a ha => (ih hrest).bind fun others hothers => ?_
    exact Settles.pure (.cons ha hothers)

theorem settles_lift {ε : Type} {result : Except ε α} {wrap : ε → TypingError}
    (hok : ∀ a, result = .ok a → post a) (hwrap : ∀ e, ¬ (wrap e).IsEndless) :
    Settles fingerprints old unseen (liftM (result.mapError wrap) : Typing α)
      (liftM (result.mapError wrap)) post := by
  refine fun state hstate => ⟨rfl, ?_⟩
  rw [ends_lift]
  cases result with
  | ok a => exact ⟨hstate, hok a rfl⟩
  | error e => exact ⟨hstate, hwrap e⟩

theorem settles_ofGraph (result : Except GraphError α) :
    Settles fingerprints old unseen (ofGraph result) (ofGraph result) fun _ => True :=
  settles_lift (fun _ _ => trivial) fun _ => id

theorem settles_resolve (subject : Subject) (schema : Json) :
    Settles fingerprints old unseen (resolve subject schema) (resolve subject schema)
      fun resolved => Schema.resolve subject.document schema = .ok resolved :=
  settles_lift (fun _ h => h) fun _ => id

theorem settles_unifyAll (schemas : List Json) :
    Settles fingerprints old unseen (ofUnification (Schema.unifyAll schemas))
      (ofUnification (Schema.unifyAll schemas))
      fun unified => Schema.unifyAll schemas = .ok unified :=
  settles_lift (fun _ h => h) fun _ => id

theorem settles_get :
    Settles fingerprints old unseen get get (TypingState.Holds fingerprints old unseen) :=
  fun _ hstate => ⟨rfl, hstate, hstate⟩

theorem settles_set {state : TypingState} (h : state.Holds fingerprints old unseen) :
    Settles fingerprints old unseen (set state) (set state) fun _ => True :=
  fun _ _ => ⟨rfl, h, trivial⟩

theorem settles_render (type : PropertyType) :
    Settles fingerprints old unseen (render type) (render type) fun _ => True :=
  settles_get.bind fun _ _ => settles_ofGraph _

theorem settles_addUse (subject : Subject) (id : Identity) (path : String) :
    Settles fingerprints old unseen (addUse subject id path) (addUse subject id path)
      fun _ => True :=
  fun _ hstate => ⟨rfl, ⟨hstate.unseen, hstate.failures⟩, trivial⟩

theorem settles_finishDefinition (definition : Identity) (documentation : Option String)
    (properties : PropertyMap) :
    Settles fingerprints old unseen (finishDefinition definition documentation properties)
      (finishDefinition definition documentation properties) fun _ => True :=
  settles_get.bind fun _ hstate => (settles_ofGraph _).bind fun _ _ =>
    settles_set ⟨hstate.unseen, hstate.failures⟩

theorem settles_unionOf (path : String) (types : List PropertyType) :
    Settles fingerprints old unseen (typeOf.unionOf path types) (typeOf.unionOf path types)
      fun _ => True := by
  unfold typeOf.unionOf
  split
  · exact Settles.throw id
  · exact Settles.pure trivial
  · exact Settles.pure trivial

theorem settles_recordFailure {path : String} {e : TypingError} (h : ¬ e.IsEndless) :
    Settles fingerprints old unseen (recordFailure path e) (recordFailure path e)
      fun _ => True := by
  intro state hstate
  rw [recordFailure]
  split
  · exact ⟨rfl, hstate, h⟩
  · refine ⟨rfl, ⟨hstate.unseen, fun failure hfailure => ?_⟩, trivial⟩
    rcases List.mem_cons.1 hfailure with rfl | hfailure
    · exact Or.inr h
    · exact hstate.failures failure hfailure

/-- A property without a type is recorded, with the error for which both computations fail. -/
theorem Settles.attempt {m m' : Typing α} (h : Settles fingerprints old unseen m m' post)
    (path : String) :
    let attempted (m : Typing α) := tryCatch (some <$> m) fun error => do
      recordFailure path error
      return none
    Settles fingerprints old unseen (attempted m) (attempted m') fun _ => True := by
  intro attempted state hstate
  obtain ⟨hrun, hends⟩ := h state hstate
  refine ⟨?_, ?_⟩
  · simp only [attempted, map_eq_pure_bind, ExceptT.run_tryCatch, ExceptT.run_bind, StateT.run_bind,
      hrun]
  · rw [ends_tryCatch, ends_map]
    refine hends.mono (fun _ _ h => ⟨h.1, trivial⟩) fun e left h => ?_
    exact (((settles_recordFailure h.2).bind fun _ _ => Settles.pure trivial) left h.1).2

/-- The fingerprint of a definition that is taken in is not unseen any more. -/
theorem settlesAt_startDefinition {fingerprint : String} {state : TypingState}
    (hstate : state.Holds fingerprints old unseen) (hmem : fingerprint ∈ fingerprints)
    (hnone : state.seen.lookup fingerprint = none) (name : String) :
    ∃ less, unseen = less + 1 ∧ SettlesAt fingerprints old less state
      (startDefinition fingerprint name) (startDefinition fingerprint name) fun _ => True := by
  have hin : fingerprint ∈ state.unseen fingerprints := Finset.mem_filter.2 ⟨hmem, hnone⟩
  have hpos : 0 < (state.unseen fingerprints).card := Finset.card_pos.2 ⟨_, hin⟩
  have hunseen := hstate.unseen
  refine ⟨unseen - 1, by omega, rfl, ⟨?_, hstate.failures⟩, trivial⟩
  have hsubset : ∀ left : TypingState, (∃ id, left.seen = (fingerprint, id) :: state.seen) →
      left.unseen fingerprints ⊆ (state.unseen fingerprints).erase fingerprint := by
    rintro left ⟨id, hseen⟩ other hother
    obtain ⟨hother, hlookup⟩ := Finset.mem_filter.1 hother
    rw [hseen, List.lookup_cons] at hlookup
    cases hsame : other == fingerprint with
    | true =>
      rw [hsame] at hlookup
      cases hlookup
    | false =>
      rw [hsame] at hlookup
      exact Finset.mem_erase.2 ⟨beq_eq_false_iff_ne.1 hsame, Finset.mem_filter.2 ⟨hother, hlookup⟩⟩
  refine (Finset.card_le_card (hsubset _ ⟨_, rfl⟩)).trans ?_
  rw [Finset.card_erase_of_mem hin]
  exact Nat.sub_le_sub_right hunseen 1

theorem SettlesAt.mono {state : TypingState} {m m' : Typing α} {more : Nat} (hle : unseen ≤ more)
    (h : SettlesAt fingerprints old unseen state m m' post) :
    SettlesAt fingerprints old more state m m' post :=
  ⟨h.1, h.2.mono (fun _ _ h => h.imp_left (TypingState.Holds.mono · hle))
    fun _ _ h => h.imp_left (TypingState.Holds.mono · hle)⟩

theorem settlesAt_get_bind {state : TypingState} {f f' : TypingState → Typing α}
    (h : SettlesAt fingerprints old unseen state (f state) (f' state) post) :
    SettlesAt fingerprints old unseen state (get >>= f) (get >>= f') post := h

end Rules

/-! ### The levels that are needed -/

section Levels

variable (document schema : Json)

/-- The fingerprints of all records that typing can come to. -/
def fingerprints : Finset String :=
  ((Schema.territory document schema).map Schema.fingerprint).toFinset

/-- How many levels are enough for so many fingerprints that are unseen, so many maps until the next
record, and so many unified schemas until the next map. -/
def cost (unseen maps parts : Nat) : Nat :=
  (unseen * ((Schema.sources document schema).length + 1) + maps) *
    ((Schema.territory document schema).length + 1) + parts

/-- A schema that typing comes to with so many maps until the next record, and so many steps until
its unfolding ends. -/
structure Budgeted (node : Json) (maps parts : Nat) : Prop where
  reached : Schema.Reached document schema node
  maps : Schema.Bounded document [.part, .value] .value maps node
  parts : Schema.Bounded document [.part] .part parts node

variable {document schema} {node next : Json} {unseen maps parts : Nat}

theorem cost_property : cost document schema unseen (Schema.sources document schema).length
      (Schema.territory document schema).length < cost document schema (unseen + 1) maps parts := by
  rw [cost, cost]
  generalize (Schema.sources document schema).length = S
  generalize (Schema.territory document schema).length = D
  calc (unseen * (S + 1) + S) * (D + 1) + D
      < (unseen * (S + 1) + S) * (D + 1) + (D + 1) := by omega
    _ = (unseen + 1) * (S + 1) * (D + 1) := by ring
    _ ≤ ((unseen + 1) * (S + 1) + maps) * (D + 1) :=
        Nat.mul_le_mul_right _ (Nat.le_add_right _ _)
    _ ≤ ((unseen + 1) * (S + 1) + maps) * (D + 1) + parts := Nat.le_add_right _ _

theorem cost_value : cost document schema unseen maps (Schema.territory document schema).length <
    cost document schema unseen (maps + 1) parts := by
  rw [cost, cost, ← Nat.add_assoc, Nat.succ_mul]
  omega

theorem cost_part :
    cost document schema unseen maps parts < cost document schema unseen maps (parts + 1) :=
  Nat.lt_succ_self _

theorem card_fingerprints_le :
    (fingerprints document schema).card ≤ (Schema.territory document schema).length :=
  (List.toFinset_card_le _).trans (List.length_map _).le

theorem fingerprint_mem (h : node ∈ Schema.territory document schema) :
    Schema.fingerprint node ∈ fingerprints document schema :=
  List.mem_toFinset.2 (List.mem_map_of_mem h)

theorem cost_lt_levelsFor (hdocument : document.WellFormed) (hschema : schema.WellFormed) :
    cost document schema (Schema.territory document schema).length
        (Schema.sources document schema).length (Schema.territory document schema).length <
      levelsFor document schema := by
  have hterritory := Schema.length_territory_le hdocument hschema rfl
  rw [cost, levelsFor, Schema.length_sources]
  generalize document.size + schema.size = N at hterritory
  generalize (Schema.territory document schema).length = D at hterritory
  have hD : D + 1 ≤ (N + 2) ^ 3 := by
    calc D + 1 ≤ (N + 1) * (N * N + 1) + 1 := Nat.succ_le_succ hterritory
      _ ≤ (N + 2) ^ 3 := by ring_nf; omega
  calc (D * (N + 1 + 1) + (N + 1)) * (D + 1) + D
      < (D * (N + 1 + 1) + (N + 1)) * (D + 1) + (D + 1) := by omega
    _ = (D + 1) * (N + 2) * (D + 1) := by ring
    _ ≤ (N + 2) ^ 3 * (N + 2) * (N + 2) ^ 3 := by gcongr
    _ = (N + 2) ^ 7 := by ring
    _ ≤ (N + 2) ^ 8 := Nat.pow_le_pow_right (by omega) (by omega)

end Levels

section Budgeted

variable {document schema node next unified : Json} {maps parts : Nat}

theorem budgeted_of_reached (h : Schema.Reached document schema node)
    (hmaps : Schema.Bounded document [.part, .value] .value maps node)
    (hfounded : Schema.Founded document node) :
    Budgeted document schema node maps (Schema.territory document schema).length :=
  ⟨h, hmaps, h.bounded_parts hfounded⟩

variable (hdocument : document.WellFormed) (hschema : schema.WellFormed)

include hdocument hschema

theorem Budgeted.leads (h : Budgeted document schema node maps parts)
    (hleads : Schema.Leads document node next) : Budgeted document schema next maps parts :=
  ⟨h.reached.step hdocument hschema hleads.step,
    h.maps.step List.mem_cons_self hleads.step, h.parts.step List.mem_cons_self hleads.step⟩

theorem Budgeted.branches (h : Budgeted document schema node maps parts)
    (href : node.member? "$ref" = none) {op : Schema.Combinator} {branches : List Json}
    (hbranches : Schema.combinator? node = some (op, branches)) {resolved : List Schema.Resolved}
    (hresolved :
      List.Forall₂ (fun part r => Schema.resolve document part = .ok r) branches resolved)
    (hunified : Schema.unifyAll ((resolved.filter isConstrained).map Schema.Resolved.schema) =
      .ok unified) :
    ∃ less, parts = less + 1 ∧ Budgeted document schema unified maps less := by
  have hsteps : ∀ branch ∈ branches, Schema.Step document .part node branch :=
    fun _ hbranch => .branch href hbranches hbranch
  have hne : branches ≠ [] := by
    rintro rfl
    cases hresolved
    cases hunified
  obtain ⟨hreached, hbounded⟩ :=
    h.reached.branches hdocument hschema href hbranches hresolved hunified
  obtain ⟨less, rfl, hparts⟩ := h.parts.exists_succ_all List.mem_cons_self hne hsteps
  exact ⟨less, rfl, hreached,
    hbounded List.mem_cons_self fun branch hbranch =>
      h.maps.step List.mem_cons_self (hsteps branch hbranch),
    hbounded List.mem_cons_self hparts⟩

theorem Budgeted.value (h : Budgeted document schema node maps parts)
    (hstep : Schema.Step document .value node next) :
    ∃ less, maps = less + 1 ∧ (Schema.Founded document next →
      Budgeted document schema next less (Schema.territory document schema).length) := by
  obtain ⟨less, rfl, hmaps⟩ := h.maps.exists_succ (by decide) hstep
  exact ⟨less, rfl, budgeted_of_reached (h.reached.step hdocument hschema hstep) hmaps⟩

theorem Budgeted.values (h : Budgeted document schema node maps parts)
    (hmap : Schema.MapLike node) (hseveral : (Schema.mapValues node).length ≠ 1)
    {resolved : List Schema.Resolved}
    (hresolved : List.Forall₂ (fun part r => Schema.resolve document part = .ok r)
      (Schema.mapValues node) resolved)
    (hunified : Schema.unifyAll (resolved.map Schema.Resolved.schema) = .ok unified) :
    ∃ less, maps = less + 1 ∧ (Schema.Founded document unified →
      Budgeted document schema unified less (Schema.territory document schema).length) := by
  have hne : Schema.mapValues node ≠ [] := by
    intro hnil
    rw [hnil] at hresolved
    cases hresolved
    cases hunified
  obtain ⟨hreached, hbounded⟩ :=
    h.reached.values hdocument hschema hmap hseveral hresolved hunified
  have hsteps : ∀ value ∈ Schema.mapValues node, Schema.Step document .value node value :=
    fun _ hvalue => ⟨hmap, hvalue⟩
  obtain ⟨less, rfl, hmaps⟩ := h.maps.exists_succ_all (by decide) hne hsteps
  exact ⟨less, rfl, budgeted_of_reached hreached (hbounded List.mem_cons_self hmaps)⟩

end Budgeted

/-! ### Typing one level -/

section Level

variable {inner inner' : String → String → Schema.Resolved → Typing PropertyType}
  {subject : Subject} {schema node : Json} {old : List TypingFailure}
  {bound unseen maps parts : Nat}

/-- Two computations do the same and end as long as so many records are left for a subject. -/
abbrev Finishes (subject : Subject) (schema : Json) (old : List TypingFailure) (unseen : Nat)
    {α : Type} (m m' : Typing α) : Prop :=
  Settles (fingerprints subject.document schema) old unseen m m' fun _ => True

/-- The rules one level further in do the same where less than so many levels are needed. -/
def InnerFinishes (subject : Subject) (schema : Json) (old : List TypingFailure) (bound : Nat)
    (inner inner' : String → String → Schema.Resolved → Typing PropertyType) : Prop :=
  ∀ {unseen maps parts node resolved}, Schema.resolve subject.document node = .ok resolved →
    Budgeted subject.document schema node maps parts →
    cost subject.document schema unseen maps parts < bound → ∀ path hint,
      Finishes subject schema old unseen (inner path hint resolved) (inner' path hint resolved)

variable (hinner : InnerFinishes subject schema old bound inner inner')

include hinner

theorem finishes_typeInner (path hint : String)
    (hnode : Schema.Founded subject.document node →
      Budgeted subject.document schema node maps parts)
    (hcost : cost subject.document schema unseen maps parts < bound) :
    Finishes subject schema old unseen (typeInner inner subject path hint node)
      (typeInner inner' subject path hint node) :=
  (settles_resolve subject node).bind fun _ hresolved =>
    hinner hresolved (hnode (Schema.resolve_eq_ok_iff.1 hresolved).founded_sound.1) hcost path hint

variable (hmaps : Schema.MapsEnd subject.document)

include hmaps

theorem finishes_propertyOf (path name : String)
    (hnode : Schema.Reached subject.document schema node)
    (hcost : cost subject.document schema unseen (Schema.sources subject.document schema).length
      (Schema.territory subject.document schema).length < bound) :
    Finishes subject schema old unseen (propertyOf inner subject path name node)
      (propertyOf inner' subject path name node) := by
  refine (settles_resolve subject node).bind fun resolved hresolved => ?_
  have hfounded := (Schema.resolve_eq_ok_iff.1 hresolved).founded_sound.1
  have hbudget := budgeted_of_reached hnode (hnode.bounded_maps hmaps) hfounded
  exact (hinner hresolved hbudget hcost path name).bind fun _ _ => Settles.pure trivial

theorem finishes_propertiesOf (path : String) (required : List String) {members : Members}
    (hmembers : ∀ entry ∈ members, Schema.Reached subject.document schema entry.2)
    (hcost : cost subject.document schema unseen (Schema.sources subject.document schema).length
      (Schema.territory subject.document schema).length < bound) :
    Finishes subject schema old unseen (propertiesOf inner subject path required members)
      (propertiesOf inner' subject path required members) := by
  induction members with
  | nil => exact Settles.pure trivial
  | cons member rest ih =>
    obtain ⟨name, next⟩ := member
    obtain ⟨hnext, hrest⟩ := List.forall_mem_cons.1 hmembers
    refine ((finishes_propertyOf hinner hmaps _ name hnext hcost).attempt _).bind fun found _ => ?_
    refine (ih hrest).bind fun others _ => ?_
    cases found with
    | none => exact Settles.pure trivial
    | some property => exact Settles.pure trivial

variable (hdocument : subject.document.WellFormed) (hschema : schema.WellFormed)

include hdocument hschema

/-- A record is entered if there is no definition for its fingerprint yet, and then there is one. -/
theorem finishes_definitionOf (path name : String)
    (hnode : Schema.Reached subject.document schema node) (hobject : Schema.ForObjects node)
    (hcost : cost subject.document schema unseen maps parts ≤ bound) :
    Finishes subject schema old unseen (definitionOf inner subject path name node)
      (definitionOf inner' subject path name node) := by
  intro state hstate
  refine settlesAt_get_bind ?_
  cases hlookup : state.seen.lookup (Schema.fingerprint node) with
  | some id =>
    exact (settles_addUse subject id path).bind (fun _ _ => Settles.pure trivial) state hstate
  | none =>
    -- the definition is taken in before the properties are typed: one record less is left for them
    obtain ⟨less, rfl, hstart⟩ :=
      settlesAt_startDefinition hstate (fingerprint_mem hnode.mem) hlookup name
    refine (hstart.bind fun id _ => ?_).mono (Nat.le_succ less)
    refine (settles_addUse subject id path).bind fun _ _ => ?_
    refine (finishes_propertiesOf hinner hmaps path _ (fun entry hentry => ?_)
      (cost_property.trans_le hcost)).bind fun properties _ => ?_
    · have hstep : Schema.Step subject.document .property node entry.2 :=
        ⟨hobject, List.mem_map_of_mem (List.mem_filter.1 hentry).1⟩
      exact hnode.step hdocument hschema hstep
    · exact (settles_finishDefinition id _ properties).bind fun _ _ => Settles.pure trivial

omit hmaps in
theorem finishes_typeOfValues (path name : String)
    (hnode : Budgeted subject.document schema node maps parts) (hmap : Schema.MapLike node)
    (hcost : cost subject.document schema unseen maps parts ≤ bound) :
    Finishes subject schema old unseen
      (typeOfValues inner subject path name (Schema.mapValues node))
      (typeOfValues inner' subject path name (Schema.mapValues node)) := by
  unfold typeOfValues
  split
  · next single hsingle =>
    have hstep : Schema.Step subject.document .value node single :=
      ⟨hmap, hsingle ▸ List.mem_singleton_self single⟩
    obtain ⟨less, rfl, hvalue⟩ := hnode.value hdocument hschema hstep
    exact finishes_typeInner hinner path name hvalue (cost_value.trans_le hcost)
  · next hseveral =>
    refine (Settles.mapM fun value _ => settles_resolve subject value).bind
      fun resolved hresolved => (settles_unifyAll _).bind fun unified hunified => ?_
    have hlength : (Schema.mapValues node).length ≠ 1 := by
      intro hone
      obtain ⟨single, hsingle⟩ := List.length_eq_one_iff.1 hone
      exact hseveral single hsingle
    obtain ⟨less, rfl, hvalue⟩ :=
      hnode.values hdocument hschema hmap hlength hresolved hunified
    exact finishes_typeInner hinner path _ hvalue (cost_value.trans_le hcost)

theorem finishes_typeOfObject (path name : String)
    (hnode : Budgeted subject.document schema node maps parts) (hobject : Schema.ForObjects node)
    (hcost : cost subject.document schema unseen maps parts ≤ bound) :
    Finishes subject schema old unseen (typeOfObject inner subject path name node)
      (typeOfObject inner' subject path name node) := by
  unfold typeOfObject
  split
  · exact (finishes_definitionOf hinner hmaps hdocument hschema path name hnode.reached hobject
      hcost).bind fun _ _ => Settles.pure trivial
  · split
    · next hmap =>
      exact (finishes_typeOfValues hinner hdocument hschema path name hnode ⟨hobject, hmap⟩
        hcost).bind fun _ _ => Settles.pure trivial
    · exact Settles.pure trivial

theorem finishes_typeOfConcrete (path name : String)
    (hnode : Budgeted subject.document schema node maps parts)
    (href : node.member? "$ref" = none) (hcombinator : Schema.combinator? node = none)
    (hcost : cost subject.document schema unseen maps parts ≤ bound) :
    Finishes subject schema old unseen (typeOfConcrete inner subject path name node)
      (typeOfConcrete inner' subject path name node) := by
  have hplain : ∀ type : PropertyType, Finishes subject schema old unseen
      (Pure.pure type : Typing PropertyType) (Pure.pure type) := fun _ => Settles.pure trivial
  have hfails : ∀ reason, Finishes subject schema old unseen
      (throw (.unsupported path reason) : Typing PropertyType)
      (throw (.unsupported path reason)) := fun _ => Settles.throw id
  have hobject := fun htype => finishes_typeOfObject hinner hmaps hdocument hschema path name hnode
    ⟨href, hcombinator, htype⟩ hcost
  unfold typeOfConcrete
  split
  · next type htype =>
    split
    · split
      · exact hplain .dateTime
      · exact hplain .string
    · exact hplain .number
    · exact hplain .number
    · exact hplain .boolean
    · exact hplain .null
    · exact hobject (Or.inr htype)
    · exact hfails _
  · exact hfails _
  · next htype =>
    split
    · exact hobject (Or.inl htype)
    · split
      · exact hplain .string
      · split
        · exact hplain .json
        · exact hfails _

omit hmaps in
theorem finishes_typeOfAll (path hint : String)
    (hnode : Budgeted subject.document schema node maps parts)
    (href : node.member? "$ref" = none) {op : Schema.Combinator} {branches : List Json}
    (hbranches : Schema.combinator? node = some (op, branches)) {resolved : List Schema.Resolved}
    (hresolved : Schema.UnfoldAll subject.document branches resolved)
    (hcost : cost subject.document schema unseen maps parts ≤ bound) :
    Finishes subject schema old unseen
      (typeOfAll inner subject path hint (resolved.filter isConstrained))
      (typeOfAll inner' subject path hint (resolved.filter isConstrained)) := by
  refine (settles_unifyAll _).bind fun unified hunified => ?_
  obtain ⟨less, rfl, hunified⟩ :=
    hnode.branches hdocument hschema href hbranches hresolved.forall₂ hunified
  exact finishes_typeInner hinner path _ (fun _ => hunified) (cost_part.trans_le hcost)

theorem finishes_typeOf {name : Option String} {resolved : Schema.Resolved}
    (hresolved : Schema.Unfolds subject.document name node resolved) (path hint : String)
    (hnode : Budgeted subject.document schema node maps parts)
    (hcost : cost subject.document schema unseen maps parts ≤ bound) :
    Finishes subject schema old unseen (typeOf inner subject path hint resolved)
      (typeOf inner' subject path hint resolved) := by
  -- on the unfolding: the resolved schema stays the same where a reference is followed
  induction hresolved using @Schema.Unfolds.rec subject.document _ (fun branches resolved _ =>
      (∀ branch ∈ branches, Budgeted subject.document schema branch maps parts) →
        Finishes subject schema old unseen (typeOfConstrained inner subject path hint resolved)
          (typeOfConstrained inner' subject path hint resolved) ∧
        ∀ texts, Finishes subject schema old unseen (typesOf inner subject path hint texts resolved)
          (typesOf inner' subject path hint texts resolved)) with
  | reference href htarget _ ih => exact ih (hnode.leads hdocument hschema (.target href htarget))
  | @combined name node op branches resolved href hbranches hunfolds ih =>
    obtain ⟨hconstrained, htypes⟩ := ih fun branch hbranch =>
      hnode.leads hdocument hschema (.branch href hbranches hbranch)
    cases op with
    | allOf =>
      have hall := finishes_typeOfAll hinner hdocument hschema path hint hnode href hbranches
        hunfolds hcost
      rw [typeOf, typeOf]
      split
      · exact Settles.pure trivial
      · exact hconstrained
      · exact hall
    | anyOf =>
      rw [typeOf, typeOf]
      exact (htypes []).bind fun types _ => settles_unionOf path types
    | oneOf =>
      rw [typeOf, typeOf]
      exact (htypes []).bind fun types _ => settles_unionOf path types
  | items href hbranches harray hitems _ ih =>
    have hitem := hnode.leads hdocument hschema (.items href hbranches harray hitems)
    rw [typeOf, typeOf]
    exact (ih hitem).bind fun _ _ => Settles.pure trivial
  | array => exact Settles.pure trivial
  | concrete href hbranches _ =>
    exact finishes_typeOfConcrete hinner hmaps hdocument hschema path _ hnode href hbranches hcost
  | nil => exact ⟨Settles.pure trivial, fun _ => Settles.pure trivial⟩
  | cons _ _ ih ihrest hall =>
    obtain ⟨hfirst, hrest⟩ := List.forall_mem_cons.1 hall
    obtain ⟨hconstrained, htypes⟩ := ihrest hrest
    refine ⟨?_, fun texts => ?_⟩
    · rw [typeOfConstrained, typeOfConstrained]
      split
      · exact ih hfirst
      · exact hconstrained
    · rw [typesOf, typesOf]
      refine (ih hfirst).bind fun type _ => (settles_render type).bind fun text _ => ?_
      split
      · exact htypes texts
      · exact (htypes (text :: texts)).bind fun _ _ => Settles.pure trivial

end Level

/-! ### All levels -/

section Document

variable {subject : Subject} {schema : Json} (hdocument : subject.document.WellFormed)
  (hschema : schema.WellFormed) (hmaps : Schema.MapsEnd subject.document)

include hdocument hschema hmaps

/-- Two numbers of levels give the same where both are as large as what is needed. -/
theorem finishes_typeWithin (old : List TypingFailure) {bound levels levels' : Nat}
    (h : bound ≤ levels) (h' : bound ≤ levels') : InnerFinishes subject schema old bound
      (typeWithin subject levels) (typeWithin subject levels') := by
  induction bound generalizing levels levels' with
  | zero => exact fun _ _ hcost => absurd hcost (Nat.not_lt_zero _)
  | succ bound ih =>
    obtain ⟨less, rfl⟩ := Nat.exists_eq_add_of_le' h
    obtain ⟨less', rfl⟩ := Nat.exists_eq_add_of_le' h'
    exact fun hresolved hnode hcost path hint =>
      finishes_typeOf (ih (Nat.le_add_left bound less) (Nat.le_add_left bound less')) hmaps
        hdocument hschema (Schema.resolve_eq_ok_iff.1 hresolved) path hint hnode
        (Nat.le_of_lt_succ hcost)

omit hdocument hschema hmaps in
/-- Typing a schema comes to an end, with a property or with an error, whatever has been typed
before, in every document where no map comes to itself again without a record in between: a larger
number of levels makes no difference, and nothing fails because the levels have been used up. What
lies in between are references, branches, items and values of maps. A schema with one of the first
three is gone through as that, and is no record, even if it declares properties. -/
theorem property_terminates (subject : Subject) (schema : Json)
    (hdocument : subject.document.WellFormed) (hschema : schema.WellFormed)
    (hmaps : Schema.MapsEnd subject.document) (path name : String) (state : TypingState) :
    (∀ levels, levelsFor subject.document schema ≤ levels →
      (propertyOf (typeWithin subject levels) subject path name schema).run.run state =
        (property subject path name schema).run.run state) ∧
    Ends (property subject path name schema) state
      (fun _ left => ∀ failure ∈ left.failures,
        failure ∈ state.failures ∨ ¬ failure.error.IsEndless)
      fun e left => ¬ e.IsEndless ∧
        ∀ failure ∈ left.failures, failure ∈ state.failures ∨ ¬ failure.error.IsEndless := by
  have hstate : state.Holds (fingerprints subject.document schema) state.failures
      (Schema.territory subject.document schema).length :=
    ⟨(Finset.card_filter_le _ _).trans card_fingerprints_le, fun _ => Or.inl⟩
  have hnode : Schema.Reached subject.document schema schema :=
    Schema.reached_of_source hdocument hschema (Schema.mem_sources_iff.2 (Or.inr (Or.inl .refl)))
  have hsettles : ∀ {levels}, levelsFor subject.document schema ≤ levels →
      SettlesAt _ _ _ state (propertyOf (typeWithin subject levels) subject path name schema)
        (property subject path name schema) fun _ => True := fun h =>
    finishes_propertyOf (finishes_typeWithin hdocument hschema hmaps state.failures h le_rfl) hmaps
      path name hnode (cost_lt_levelsFor hdocument hschema) state hstate
  refine ⟨fun levels h => (hsettles h).1, (hsettles le_rfl).2.mono ?_ ?_⟩
  · exact fun _ left h => h.1.failures
  · exact fun _ left h => ⟨h.2, h.1.failures⟩

end Document

/-- Without a record in between there is no end: a map that is its own value has no type, however
many levels there are. -/
theorem typeWithin_endless {subject : Subject} {map value : Json} {name : Option String}
    (htype : map.member? "type" = none ∨ map.member? "type" = some (.str "object"))
    (hmap : Schema.isMap map = true) (hvalue : Schema.mapValues map = [value])
    (hback : Schema.resolve subject.document value = .ok (.concrete map name)) (levels : Nat)
    (path hint : String) (state : TypingState) :
    Ends (typeWithin subject levels path hint (.concrete map name)) state (fun _ _ => False)
      fun e left => e = .endless path ∧ left = state := by
  induction levels generalizing hint with
  | zero => exact ⟨rfl, rfl⟩
  | succ levels ih =>
    have hrecord : Schema.isRecord map = false := by
      rw [Schema.isMap_eq, Bool.and_eq_true, Bool.not_eq_true'] at hmap
      exact hmap.1
    have hobject : Ends (typeOfObject (typeWithin subject levels) subject path (name.getD hint) map)
        state (fun _ _ => False) fun e left => e = .endless path ∧ left = state := by
      rw [typeOfObject, if_neg (by rw [hrecord]; decide), if_pos hmap, hvalue, ends_bind,
        typeOfValues, typeInner, resolve, hback]
      exact (ih (name.getD hint)).mono (fun _ _ h => h) fun _ _ h => h
    rw [typeWithin, typeOf, typeOfConcrete]
    rcases htype with htype | htype
    · rw [htype]
      dsimp only
      rw [hmap, Bool.or_true]
      exact hobject
    · rw [htype]
      exact hobject

/-- A document with a record that has a map of the same records. -/
def forest : Json :=
  .obj [("definitions", .obj [("Node", .obj [("properties", .obj [("Children",
    .obj [("additionalProperties", .obj [("$ref", .str "#/definitions/Node")])])])])])]

/-- A reference to the record. -/
def forestNode : Json := .obj [("$ref", .str "#/definitions/Node")]

theorem wellFormed_obj_singleton {key : String} {value : Json} (h : value.WellFormed) :
    (Json.obj [(key, value)]).WellFormed :=
  Json.wellFormed_obj.2
    ⟨List.pairwise_singleton _ _, fun _ hentry => List.mem_singleton.1 hentry ▸ h⟩

theorem wellFormed_forestNode : forestNode.WellFormed := by
  have htext : (Json.str "#/definitions/Node").WellFormed := trivial
  exact wellFormed_obj_singleton htext

theorem wellFormed_forest : forest.WellFormed :=
  wellFormed_obj_singleton (wellFormed_obj_singleton (wellFormed_obj_singleton
    (wellFormed_obj_singleton (wellFormed_obj_singleton wellFormed_forestNode))))

/-- From the values of the only map there the record can be come to, but nothing after it. -/
theorem mapsEnd_forest : Schema.MapsEnd forest := by
  intro map hmap hlike value hvalue hback
  have hmem := List.mem_filter.2 ⟨Json.mem_inside_iff.2 hmap, hlike.isMap⟩
  have hmaps : forest.inside.filter Schema.isMap =
      [.obj [("additionalProperties", forestNode)]] := rfl
  obtain rfl := List.mem_singleton.1 (hmaps ▸ hmem)
  obtain rfl := List.mem_singleton.1 hvalue
  have hinvariant : ∀ {next}, Relation.ReflTransGen (Schema.GoesOn forest) forestNode next →
      Schema.isMap next = false ∧ ∀ other ∈ Schema.parts forest next,
        Schema.isMap other = false ∧ Schema.parts forest other = [] := by
    intro next hnext
    induction hnext with
    | refl =>
      refine ⟨rfl, fun other hother => ?_⟩
      obtain rfl := List.mem_singleton.1 hother
      exact ⟨rfl, rfl⟩
    | tail _ hstep ih =>
      rcases hstep with hpart | ⟨hmap, _⟩
      · obtain ⟨hmap, hparts⟩ := ih.2 _ hpart
        exact ⟨hmap, fun other hother => absurd (hparts ▸ hother) List.not_mem_nil⟩
      · exact absurd (ih.1.symm.trans hmap.isMap) Bool.false_ne_true
  exact absurd ((hinvariant hback).1.symm.trans hlike.isMap) Bool.false_ne_true

theorem property_terminates_forest :
    let subject : Subject := ⟨⟨0⟩, forest⟩
    let state : TypingState := ⟨.empty, .full, [], [], []⟩
    forest.WellFormed ∧ forestNode.WellFormed ∧ Schema.MapsEnd forest ∧
      (∀ levels, levelsFor forest forestNode ≤ levels →
        (propertyOf (typeWithin subject levels) subject "Root" "Root" forestNode).run.run state =
          (property subject "Root" "Root" forestNode).run.run state) ∧
      Ends (property subject "Root" "Root" forestNode) state
        (fun _ left => ∀ failure ∈ left.failures, failure ∈ [] ∨ ¬ failure.error.IsEndless)
        fun e left => ¬ e.IsEndless ∧
          ∀ failure ∈ left.failures, failure ∈ [] ∨ ¬ failure.error.IsEndless := by
  intro subject state
  exact ⟨wellFormed_forest, wellFormed_forestNode, mapsEnd_forest,
    property_terminates subject forestNode wellFormed_forest wellFormed_forestNode mapsEnd_forest
      "Root" "Root" state⟩

end Typing

end ResourceCatalog
