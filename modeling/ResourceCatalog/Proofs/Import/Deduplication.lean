import Mathlib
import ResourceCatalog.Proofs.Import.Accounts
import ResourceCatalog.Proofs.Json.Printing

/-!
# One definition for equal records

While the properties of a resource are typed, each record that is met is answered with a definition.
Two records have the same answer exactly if nothing but their documentation tells them apart, and a
definition is what its first record describes: it has the properties that got a type.

Records are told apart by the digests of their texts. Where no two of the texts have one digest, the
texts themselves decide. The zeros of either sign are equal as numbers but not as texts, so records
that differ in the sign of a zero have two definitions.
-/

namespace ResourceCatalog

/-- No two of some texts have the same digest. -/
def Sha256.Collisionless (texts : List String) : Prop :=
  ∀ text ∈ texts, ∀ other ∈ texts, Sha256.ofText text = Sha256.ofText other → text = other

theorem Sha256.collisionless_of_two {texts : List String} {a b : String}
    (hne : Sha256.ofText a ≠ Sha256.ofText b) (h : ∀ text ∈ texts, text = a ∨ text = b) :
    Sha256.Collisionless texts := by
  intro text htext other hother hsame
  rcases h text htext with rfl | rfl
  · exact (h other hother).elim Eq.symm fun hother => absurd (hother ▸ hsame) hne
  · exact (h other hother).elim (fun hother => absurd (hother ▸ hsame).symm hne) Eq.symm

namespace Typing

variable {base : Database} {first : Supply} {subject : Subject} {calls : List Call}
  {before after : TypingState} {new : Additions}

/-! ### Typing several properties -/

namespace Request

theorem tells_typeAll (subject : Subject) (requests : List Request) :
    Tells base first subject (typeAll subject requests) (callsOfAll subject requests) := by
  induction requests with
  | nil => exact tells_pure _
  | cons request rest ih =>
    have htyped : Tells base first subject (request.typed subject) (request.calls subject) :=
      tells_propertyOf (tells_typeWithin subject _) _ _ _
    exact (htyped.attempt _).bind fun _ => ih.bind_silent fun _ => tells_pure _

theorem keeps_typeAll (known : List Identity) (requests : List Request) :
    Keeps base first subject.resource NoError known (typeAll subject requests)
      (fun _ _ => True) := by
  induction requests generalizing known with
  | nil => exact Keeps.pure fun _ _ => trivial
  | cons request rest ih =>
    exact ((keeps_property subject _ _ _ known).attempt _).bind fun _ found _ _ =>
      (ih found).bind fun _ _ _ _ => Keeps.pure fun _ _ => trivial

/-- Every path lies inside of the empty one. -/
theorem ends_attempt_typed (request : Request) {state : TypingState} (hstate : state.Coherent) :
    Ends (attempt request.path (request.typed subject)) state
      (fun _ left => Gathered subject.resource "" state left)
      (fun _ left => Gathered subject.resource "" state left) := by
  have hpath : joinPath "" request.path = request.path := if_pos rfl
  rw [attempt, ends_tryCatch, ends_map]
  refine (adds_property subject request.path request.name request.schema state hstate).mono ?_ ?_
  · rintro _ left ⟨hleft, new, hgrows, _⟩
    exact ⟨hleft, new, (hpath.symm ▸ hgrows).outward⟩
  · rintro e left ⟨hleft, new, hgrows, _⟩
    have houtward := (hpath.symm ▸ hgrows).outward
    rw [ends_bind, recordFailure]
    split
    · exact ⟨hleft, new, houtward⟩
    · have hrecord : Grows subject.resource "" left
          { left with failures := ⟨request.path, e⟩ :: left.failures }
          ⟨[], [], [], [⟨request.path, e⟩]⟩ := by
        rw [← hpath]
        exact .record request.path e
      exact ⟨⟨hleft.definitions, hleft.uses⟩, _, houtward.trans hrecord⟩

theorem ends_typeAll (requests : List Request) {state : TypingState} (hstate : state.Coherent) :
    Ends (typeAll subject requests) state
      (fun _ left => Gathered subject.resource "" state left)
      (fun _ left => Gathered subject.resource "" state left) := by
  induction requests generalizing state with
  | nil => exact ⟨hstate, .none, .refl state⟩
  | cons request rest ih =>
    rw [typeAll, ends_bind]
    refine (ends_attempt_typed request hstate).mono (fun _ left hleft => ?_) fun _ _ h => h
    rw [ends_bind]
    exact (ih hleft.1).mono (fun _ _ h => hleft.trans h) fun _ _ h => hleft.trans h

end Request

/-! ### Equal records -/

/-- The records of some calls have one definition exactly where they are the same but for their
documentation. -/
structure Deduplicated (subject : Subject) (calls : List Call) (before after : TypingState)
    (made : List (Record TypeDefinition)) : Prop where
  definitions : after.database.typeDefinitions.all = before.database.typeDefinitions.all ++ made
  /-- Every call is answered with a definition that has been made, -/
  answered : ∀ call ∈ calls, ∃ d ∈ made, call.answer subject = .ok d.id
  /-- and two calls with the same one if their records are the same without documentation. -/
  answer_eq_iff : ∀ call ∈ calls, ∀ other ∈ calls,
    call.answer subject = other.answer subject ↔
      Schema.undocumented call.schema = Schema.undocumented other.schema
  count : made.length =
    {schema | ∃ call ∈ calls, Schema.undocumented call.schema = schema}.ncard
  identities : (made.map Record.id).Nodup
  names : (made.map fun d => d.entity.name).Nodup
  /-- A definition is what the first record of its kind describes. -/
  filled : ∀ d ∈ made, ∃ earlier call later, calls = earlier ++ call :: later ∧
    (∀ other ∈ earlier, Schema.undocumented other.schema ≠ Schema.undocumented call.schema) ∧
    call.answer subject = .ok d.id ∧ call.Fills subject d.entity
  /-- The resource uses what its calls have been answered with, and nothing else has been added. -/
  uses : after.database.usesType = calls.foldl (Call.use subject) before.database.usesType

theorem Call.key_eq_iff (hdigests : Sha256.Collisionless (calls.map Call.text)) {call other : Call}
    (hcall : call ∈ calls) (hother : other ∈ calls) :
    call.key = other.key ↔
      Schema.undocumented call.schema = Schema.undocumented other.schema := by
  constructor
  · intro hkey
    exact Json.compact_injective (hdigests _ (List.mem_map_of_mem hcall) _
      (List.mem_map_of_mem hother) hkey)
  · intro hsame
    rw [Call.key, Schema.fingerprint, hsame]
    rfl

/-- A call is answered with the only definition that is known by its key. -/
theorem Accounts.answer_eq_iff (h : Accounts subject calls before after)
    (hkeys : (after.seen.map Prod.fst).Nodup) (hids : (after.seen.map Prod.snd).Nodup)
    {call other : Call} (hcall : call ∈ calls) (hother : other ∈ calls) :
    call.answer subject = other.answer subject ↔ call.key = other.key := by
  obtain ⟨id, hanswer, hseen⟩ := h.answered call hcall
  obtain ⟨id', hanswer', hseen'⟩ := h.answered other hother
  rw [hanswer, hanswer', Except.ok.injEq]
  constructor
  · intro hid
    exact congrArg Prod.fst (List.inj_on_of_nodup_map hids hseen hseen' hid)
  · intro hkey
    exact congrArg Prod.snd (List.inj_on_of_nodup_map hkeys hseen hseen' hkey)

/-- The keys that are known are those of the calls. -/
theorem Accounts.mem_keys_iff (h : Accounts subject calls before after) (hseen : before.seen = [])
    {key : String} : key ∈ after.seen.map Prod.fst ↔ ∃ call ∈ calls, call.key = key := by
  constructor
  · intro hkey
    obtain ⟨entry, hentry, rfl⟩ := List.mem_map.1 hkey
    rcases h.made entry hentry with hbefore | ⟨_, call, hcall, hmakes⟩
    · rw [hseen] at hbefore
      exact absurd hbefore List.not_mem_nil
    · exact ⟨call, hcall, hmakes.key⟩
  · rintro ⟨call, hcall, rfl⟩
    obtain ⟨id, _, hmem⟩ := h.answered call hcall
    exact List.mem_map.2 ⟨_, hmem, rfl⟩

/-- There are as many keys as there are records without their documentation. -/
theorem Accounts.length_seen (h : Accounts subject calls before after) (hseen : before.seen = [])
    (hkeys : (after.seen.map Prod.fst).Nodup)
    (hdigests : Sha256.Collisionless (calls.map Call.text)) :
    after.seen.length =
      {schema | ∃ call ∈ calls, Schema.undocumented call.schema = schema}.ncard := by
  have hinj : Set.InjOn Json.checksum
      {schema | ∃ call ∈ calls, Schema.undocumented call.schema = schema} := by
    rintro _ ⟨call, hcall, rfl⟩ _ ⟨other, hother, rfl⟩ hsame
    exact (Call.key_eq_iff hdigests hcall hother).1 hsame
  have himage : Json.checksum ''
      {schema | ∃ call ∈ calls, Schema.undocumented call.schema = schema} =
      ↑(after.seen.map Prod.fst).toFinset := by
    ext key
    rw [List.coe_toFinset, Set.mem_ofPred_eq, h.mem_keys_iff hseen]
    constructor
    · rintro ⟨_, ⟨call, hcall, rfl⟩, rfl⟩
      exact ⟨call, hcall, rfl⟩
    · rintro ⟨call, hcall, rfl⟩
      exact ⟨_, ⟨call, hcall, rfl⟩, rfl⟩
  rw [← hinj.ncard_image, himage, Set.ncard_coe_finset,
    List.toFinset_card_of_nodup hkeys, List.length_map]

/-- The call that made a definition is the first one with its record. -/
theorem Accounts.exists_first (h : Accounts subject calls before after)
    (hdistinct : after.database.typeDefinitions.ids.Nodup) (hseen : before.seen = [])
    {d : Record TypeDefinition} (hd : d ∈ after.database.typeDefinitions.all)
    (hfound : d.id ∈ after.seen.map Prod.snd) :
    ∃ earlier call later, calls = earlier ++ call :: later ∧
      (∀ other ∈ earlier, Schema.undocumented other.schema ≠ Schema.undocumented call.schema) ∧
      call.answer subject = .ok d.id ∧ call.Fills subject d.entity := by
  obtain ⟨entry, hentry, hid⟩ := List.mem_map.1 hfound
  rcases h.made entry hentry with hbefore | ⟨_, call, hcall, hmakes⟩
  · rw [hseen] at hbefore
    exact absurd hbefore List.not_mem_nil
  · obtain ⟨stored, hstored, hsame, hfills⟩ := hmakes.stored
    obtain rfl := Collection.eq_of_id_eq hdistinct hstored hd (hsame.trans hid)
    obtain ⟨earlier, later, hsplit⟩ := List.append_of_mem hcall
    refine ⟨earlier, call, later, hsplit, fun other hother hrecord => ?_, ?_, hfills⟩
    · have hordered := h.ordered
      rw [hsplit, List.pairwise_append] at hordered
      have hkey : other.key = call.key := congrArg Json.checksum hrecord
      exact call.isFirst_iff.1 hmakes.first
        (hkey ▸ hordered.2.2 other hother call List.mem_cons_self)
    · rw [hmakes.answer, hid]

theorem Accounts.deduplicated (h : Accounts subject calls before after)
    (hgrows : Grows subject.resource "" before after new) (hafter : after.Coherent)
    (hseen : before.seen = []) (hnames : before.names = [])
    (hdigests : Sha256.Collisionless (calls.map Call.text)) :
    Deduplicated subject calls before after new.definitions := by
  have hkeys : (after.seen.map Prod.fst).Nodup := h.distinct (hseen ▸ List.nodup_nil)
  have hnewIds : (new.definitions.map Record.id).Nodup := by
    have hvalues : ((new.definitions.map Record.id).map Identity.value).Nodup := by
      rw [List.map_map]
      exact hgrows.identities ▸ List.nodup_range'
    exact hvalues.of_map
  have hfound : after.seen.map Prod.snd = (new.definitions.map Record.id).reverse := by
    rw [hgrows.seen, hseen, List.append_nil, hgrows.found]
  have hids : (after.seen.map Prod.snd).Nodup := hfound ▸ List.nodup_reverse.2 hnewIds
  have hmem : ∀ {id}, id ∈ after.seen.map Prod.snd ↔ ∃ d ∈ new.definitions, d.id = id := by
    intro id
    rw [hfound, List.mem_reverse, List.mem_map]
  exact {
    definitions := hgrows.definitions
    answered := by
      intro call hcall
      obtain ⟨id, hanswer, hentry⟩ := h.answered call hcall
      obtain ⟨d, hd, rfl⟩ := hmem.1 (List.mem_map.2 ⟨_, hentry, rfl⟩)
      exact ⟨d, hd, hanswer⟩
    answer_eq_iff := fun call hcall other hother =>
      (h.answer_eq_iff hkeys hids hcall hother).trans (Call.key_eq_iff hdigests hcall hother)
    count := by
      rw [← h.length_seen hseen hkeys hdigests, ← List.length_map (f := Prod.snd), hfound,
        List.length_reverse, List.length_map]
    identities := hnewIds
    names := by
      have hnamed := h.named (hnames ▸ List.nodup_nil)
      rw [hgrows.names, hnames, List.append_nil, List.nodup_reverse] at hnamed
      exact hnamed
    filled := by
      intro d hd
      refine h.exists_first hafter.definitions.coherent.distinct hseen ?_ (hmem.2 ⟨d, hd, rfl⟩)
      rw [hgrows.definitions]
      exact List.mem_append_right _ hd
    uses := h.uses }

/-- When some properties have been typed one after the other, equal records have one definition,
other records have others, and every definition is complete. -/
theorem Request.typeAll_deduplicated {state : TypingState} (hstate : state.Fresh)
    (requests : List Request)
    (hdigests : Sha256.Collisionless ((callsOfAll subject requests state).map Call.text)) :
    ∃ found left made, (typeAll subject requests).run.run state = (.ok found, left) ∧
      Deduplicated subject (callsOfAll subject requests state) state left made := by
  have hprogress := progress_fresh hstate subject.resource
  have hkeeps := keeps_typeAll [] requests state hprogress (List.nil_subset _)
  obtain ⟨found, left, hrun, -⟩ := (hkeeps.mono (fun _ _ h => h) fun _ _ h => h.2.2).exists_run_ok
  obtain ⟨hleft, new, hgrows⟩ := (ends_typeAll requests hstate.toCoherent).of_run_ok hrun
  have haccounts := ((tells_typeAll subject requests) state hprogress).of_run_ok hrun
  exact ⟨found, left, new.definitions, hrun,
    haccounts.2.deduplicated hgrows hleft hstate.seen hstate.names hdigests⟩

/-! ### Two zeros -/

/-- A resource whose document says nothing. -/
def bareSubject : Subject := ⟨⟨0⟩, .obj []⟩

/-- A record of a number that is not below a zero. -/
def aboveZero (negative : Bool) (notes : Members) : Json :=
  .obj (notes ++
    [("properties", .obj [("A", .obj
      [("minimum", .num (.double (.zero negative))), ("type", .str "number")])]),
    ("type", .str "object")])

/-- The record with either zero, and once more with a description. -/
def zeroRequests : List Request :=
  [⟨"P", "P", aboveZero false []⟩, ⟨"Q", "Q", aboveZero true []⟩,
    ⟨"R", "R", aboveZero false [("description", .str "R")]⟩]

/-- The records of `P` and `Q` are equal as values but not as texts, so they have two definitions.
That of `R` has the definition of `P`. -/
theorem typeAll_deduplicated_zeroRequests :
    TypingState.empty.Fresh ∧
      Sha256.Collisionless
        ((Request.callsOfAll bareSubject zeroRequests .empty).map Call.text) ∧
      (aboveZero false []).same (aboveZero true []) = true ∧
      ∃ found left made,
        (Request.typeAll bareSubject zeroRequests).run.run .empty = (.ok found, left) ∧
        Deduplicated bareSubject (Request.callsOfAll bareSubject zeroRequests .empty) .empty left
          made ∧
        made.map (fun d => d.entity.name) = ["P", "Q"] := by
  have hdigests : Sha256.Collisionless
      ((Request.callsOfAll bareSubject zeroRequests .empty).map Call.text) := by
    apply Sha256.collisionless_of_two (a := (aboveZero false []).compact)
      (b := (aboveZero true []).compact)
    · decide +kernel
    · decide +kernel
  have hnames : ((Request.typeAll bareSubject zeroRequests).run.run
      .empty).2.database.typeDefinitions.all.map (fun d => d.entity.name) = ["P", "Q"] := by
    decide +kernel
  obtain ⟨found, left, made, hrun, hmade⟩ :=
    Request.typeAll_deduplicated TypingState.fresh_empty zeroRequests hdigests
  refine ⟨TypingState.fresh_empty, hdigests, by decide +kernel, found, left, made, hrun, hmade, ?_⟩
  rw [hrun, hmade.definitions] at hnames
  exact hnames

end Typing

end ResourceCatalog
