import Mathlib
import ResourceCatalog.Proofs.Import.Calls
import ResourceCatalog.Proofs.Import.Failures
import ResourceCatalog.Proofs.Import.Sketch

/-!
# What the records that are met account for

A definition is taken in before its properties are typed, so in the middle of typing some
definitions are still empty. `Typing.Accounts` therefore speaks of a computation from its beginning
to its end, where all definitions that it has made are complete: every call has been answered, every
new definition is what the first record of its key describes, and the uses of the resource are those
that the calls add. `Typing.Tells` is the judgement that the calls of a computation account for it;
every rule of typing has one lemma.
-/

namespace ResourceCatalog

namespace Typing

/-! ### What calls account for -/

namespace Call

variable (subject : Subject) (call : Call)

/-- A definition is what the record of a call describes: every property has been tried, and it has
those that got a type. -/
structure Fills (definition : TypeDefinition) : Prop where
  name : definition.name = call.newName
  documentation : definition.documentation = documentation? call.schema
  tried : Keyed.keys (call.outcomes subject) = Keyed.keys (Schema.properties call.schema)
  properties : ∀ name, Keyed.get? name definition.properties =
    (Keyed.get? name (typedAmong (call.outcomes subject))).map fun property =>
      { property with required := (Schema.requiredNames call.schema).contains name }

/-- A call was the first of its key and made the definition that is known by the key. -/
structure Makes (entry : String × Identity) (state : TypingState) : Prop where
  first : call.isFirst = true
  key : call.key = entry.1
  answer : call.answer subject = .ok entry.2
  stored : ∃ d ∈ state.database.typeDefinitions.all, d.id = entry.2 ∧ call.Fills subject d.entity

/-- The edges with the one that the call adds. -/
def use (edges : Edges Use) (call : Call) : Edges Use :=
  match call.answer subject with
  | .ok id => edges.add subject.resource id ⟨call.path⟩
  | .error _ => edges

theorem isFirst_iff : call.isFirst = true ↔ call.key ∉ call.state.seen.map Prod.fst := by
  rw [isFirst, Option.isNone_iff_eq_none, List.lookup_eq_none_iff, List.mem_map]
  simp only [bne_iff_ne, ne_eq]
  exact ⟨fun h ⟨entry, hentry, hkey⟩ => h entry hentry hkey.symm,
    fun h entry hentry hkey => h ⟨entry, hentry, hkey.symm⟩⟩

theorem seen_opened : (call.opened subject).seen = (call.key, call.newId) :: call.state.seen := rfl

theorem definitions_opened : (call.opened subject).database.typeDefinitions.all =
    call.state.database.typeDefinitions.all ++
      [⟨call.newId, TypeDefinition.ofName call.newName⟩] := Collection.all_append _ _

end Call

/-- What happens between two states is accounted for by some calls. -/
structure Accounts (subject : Subject) (calls : List Call) (before after : TypingState) :
    Prop where
  supply : before.supply.next ≤ after.supply.next
  old : ∀ d ∈ before.database.typeDefinitions.all, d ∈ after.database.typeDefinitions.all
  kept : before.seen <:+ after.seen
  distinct : (before.seen.map Prod.fst).Nodup → (after.seen.map Prod.fst).Nodup
  named : before.names.Nodup → after.names.Nodup
  later : ∀ call ∈ calls, before.seen <:+ call.state.seen
  ordered : calls.Pairwise fun call other => call.key ∈ other.state.seen.map Prod.fst
  answered : ∀ call ∈ calls, ∃ id, call.answer subject = .ok id ∧ (call.key, id) ∈ after.seen
  made : ∀ entry ∈ after.seen, entry ∈ before.seen ∨
    before.supply.next ≤ entry.2.value ∧ ∃ call ∈ calls, call.Makes subject entry after
  uses : after.database.usesType = calls.foldl (Call.use subject) before.database.usesType

variable {subject : Subject} {calls more : List Call} {before middle after left : TypingState}

theorem Accounts.refl (subject : Subject) (state : TypingState) :
    Accounts subject [] state state where
  supply := le_rfl
  old _ h := h
  kept := List.suffix_rfl
  distinct h := h
  named h := h
  later _ h := absurd h List.not_mem_nil
  ordered := List.Pairwise.nil
  answered _ h := absurd h List.not_mem_nil
  made _ h := Or.inl h
  uses := rfl

theorem Call.Makes.mono {call : Call} {entry : String × Identity}
    (h : call.Makes subject entry middle)
    (hold : ∀ d ∈ middle.database.typeDefinitions.all, d.id = entry.2 →
      d ∈ after.database.typeDefinitions.all) : call.Makes subject entry after where
  first := h.first
  key := h.key
  answer := h.answer
  stored := by
    obtain ⟨d, hd, hid, hfills⟩ := h.stored
    exact ⟨d, hold d hd hid, hid, hfills⟩

theorem Accounts.trans (h : Accounts subject calls before middle)
    (h' : Accounts subject more middle after) : Accounts subject (calls ++ more) before after where
  supply := h.supply.trans h'.supply
  old d hd := h'.old d (h.old d hd)
  kept := h.kept.trans h'.kept
  distinct hbefore := h'.distinct (h.distinct hbefore)
  named hbefore := h'.named (h.named hbefore)
  later call hcall := by
    apply (List.mem_append.1 hcall).elim (h.later call)
    exact fun hcall => h.kept.trans (h'.later call hcall)
  ordered := by
    apply List.pairwise_append.2 ⟨h.ordered, h'.ordered, fun call hcall other hother => ?_⟩
    obtain ⟨id, _, hseen⟩ := h.answered call hcall
    exact List.mem_map.2 ⟨_, (h'.later other hother).subset hseen, rfl⟩
  answered call hcall := by
    apply (List.mem_append.1 hcall).elim (fun hcall => ?_) (h'.answered call)
    obtain ⟨id, hanswer, hseen⟩ := h.answered call hcall
    exact ⟨id, hanswer, h'.kept.subset hseen⟩
  made entry hentry := by
    rcases h'.made entry hentry with hmiddle | ⟨hid, call, hcall, hmakes⟩
    · apply (h.made entry hmiddle).imp_right
      rintro ⟨hid, call, hcall, hmakes⟩
      exact ⟨hid, call, List.mem_append_left _ hcall, hmakes.mono fun d hd _ => h'.old d hd⟩
    · exact Or.inr ⟨h.supply.trans hid, call, List.mem_append_right _ hcall, hmakes⟩
  uses := by rw [h'.uses, h.uses, List.foldl_append]

/-- A failure that is recorded changes nothing that is accounted for. -/
theorem Accounts.record (h : Accounts subject calls before after) (failures : List TypingFailure) :
    Accounts subject calls before { after with failures } :=
  ⟨h.supply, h.old, h.kept, h.distinct, h.named, h.later, h.ordered, h.answered,
    fun entry hentry => (h.made entry hentry).imp_right fun ⟨hid, call, hcall, hmakes⟩ =>
      ⟨hid, call, hcall, hmakes.mono fun _ hd _ => hd⟩, h.uses⟩

/-- A record that has been met before. -/
theorem Accounts.again {call : Call} {id : Identity}
    (hseen : call.state.seen.lookup call.key = some id)
    (hanswer : call.answer subject = .ok id) :
    Accounts subject [call] call.state (call.state.withUse subject.resource id call.path) where
  supply := le_rfl
  old _ h := h
  kept := List.suffix_rfl
  distinct h := h
  named h := h
  later other h := by
    rw [List.mem_singleton.1 h]
  ordered := List.pairwise_singleton _ _
  answered other h := by
    rw [List.mem_singleton.1 h]
    obtain ⟨front, behind, hsplit, _⟩ := List.lookup_eq_some_iff.1 hseen
    refine ⟨id, hanswer, ?_⟩
    change _ ∈ call.state.seen
    rw [hsplit]
    exact List.mem_append_right _ List.mem_cons_self
  made _ h := Or.inl h
  uses := by
    rw [List.foldl_cons, List.foldl_nil, Call.use, hanswer]
    rfl

/-- A record that is met for the first time, with all that is met in its properties. -/
theorem Accounts.define {call : Call} (hcoherent : call.state.Coherent)
    (hfirst : call.isFirst = true) (hanswer : call.answer subject = .ok call.newId)
    (h : Accounts subject calls (call.opened subject) left) {properties : PropertyMap}
    (hfills : call.Fills subject ⟨call.newName, documentation? call.schema, properties⟩)
    {c : Collection TypeDefinition}
    (hall : c.all = left.database.typeDefinitions.all.map fun d =>
      if d.id = call.newId then
        ⟨call.newId, { d.entity with documentation := documentation? call.schema, properties }⟩
      else d) :
    Accounts subject (call :: calls) call.state
      { left with database := { left.database with typeDefinitions := c } } := by
  -- whatever has another identity is not touched when the definition gets its properties
  have hother : ∀ d ∈ left.database.typeDefinitions.all, d.id ≠ call.newId →
      d ∈ c.all := by
    intro d hd hne
    rw [hall, List.mem_map]
    exact ⟨d, hd, if_neg hne⟩
  have hcompleted : ⟨call.newId, ⟨call.newName, documentation? call.schema, properties⟩⟩ ∈
      c.all := by
    rw [hall, List.mem_map]
    refine ⟨⟨call.newId, TypeDefinition.ofName call.newName⟩, h.old _ ?_, if_pos rfl⟩
    rw [call.definitions_opened]
    exact List.mem_append_right _ List.mem_cons_self
  have hkept : call.state.seen <:+ (call.opened subject).seen := List.suffix_cons _ _
  have hknown : (call.key, call.newId) ∈ left.seen := h.kept.subset List.mem_cons_self
  exact {
    supply := (Nat.le_succ _).trans h.supply
    old := by
      intro d hd
      apply hother d
      · apply h.old d
        rw [call.definitions_opened]
        exact List.mem_append_left _ hd
      · intro hsame
        exact hcoherent.definitions.next_not_mem (Collection.mem_ids.2 ⟨d, hd, hsame⟩)
    kept := hkept.trans h.kept
    distinct := fun hdistinct =>
      h.distinct (List.nodup_cons.2 ⟨(call.isFirst_iff).1 hfirst, hdistinct⟩)
    named := fun hnamed => h.named (List.nodup_cons.2 ⟨freeName_not_mem _ _, hnamed⟩)
    later := by
      intro other hmem
      rcases List.mem_cons.1 hmem with rfl | hmem
      · exact List.suffix_rfl
      · exact hkept.trans (h.later other hmem)
    ordered := by
      apply List.pairwise_cons.2 ⟨fun other hmem => ?_, h.ordered⟩
      exact List.mem_map.2 ⟨_, (h.later other hmem).subset List.mem_cons_self, rfl⟩
    answered := by
      intro other hmem
      rcases List.mem_cons.1 hmem with rfl | hmem
      · exact ⟨_, hanswer, hknown⟩
      · exact h.answered other hmem
    made := by
      intro entry hentry
      rcases h.made entry hentry with hopened | ⟨hid, other, hmem, hmakes⟩
      · rw [call.seen_opened] at hopened
        rcases List.mem_cons.1 hopened with rfl | hbefore
        · exact Or.inr ⟨le_rfl, call, List.mem_cons_self, hfirst, rfl, hanswer, _, hcompleted, rfl,
            hfills⟩
        · exact Or.inl hbefore
      · refine Or.inr ⟨(Nat.le_succ _).trans hid, other, List.mem_cons_of_mem _ hmem,
          hmakes.mono fun d hd hsame => hother d hd fun hnext => ?_⟩
        rw [← hsame, hnext] at hid
        exact absurd hid (Nat.not_succ_le_self _)
    uses := by
      change left.database.usesType = _
      rw [h.uses, List.foldl_cons, Call.use, hanswer]
      rfl }

/-! ### Computations and their calls -/

/-- A computation keeps the progress of typing, and its calls account for what it does. -/
def Tells (base : Database) (first : Supply) (subject : Subject) {α : Type} (m : Typing α)
    (calls : TypingState → List Call) : Prop :=
  ∀ state, Progress base first subject.resource state →
    Ends m state
      (fun _ left => Progress base first subject.resource left ∧
        Accounts subject (calls state) state left)
      (fun _ left => Progress base first subject.resource left ∧
        Accounts subject (calls state) state left)

variable {base : Database} {first : Supply}

section Rules

variable {α β : Type} {state : TypingState} {m : Typing α} {a : α} {e : TypingError}

theorem thereafter_ok {next : α → TypingState → List β} (h : m.run.run state = (.ok a, left)) :
    thereafter m next state = next a left := by rw [thereafter, h]

theorem thereafter_error {next : α → TypingState → List β}
    (h : m.run.run state = (.error e, left)) : thereafter m next state = [] := by rw [thereafter, h]

theorem thereafter_nil : thereafter m (fun _ _ => ([] : List β)) state = [] := by
  unfold thereafter
  split <;> rfl

theorem Outright.tells {m : Typing α} (h : Outright m) :
    Tells base first subject m fun _ => [] := by
  intro state hstate
  rcases h with ⟨a, rfl⟩ | ⟨e, _, rfl⟩
  · exact ⟨hstate, .refl _ _⟩
  · exact ⟨hstate, .refl _ _⟩

theorem outright_pure (a : α) : Outright (pure a) := Or.inl ⟨a, rfl⟩

theorem outright_unsupported (path reason : String) :
    Outright (throw (.unsupported path reason) : Typing α) :=
  Or.inr ⟨.unsupported path reason, rfl, rfl⟩

theorem outright_unionOf (path : String) (types : List PropertyType) :
    Outright (typeOf.unionOf path types) := by
  unfold typeOf.unionOf
  split
  · exact outright_unsupported path _
  · exact outright_pure _
  · exact outright_pure _

theorem tells_pure (a : α) : Tells base first subject (pure a) fun _ => [] :=
  (outright_pure a).tells

theorem Tells.bind {f : α → Typing β} {calls : TypingState → List Call}
    {next : α → TypingState → List Call} (hm : Tells base first subject m calls)
    (hf : ∀ a, Tells base first subject (f a) (next a)) :
    Tells base first subject (m >>= f) fun state => calls state ++ thereafter m next state := by
  intro state hstate
  have h := hm state hstate
  rw [ends_bind]
  rcases hrun : m.run.run state with ⟨e | a, left⟩
  · obtain ⟨hleft, haccounts⟩ := h.of_run_error hrun
    rw [Ends, hrun]
    dsimp only
    rw [thereafter_error hrun, List.append_nil]
    exact ⟨hleft, haccounts⟩
  · obtain ⟨hleft, haccounts⟩ := h.of_run_ok hrun
    rw [Ends, hrun]
    dsimp only
    rw [thereafter_ok hrun]
    exact (hf a left hleft).mono (fun _ _ h => ⟨h.1, haccounts.trans h.2⟩)
      fun _ _ h => ⟨h.1, haccounts.trans h.2⟩

/-- A computation that comes after one without calls. -/
theorem Tells.silent_bind {f : α → Typing β} {next : α → TypingState → List Call}
    (hm : Tells base first subject m fun _ => [])
    (hf : ∀ a, Tells base first subject (f a) (next a)) :
    Tells base first subject (m >>= f) (thereafter m next) := hm.bind hf

/-- A computation that is followed by one without calls. -/
theorem Tells.bind_silent {f : α → Typing β} {calls : TypingState → List Call}
    (hm : Tells base first subject m calls)
    (hf : ∀ a, Tells base first subject (f a) fun _ => []) :
    Tells base first subject (m >>= f) calls := by
  have h := hm.bind hf
  simp only [thereafter_nil, List.append_nil] at h
  exact h

theorem tells_render (type : PropertyType) :
    Tells base first subject (render type) fun _ => [] := by
  intro state hstate
  rw [render, ends_bind, ends_get, ofGraph, ends_lift]
  split
  · exact ⟨hstate, .refl _ _⟩
  · exact ⟨hstate, .refl _ _⟩

theorem tells_recordFailure (path : String) (e : TypingError) :
    Tells base first subject (recordFailure path e) fun _ => [] := by
  intro state hstate
  rw [recordFailure]
  split
  · exact ⟨hstate, .refl _ _⟩
  · exact ⟨⟨hstate.kept, hstate.definitions, hstate.uses, hstate.later, hstate.fresh, hstate.old,
      hstate.stored, hstate.arranged, hstate.present, hstate.used⟩, (Accounts.refl _ _).record _⟩

theorem Tells.attempt {typed : Typing Property} {calls : TypingState → List Call}
    (h : Tells base first subject typed calls) (path : String) :
    Tells base first subject (attempt path typed) calls := by
  intro state hstate
  rw [Typing.attempt, ends_tryCatch, ends_map]
  apply (h state hstate).mono (fun _ _ h => h)
  rintro e left ⟨hleft, haccounts⟩
  have hrecord : Tells base first subject
      (do recordFailure path e; return none : Typing (Option Property)) fun _ => [] :=
    (tells_recordFailure path e).bind_silent fun _ => tells_pure _
  apply (hrecord left hleft).mono
  · intro _ done h
    exact ⟨h.1, List.append_nil (calls state) ▸ haccounts.trans h.2⟩
  · intro _ done h
    exact ⟨h.1, List.append_nil (calls state) ▸ haccounts.trans h.2⟩

end Rules

/-! ### What comes of the properties of a record -/

section Outcomes

variable {levels : Nat} {path name : String} {schema : Json} {rest : Members} {state : TypingState}
  {typed : Typing Property} {property : Property} {e : TypingError}

theorem run_attempt_ok (path : String) (h : typed.run.run state = (.ok property, left)) :
    (attempt path typed).run.run state = (.ok (some property), left) := by
  simp only [attempt, ExceptT.run_tryCatch, StateT.run_bind, ExceptT.run_map, StateT.run_map, h]
  rfl

theorem run_attempt_error (path : String) (h : typed.run.run state = (.error e, left)) :
    (attempt path typed).run.run state =
      if e.isFatal then (.error e, left)
      else (.ok none, { left with failures := ⟨path, e⟩ :: left.failures }) := by
  simp only [attempt, ExceptT.run_tryCatch, StateT.run_bind, ExceptT.run_map, StateT.run_map, h]
  change (do recordFailure path e; return none : Typing (Option Property)).run.run left = _
  rw [recordFailure]
  by_cases hfatal : e.isFatal = true
  · rw [if_pos hfatal, if_pos hfatal]
    rfl
  · rw [if_neg hfatal, if_neg hfatal]
    rfl

theorem outcomesOf_cons_ok
    (h : (propertyOf (typeWithin subject levels) subject (joinPath path name) name
      schema).run.run state = (.ok property, left)) :
    outcomesOf subject levels path ((name, schema) :: rest) state =
      (name, .ok property) :: outcomesOf subject levels path rest left := by
  rw [outcomesOf, h, thereafter_ok (run_attempt_ok _ h)]

theorem outcomesOf_cons_error
    (h : (propertyOf (typeWithin subject levels) subject (joinPath path name) name
      schema).run.run state = (.error e, left)) (hfatal : ¬e.isFatal = true) :
    outcomesOf subject levels path ((name, schema) :: rest) state =
      (name, .error e) :: outcomesOf subject levels path rest
        { left with failures := ⟨joinPath path name, e⟩ :: left.failures } := by
  rw [outcomesOf, h, thereafter_ok ((run_attempt_error _ h).trans (if_neg hfatal))]

theorem typedAmong_ok (name : String) (property : Property)
    (outcomes : List (String × Except TypingError Property)) :
    typedAmong ((name, .ok property) :: outcomes) = (name, property) :: typedAmong outcomes := rfl

theorem typedAmong_error (name : String) (e : TypingError)
    (outcomes : List (String × Except TypingError Property)) :
    typedAmong ((name, .error e) :: outcomes) = typedAmong outcomes := rfl

end Outcomes

/-- The properties of a record are all tried, and it has those that got a type. -/
theorem ends_propertiesOf_outcomes (subject : Subject) (levels : Nat) (path : String)
    (required : List String) (members : Members) (state : TypingState) :
    Ends (propertiesOf (typeWithin subject levels) subject path required members) state
      (fun properties _ =>
        Keyed.keys (outcomesOf subject levels path members state) = Keyed.keys members ∧
          ∀ name, Keyed.get? name properties =
            (Keyed.get? name (typedAmong (outcomesOf subject levels path members state))).map
              fun property => { property with required := required.contains name })
      (fun _ _ => True) := by
  induction members generalizing state with
  | nil => exact ⟨rfl, fun _ => rfl⟩
  | cons member rest ih =>
    obtain ⟨name, schema⟩ := member
    let typed := propertyOf (typeWithin subject levels) subject (joinPath path name) name schema
    rw [propertiesOf, ends_bind]
    change Ends (attempt (joinPath path name) typed) state _ _
    rcases htyped : typed.run.run state with ⟨e | property, left⟩
    · rw [Ends, run_attempt_error _ htyped]
      by_cases hfatal : e.isFatal = true
      · rw [if_pos hfatal]
        trivial
      · rw [if_neg hfatal, outcomesOf_cons_error htyped hfatal, typedAmong_error]
        refine ends_bind.2 ((ih _).mono ?_ fun _ _ h => h)
        exact fun others _ h => ⟨congrArg (name :: ·) h.1, h.2⟩
    · rw [Ends, run_attempt_ok _ htyped, outcomesOf_cons_ok htyped, typedAmong_ok]
      refine ends_bind.2 ((ih _).mono ?_ fun _ _ h => h)
      rintro others _ ⟨htried, hothers⟩
      refine ⟨congrArg (name :: ·) htried, fun other => ?_⟩
      by_cases hsame : other = name
      · subst hsame
        rw [Keyed.get?_insert_self, Keyed.get?, if_pos rfl]
        rfl
      · rw [Keyed.get?_insert_of_ne hsame, Keyed.get?, if_neg (Ne.symm hsame), hothers]

/-! ### The rules of typing -/

section Level

/-- The calls of the computations one level further in account for what these do. -/
def InnerTells (base : Database) (first : Supply) (subject : Subject) (levels : Nat)
    (inner : String → String → Schema.Resolved → TypingState → List Call) : Prop :=
  ∀ path hint resolved,
    Tells base first subject (typeWithin subject levels path hint resolved)
      (inner path hint resolved)

variable {levels : Nat} {inner : String → String → Schema.Resolved → TypingState → List Call}

theorem tells_typeInner (hinner : InnerTells base first subject levels inner)
    (path hint : String) (schema : Json) :
    Tells base first subject (typeInner (typeWithin subject levels) subject path hint schema)
      (callsInner subject inner path hint schema) :=
  (outright_resolve subject schema).tells.silent_bind fun resolved => hinner path hint resolved

theorem tells_propertyOf (hinner : InnerTells base first subject levels inner)
    (path name : String) (schema : Json) :
    Tells base first subject (propertyOf (typeWithin subject levels) subject path name schema)
      (callsInner subject inner path name schema) :=
  (outright_resolve subject schema).tells.silent_bind fun resolved =>
    (hinner path name resolved).bind_silent fun _ => tells_pure _

theorem tells_propertiesOf (hinner : InnerTells base first subject levels inner)
    (path : String) (required : List String) (members : Members) :
    Tells base first subject
      (propertiesOf (typeWithin subject levels) subject path required members)
      (callsOfProperties subject levels inner path members) := by
  induction members with
  | nil => exact tells_pure _
  | cons member rest ih =>
    obtain ⟨name, schema⟩ := member
    refine ((tells_propertyOf hinner _ name schema).attempt _).bind fun found => ?_
    refine ih.bind_silent fun others => ?_
    cases found with
    | none => exact tells_pure _
    | some property => exact tells_pure _

theorem declaredProperties_nil (path : String) (schema : Json) :
    declaredProperties (typeWithin subject levels) subject path schema [] =
      propertiesOf (typeWithin subject levels) subject path (Schema.requiredNames schema)
        (Schema.properties schema) := by
  have hall : (Schema.properties schema).filter
      (fun entry => !([] : List String).contains entry.1) = Schema.properties schema :=
    List.filter_eq_self.2 fun _ _ => rfl
  rw [declaredProperties, hall]

/-- A record whose key is known is answered at once. -/
theorem Call.run_question_of_known (call : Call) (subject : Subject) {id : Identity}
    (hseen : call.state.seen.lookup call.key = some id) :
    (call.question subject).run.run call.state =
      (.ok id, call.state.withUse subject.resource id call.path) := by
  have hends : Ends (call.question subject) call.state
      (fun found left => found = id ∧ left = call.state.withUse subject.resource id call.path)
      fun _ _ => False := by
    rw [Call.key] at hseen
    rw [Call.question, definitionOf, ends_bind, ends_get, hseen]
    exact ⟨rfl, rfl⟩
  obtain ⟨_, _, hrun, rfl, rfl⟩ := hends.exists_run_ok
  exact hrun

/-- A record whose key is new is answered with the definition that is made for it. -/
theorem Call.run_question_of_new (call : Call) (hseen : call.state.seen.lookup call.key = none)
    {properties : PropertyMap} (hproperties : (propertiesOf (typeWithin subject call.levels) subject
      call.path (Schema.requiredNames call.schema) (Schema.properties call.schema)).run.run
      (call.opened subject) = (.ok properties, left))
    {c : Collection TypeDefinition}
    (hc : left.database.typeDefinitions.update call.newId (fun definition =>
      { definition with documentation := documentation? call.schema, properties }) = .ok c) :
    (call.question subject).run.run call.state =
      (.ok call.newId, { left with database := { left.database with typeDefinitions := c } }) := by
  have hends : Ends (call.question subject) call.state
      (fun found done => found = call.newId ∧
        done = { left with database := { left.database with typeDefinitions := c } })
      fun _ _ => False := by
    rw [Call.key] at hseen
    rw [Call.question, definitionOf, ends_bind, ends_get, hseen]
    change Ends (do
      let properties ← declaredProperties (typeWithin subject call.levels) subject call.path
        call.schema []
      finishDefinition call.newId (documentation? call.schema) properties
      return call.newId) (call.opened subject) _ _
    rw [declaredProperties_nil, ends_bind, Ends, hproperties]
    dsimp only
    rw [ends_bind, finishDefinition, ends_bind, ends_get, hc]
    exact ⟨rfl, rfl⟩
  obtain ⟨_, _, hrun, rfl, rfl⟩ := hends.exists_run_ok
  exact hrun

/-- The first record of its key is accounted for with all that is met in its properties. -/
theorem Accounts.of_new (call : Call)
    (hinner : InnerTells base first subject call.levels inner)
    (hstate : Progress base first subject.resource call.state)
    (hseen : call.state.seen.lookup call.key = none) :
    ∃ id left, (call.question subject).run.run call.state = (.ok id, left) ∧
      Accounts subject (callsOfRecord subject call.levels inner call.path call.name call.schema
        call.state) call.state left := by
  have hfirst : call.isFirst = true := Option.isNone_iff_eq_none.2 hseen
  have hopened : Progress base first subject.resource (call.opened subject) :=
    hstate.start call.key call.newName call.path
  have htells := tells_propertiesOf hinner call.path (Schema.requiredNames call.schema)
    (Schema.properties call.schema) _ hopened
  have hkeeps := keeps_propertiesOf ((innerGoes_typeWithin subject call.levels).keeps base first) []
    call.path (Schema.requiredNames call.schema) (Schema.properties call.schema) _ hopened
    (List.nil_subset _)
  have houtcomes := ends_propertiesOf_outcomes subject call.levels call.path
    (Schema.requiredNames call.schema) (Schema.properties call.schema) (call.opened subject)
  obtain ⟨properties, left, hproperties, ⟨⟨hleft, haccounts⟩, -⟩, htried, htyped⟩ :=
    (((htells.and hkeeps).and houtcomes).mono (fun _ _ h => h) fun _ _ h =>
      h.1.2.2.2).exists_run_ok
  have hmade : call.newId ∈ left.found :=
    List.mem_map.2 ⟨_, haccounts.kept.subset List.mem_cons_self, rfl⟩
  obtain ⟨c, hc, -, hall⟩ := Collection.update_eq_ok hleft.definitions.coherent
    (hleft.present hmade) fun definition : TypeDefinition =>
      { definition with documentation := documentation? call.schema, properties }
  have hrun := call.run_question_of_new hseen hproperties hc
  refine ⟨_, _, hrun, ?_⟩
  rw [callsOfRecord, if_pos hfirst]
  exact haccounts.define hstate.coherent hfirst (congrArg Prod.fst hrun)
    ⟨rfl, rfl, htried, htyped⟩ hall

theorem tells_definitionOf (hinner : InnerTells base first subject levels inner)
    (path name : String) (schema : Json) :
    Tells base first subject (definitionOf (typeWithin subject levels) subject path name schema)
      (callsOfRecord subject levels inner path name schema) := by
  intro state hstate
  let call : Call := ⟨levels, path, name, schema, state⟩
  have hkeeps := keeps_definitionOf ((innerGoes_typeWithin subject levels).keeps base first) []
    path name schema state hstate (List.nil_subset _)
  have haccounts : ∃ id left, (call.question subject).run.run state = (.ok id, left) ∧
      Accounts subject (callsOfRecord subject levels inner path name schema state) state left := by
    rcases hseen : state.seen.lookup call.key with _ | id
    · exact Accounts.of_new call hinner hstate hseen
    · have hrun := call.run_question_of_known subject hseen
      have hagain : ¬call.isFirst = true := fun hfirst =>
        nomatch hseen.symm.trans (Option.isNone_iff_eq_none.1 hfirst)
      refine ⟨_, _, hrun, ?_⟩
      rw [callsOfRecord, if_neg hagain]
      exact Accounts.again hseen (congrArg Prod.fst hrun)
  obtain ⟨id, left, hrun, haccounts⟩ := haccounts
  change Ends (call.question subject) state _ _
  rw [Ends, hrun]
  exact ⟨(hkeeps.of_run_ok hrun).1, haccounts⟩

theorem tells_typeOfValues (hinner : InnerTells base first subject levels inner)
    (path name : String) (values : List Json) :
    Tells base first subject (typeOfValues (typeWithin subject levels) subject path name values)
      (callsOfValues subject inner path name values) := by
  have hseveral : Tells base first subject (do
      let resolved ← values.mapM (resolve subject)
      let unified ← ofUnification (Schema.unifyAll (resolved.map Schema.Resolved.schema))
      typeInner (typeWithin subject levels) subject path
        ((resolved.findSome? Schema.Resolved.name?).getD name) unified) _ :=
    (Outright.mapM (outright_resolve subject) values).tells.silent_bind fun resolved =>
      (outright_unification _).tells.silent_bind fun unified =>
        tells_typeInner hinner path _ unified
  rcases values with _ | ⟨single, _ | ⟨other, rest⟩⟩
  · exact hseveral
  · exact tells_typeInner hinner path name single
  · exact hseveral

theorem tells_typeOfAll (hinner : InnerTells base first subject levels inner)
    (path hint : String) (branches : List Schema.Resolved) :
    Tells base first subject (typeOfAll (typeWithin subject levels) subject path hint branches)
      (callsOfAll subject inner path hint branches) :=
  (outright_unification _).tells.silent_bind fun unified => tells_typeInner hinner path _ unified

theorem tells_typeOfObject (hinner : InnerTells base first subject levels inner)
    (path name : String) (schema : Json) :
    Tells base first subject (typeOfObject (typeWithin subject levels) subject path name schema)
      (callsOfObject subject levels inner path name schema) := by
  rw [typeOfObject, callsOfObject]
  split
  · exact (tells_definitionOf hinner path name schema).bind_silent fun _ => tells_pure _
  · split
    · exact (tells_typeOfValues hinner path name _).bind_silent fun _ => tells_pure _
    · exact tells_pure _

/-- Only the rule for objects meets records. -/
theorem typeOfConcrete_cases (subject : Subject) (levels : Nat) (path name : String)
    (schema : Json) :
    (isTypedAsObject schema = true ∧ typeOfConcrete (typeWithin subject levels) subject path name
      schema = typeOfObject (typeWithin subject levels) subject path name schema) ∨
    (isTypedAsObject schema = false ∧
      Outright (typeOfConcrete (typeWithin subject levels) subject path name schema)) := by
  rw [isTypedAsObject, typeOfConcrete]
  rcases schema.member? "type" with _ | value
  · dsimp only
    cases Schema.isRecord schema || Schema.isMap schema with
    | true => exact Or.inl ⟨rfl, rfl⟩
    | false =>
      refine Or.inr ⟨rfl, ?_⟩
      rw [if_neg Bool.false_ne_true]
      split
      · exact outright_pure _
      · split
        · exact outright_pure _
        · exact outright_unsupported path _
  · cases value with
    | str type =>
      dsimp only
      split
      case h_6 => exact Or.inl ⟨rfl, rfl⟩
      case h_7 _ _ _ _ _ _ hother =>
        exact Or.inr ⟨beq_eq_false_iff_ne.2 hother, outright_unsupported path _⟩
      case h_1 =>
        refine Or.inr ⟨rfl, ?_⟩
        split
        · exact outright_pure _
        · exact outright_pure _
      all_goals exact Or.inr ⟨rfl, outright_pure _⟩
    | _ => exact Or.inr ⟨rfl, outright_unsupported path _⟩

theorem tells_typeOfConcrete (hinner : InnerTells base first subject levels inner)
    (path name : String) (schema : Json) :
    Tells base first subject (typeOfConcrete (typeWithin subject levels) subject path name schema)
      (callsOfConcrete subject levels inner path name schema) := by
  rw [callsOfConcrete]
  rcases typeOfConcrete_cases subject levels path name schema with
    ⟨hobject, htype⟩ | ⟨hplain, houtright⟩
  · rw [hobject, htype, if_pos rfl]
    exact tells_typeOfObject hinner path name schema
  · rw [hplain, if_neg Bool.false_ne_true]
    exact houtright.tells

mutual

theorem tells_typeOf (hinner : InnerTells base first subject levels inner)
    (path hint : String) (resolved : Schema.Resolved) :
    Tells base first subject (typeOf (typeWithin subject levels) subject path hint resolved)
      (callsOf subject levels inner path hint resolved) := by
  cases resolved with
  | concrete schema name => exact tells_typeOfConcrete hinner path _ schema
  | array schema name items =>
    cases items with
    | none => exact tells_pure _
    | some items =>
      rw [typeOf, callsOf]
      exact (tells_typeOf hinner path hint items).bind_silent fun _ => tells_pure _
  | combined schema name op branches =>
    have hunion : Tells base first subject (do
        let types ← typesOf (typeWithin subject levels) subject path hint [] branches
        typeOf.unionOf path types) _ :=
      (tells_typesOf hinner path hint [] branches).bind_silent fun types =>
        (outright_unionOf path types).tells
    cases op with
    | allOf =>
      rw [typeOf, callsOf]
      rcases branches.filter isConstrained with _ | ⟨single, _ | ⟨other, rest⟩⟩
      · exact tells_pure _
      · exact tells_typeOfConstrained hinner path hint branches
      · exact tells_typeOfAll hinner path hint _
    | anyOf =>
      rw [typeOf, callsOf]
      exact hunion
    | oneOf =>
      rw [typeOf, callsOf]
      exact hunion

theorem tells_typeOfConstrained (hinner : InnerTells base first subject levels inner)
    (path hint : String) (branches : List Schema.Resolved) :
    Tells base first subject
      (typeOfConstrained (typeWithin subject levels) subject path hint branches)
      (callsOfConstrained subject levels inner path hint branches) := by
  cases branches with
  | nil => exact tells_pure _
  | cons branch rest =>
    rw [typeOfConstrained, callsOfConstrained]
    split
    · exact tells_typeOf hinner path hint branch
    · exact tells_typeOfConstrained hinner path hint rest

theorem tells_typesOf (hinner : InnerTells base first subject levels inner)
    (path hint : String) (texts : List String)
    (branches : List Schema.Resolved) :
    Tells base first subject
      (typesOf (typeWithin subject levels) subject path hint texts branches)
      (callsOfBranches subject levels inner path hint branches) := by
  cases branches with
  | nil => exact tells_pure _
  | cons branch rest =>
    rw [typesOf, callsOfBranches]
    refine (tells_typeOf hinner path hint branch).bind fun type =>
      (tells_render type).silent_bind fun text => ?_
    split
    · exact tells_typesOf hinner path hint texts rest
    · exact (tells_typesOf hinner path hint (text :: texts) rest).bind_silent fun _ => tells_pure _

end

end Level

theorem tells_typeWithin (subject : Subject) (levels : Nat) (path hint : String)
    (resolved : Schema.Resolved) :
    Tells base first subject (typeWithin subject levels path hint resolved)
      (callsWithin subject levels path hint resolved) := by
  induction levels generalizing path hint resolved with
  | zero => exact (Outright.tells (Or.inr ⟨.endless path, rfl, rfl⟩) : Tells _ _ _ (throw _) _)
  | succ levels ih => exact tells_typeOf ih path hint resolved

end Typing

end ResourceCatalog
