import Mathlib
import ResourceCatalog.Proofs.Graph.EdgeHistory
import ResourceCatalog.Proofs.Graph.History

/-!
# Collections and relationships made anew

Of a collection only its records are written down, and of a relationship only the lists of the edges
by their starts. Both are made anew from these. The collection that is made so has other sequences
than the one it replaces, but it has the same records, and whatever a collection is told or asked,
its answer is a matter of its records and of the supply. So the two answer alike, also after any
further operations. The relationship that is made so is even equal to the one it replaces.
-/

namespace ResourceCatalog

variable {α : Type}

/-! ### What is told and asked -/

/-- What a collection is told to do or asked for. -/
inductive CollectionCall (α : Type) where
  | change (step : CollectionStep α)
  | get (id : Identity)
  | contains (id : Identity)
  | all
  | size
  | isEmpty
  | lookup (name : String) (query : Query)

inductive CollectionReply (α : Type) where
  | done
  | refused (error : GraphError)
  | truth (value : Bool)
  | number (value : Nat)
  | identity (id : Identity)
  | record (record : Record α)
  | records (records : List (Record α))
  | found (found : Matches α)

/-- The reply to what may be refused. -/
def CollectionReply.ofResult {β : Type} (reply : β → CollectionReply α) :
    Except GraphError β → CollectionReply α
  | .ok value => reply value
  | .error e => refused e

/-- What a collection answers while it changes. -/
def CollectionStep.reply [Entity α] (step : CollectionStep α) (c : Collection α)
    (supply : Supply) : CollectionReply α :=
  match step with
  | new => .done
  | ofRecords records => .ofResult (fun _ => .done) (Collection.empty.insertAll supply records).1
  | allocate entity => .identity (c.allocate supply entity).1
  | insert record => .ofResult (fun _ => .done) (c.insert supply record)
  | update id change => .ofResult (fun _ => .done) (c.update id change)
  | remove id => .ofResult (fun removed => .record removed.1) (c.remove id)
  | elsewhere _ => .done

namespace CollectionCall

variable [Entity α]

def reply (call : CollectionCall α) (state : Collection α × Supply) : CollectionReply α :=
  match call, state with
  | change step, (c, supply) => step.reply c supply
  | get id, (c, _) => .ofResult .record (c.get id)
  | contains id, (c, _) => .truth (c.contains id)
  | all, (c, _) => .records c.all
  | size, (c, _) => .number c.size
  | isEmpty, (c, _) => .truth c.isEmpty
  | lookup name query, (c, _) => .ofResult .found (c.lookup name query)

/-- The collection and the supply after a call. A question changes nothing. -/
def next (call : CollectionCall α) (state : Collection α × Supply) : Collection α × Supply :=
  match call with
  | change step => step.apply state
  | _ => state

/-- The answers to calls one after the other. -/
def answers (calls : List (CollectionCall α)) (state : Collection α × Supply) :
    List (CollectionReply α) :=
  match calls with
  | [] => []
  | call :: rest => call.reply state :: answers rest (call.next state)

end CollectionCall

/-! ### Collections with the same records -/

theorem eq_of_pair_sublists {items : List α} (hd : items.Nodup) {a b : α}
    (hab : [a, b].Sublist items) (hba : [b, a].Sublist items) : a = b := by
  induction items with
  | nil => cases hab
  | cons first rest ih =>
    obtain ⟨hfirst, hrest⟩ := List.nodup_cons.1 hd
    have hsecond : ∀ {x y : α}, [x, y].Sublist rest → y ≠ first := fun hxy heq =>
      hfirst (heq ▸ hxy.subset (List.mem_cons_of_mem _ List.mem_cons_self))
    rcases List.sublist_cons_iff.1 hab with hab' | ⟨_, ha, _⟩
    · rcases List.sublist_cons_iff.1 hba with hba' | ⟨_, hb, _⟩
      · exact ih hrest hab' hba'
      · exact absurd (List.cons.inj hb).1 (hsecond hab')
    · rcases List.sublist_cons_iff.1 hba with hba' | ⟨_, hb, _⟩
      · exact absurd (List.cons.inj ha).1 (hsecond hba')
      · exact (List.cons.inj ha).1.trans (List.cons.inj hb).1.symm

/-- A query has one answer. -/
theorem IndexDefinition.Answers.unique {definition : IndexDefinition α}
    {all found other : List (Record α)} {query : Query} (hd : all.Nodup)
    (h : definition.Answers all found query) (h' : definition.Answers all other query) :
    found = other := by
  cases query with
  | equals key => exact h.trans h'.symm
  | startsWith start =>
    refine (h.1.trans h'.1.symm).eq_of_pairwise (fun a b _ _ hab hba => ?_) h.2 h'.2
    simp only [Text.bytes_lt_iff] at hab hba
    rcases hab with hlt | ⟨hkey, hab⟩
    · rcases hba with hgt | ⟨hkey, _⟩
      · exact absurd hlt (lt_asymm hgt)
      · exact absurd hlt (hkey ▸ lt_irrefl _)
    · rcases hba with hgt | ⟨_, hba⟩
      · exact absurd hgt (hkey ▸ lt_irrefl _)
      · exact eq_of_pair_sublists hd hab hba

namespace Collection

variable [Entity α] {c c' : Collection α}

omit [Entity α] in
theorem ids_congr (hall : c.all = c'.all) : c.ids = c'.ids := congrArg (List.map Record.id) hall

theorem Coherent.lookup_congr (h : c.Coherent) (h' : c'.Coherent) (hall : c.all = c'.all)
    (name : String) (query : Query) : c.lookup name query = c'.lookup name query := by
  cases hname : (Entity.indexes (α := α)).find? fun d => d.name == name with
  | none => rw [lookup_eq_error hname, lookup_eq_error hname]
  | some definition =>
    obtain ⟨found, hfound, hanswers⟩ := exists_lookup h hname query
    obtain ⟨other, hother, hanswers'⟩ := exists_lookup h' hname query
    have hdistinct : c'.all.Nodup := List.Nodup.of_map _ h'.distinct
    rw [hall] at hanswers
    rw [hfound, hother, hanswers.unique hdistinct hanswers']

/-- Giving away returns the record that is found under the identity. -/
theorem remove_eq_get (c : Collection α) (id : Identity) :
    (c.remove id).map Prod.fst = c.get id := by
  rw [remove, get]
  cases c.row? id with
  | none => rfl
  | some row => rfl

end Collection

namespace CollectionStep

variable [Entity α] {c c' : Collection α} {supply : Supply}

/-- What comes back is a matter of the records and of the supply. -/
theorem reply_congr (h : c.Coherent) (h' : c'.Coherent) (hall : c.all = c'.all)
    (step : CollectionStep α) : step.reply c supply = step.reply c' supply := by
  have hids := Collection.ids_congr hall
  cases step with
  | new => rfl
  | ofRecords records => rfl
  | allocate entity => rfl
  | insert record =>
    rw [reply, reply]
    by_cases hmem : record.id ∈ c.ids
    · rw [Collection.insert_of_mem hmem, Collection.insert_of_mem (hids ▸ hmem)]
    · rw [Collection.insert_of_not_mem hmem, Collection.insert_of_not_mem (hids ▸ hmem)]
      rfl
  | update id change =>
    rw [reply, reply]
    by_cases hmem : id ∈ c.ids
    · obtain ⟨_, hok, _⟩ := Collection.update_eq_ok h hmem change
      obtain ⟨_, hok', _⟩ := Collection.update_eq_ok h' (hids ▸ hmem) change
      rw [hok, hok']
      rfl
    · rw [Collection.update, Collection.row?_eq_none hmem, Collection.update,
        Collection.row?_eq_none (hids ▸ hmem)]
  | remove id =>
    have hreply : ∀ c : Collection α, (remove id).reply c supply = .ofResult .record (c.get id) := by
      intro c
      rw [reply, ← Collection.remove_eq_get]
      cases c.remove id with
      | ok removed => rfl
      | error e => rfl
    rw [hreply, hreply, Collection.get_congr hall]
  | elsewhere ids => rfl

/-- So is the supply that is left. -/
theorem supply_congr (hall : c.all = c'.all) (step : CollectionStep α) :
    (step.apply (c, supply)).2 = (step.apply (c', supply)).2 := by
  have hids := Collection.ids_congr hall
  cases step with
  | new => rfl
  | ofRecords records =>
    simp only [apply]
    rcases Collection.empty.insertAll supply records with ⟨made | e, left⟩ <;> rfl
  | allocate entity => rfl
  | insert record =>
    rw [apply, apply]
    by_cases hmem : record.id ∈ c.ids
    · rw [Collection.insert_of_mem hmem, Collection.insert_of_mem (hids ▸ hmem)]
    · rw [Collection.insert_of_not_mem hmem, Collection.insert_of_not_mem (hids ▸ hmem)]
  | update id change =>
    have hleft : ∀ c : Collection α, ((update id change).apply (c, supply)).2 = supply := by
      intro c
      rw [apply]
      cases c.update id change with
      | ok c => rfl
      | error e => rfl
    rw [hleft, hleft]
  | remove id =>
    have hleft : ∀ c : Collection α, ((remove id).apply (c, supply)).2 = supply := by
      intro c
      rw [apply]
      cases c.remove id with
      | ok removed => rfl
      | error e => rfl
    rw [hleft, hleft]
  | elsewhere ids => rfl

end CollectionStep

namespace CollectionCall

variable [Entity α] {c c' : Collection α} {supply : Supply}

theorem reply_congr (h : c.Coherent) (h' : c'.Coherent) (hall : c.all = c'.all)
    (call : CollectionCall α) : call.reply (c, supply) = call.reply (c', supply) := by
  have hids := Collection.ids_congr hall
  cases call with
  | change step => exact step.reply_congr h h' hall
  | get id => exact congrArg (CollectionReply.ofResult .record) (Collection.get_congr hall id)
  | contains id =>
    refine congrArg CollectionReply.truth (Bool.eq_iff_iff.2 ?_)
    rw [Collection.contains_iff, Collection.contains_iff, hids]
  | all => exact congrArg CollectionReply.records hall
  | size => exact congrArg CollectionReply.number (by rw [h.presents.size, h'.presents.size, hall])
  | isEmpty =>
    refine congrArg CollectionReply.truth ?_
    have hempty : ∀ c : Collection α, c.isEmpty = c.all.isEmpty := fun c => by
      rw [Collection.isEmpty, Collection.all, List.isEmpty_map]
    rw [hempty, hempty, hall]
  | lookup name query =>
    exact congrArg (CollectionReply.ofResult .found) (h.lookup_congr h' hall name query)

/-- Two collections with the same records, which go on with the same supply, answer alike for good. -/
theorem answers_congr (h : c.Holds supply) (h' : c'.Holds supply) (hall : c.all = c'.all)
    (calls : List (CollectionCall α)) : answers calls (c, supply) = answers calls (c', supply) := by
  induction calls generalizing c c' supply with
  | nil => rfl
  | cons call rest ih =>
    rw [answers, answers, reply_congr h.coherent h'.coherent hall]
    cases call with
    | change step =>
      obtain ⟨hnext, hlive⟩ := CollectionStep.holds_apply h step
      obtain ⟨hnext', hlive'⟩ := CollectionStep.holds_apply h' step
      have hsupply : (step.apply (c, supply)).2 = (step.apply (c', supply)).2 :=
        step.supply_congr hall
      have hrest := ih hnext (hsupply ▸ hnext') (by rw [hlive, hlive', hall])
      rw [next, next]
      refine congrArg _ (hrest.trans ?_)
      rw [hsupply]
    | _ => exact congrArg _ (ih h h' hall)

end CollectionCall

/-! ### Making anew -/

section TakingIn

variable [Entity α] {c : Collection α} {supply : Supply} {records : List (Record α)}

/-- What becomes of the collection is no matter of the supply. -/
theorem Collection.insertAll_fst_congr (c : Collection α) (supply other : Supply)
    (records : List (Record α)) :
    (c.insertAll supply records).1 = (c.insertAll other records).1 := by
  induction records generalizing c supply other with
  | nil => rfl
  | cons record rest ih =>
    rw [insertAll, insertAll]
    by_cases hmem : record.id ∈ c.ids
    · rw [insert_of_mem hmem, insert_of_mem hmem]
    · rw [insert_of_not_mem hmem, insert_of_not_mem hmem]
      exact ih _ _ _

/-- Identities that have left the supply do not move it. -/
theorem Collection.insertAll_of_taken (htaken : ∀ r ∈ records, r.id.value < supply.next) :
    (c.insertAll supply records).2 = supply := by
  induction records generalizing c with
  | nil => rfl
  | cons record rest ih =>
    obtain ⟨hrecord, hrest⟩ := List.forall_mem_cons.1 htaken
    by_cases hmem : record.id ∈ c.ids
    · rw [insertAll, insert_of_mem hmem]
    · have hreserve : supply.reserve record.id = supply :=
        congrArg Supply.mk (max_eq_left (Nat.succ_le_of_lt hrecord))
      rw [insertAll, insert_of_not_mem hmem, hreserve]
      exact ih hrest

/-- The records of a collection can be taken in again, and make a collection of the same records. -/
theorem Collection.Holds.exists_made (h : c.Holds supply) :
    ∃ made : Collection α, (∀ other, (Collection.empty.insertAll other c.all).1 = .ok made) ∧
      (Collection.empty.insertAll supply c.all).2 = supply ∧ made.Holds supply ∧
      made.all = c.all := by
  obtain ⟨made, left, hok, hmade, hall⟩ :=
    insertAll_of_nodup (holds_empty (α := α) supply) h.coherent.distinct
  have hleft : (Collection.empty.insertAll supply c.all).2 = supply :=
    insertAll_of_taken fun r hr => h.taken r.id (List.mem_map_of_mem hr)
  obtain rfl : left = supply := by rw [← hleft, hok]
  refine ⟨made, fun other => ?_, hleft, hmade, hall⟩
  rw [insertAll_fst_congr _ other left, hok]

end TakingIn

section Lists

variable {edges others : Edges α}

/-- The lists by the starts are all there is to a relationship. -/
theorem Edges.Coherent.ext (h : edges.Coherent) (h' : others.Coherent)
    (hforward : edges.forward = others.forward) : edges = others := by
  have houtgoing : edges.outgoing = others.outgoing := by
    funext start
    rw [Edges.outgoing, Edges.outgoing, hforward]
  have hincoming : edges.incoming = others.incoming := by
    funext target
    refine (h.ascending target).ext (h'.ascending target) fun start => ?_
    rw [h.sameOrder, h'.sameOrder, houtgoing]
  have hbackward : edges.backward = others.backward :=
    h.backward.ext h'.backward (congrFun hincoming)
  have hcount : edges.count = others.count := by rw [h.counted, h'.counted, hforward]
  cases edges
  cases others
  rw [Edges.mk.injEq]
  exact ⟨hforward, hbackward, hcount⟩

variable [DecidableEq α]

theorem Edges.coherent_ofForward (forward : Adjacency α) : (ofForward forward).Coherent :=
  EdgeStep.run_ofLists forward ▸ EdgeStep.coherent_run coherent_empty _

theorem Edges.Coherent.ofForward_forward (h : edges.Coherent) :
    ofForward edges.forward = edges := by
  refine (coherent_ofForward _).ext h (forward_ofForward h.forward fun entry hentry => ?_)
  exact h.forward.get_eq_of_mem hentry ▸ h.distinct entry.1

end Lists

namespace CollectionStep

theorem holds_run [Entity α] {c : Collection α} {supply : Supply} (h : c.Holds supply)
    (steps : List (CollectionStep α)) :
    (run steps (c, supply)).1.Holds (run steps (c, supply)).2 := by
  induction steps generalizing c supply with
  | nil => exact h
  | cons step rest ih => exact ih (holds_apply h step).1

/-- Whatever has been done to a collection, its records can be taken in from the beginning, with any
supply and without moving the one that it has gone on with, and from then on the collection that is
made so answers whatever it is told and asked as the old one does. Whatever has been done to a
relationship, the one that is made of its lists is equal to it. -/
theorem rebuilt_answers_alike [Entity α] {β : Type} [DecidableEq β] (start : Supply)
    (steps : List (CollectionStep α)) (forward : Adjacency β) (edgeSteps : List (EdgeStep β)) :
    (let state := run steps (Collection.empty, start)
      ∃ made : Collection α,
        (∀ supply, (Collection.empty.insertAll supply state.1.all).1 = .ok made) ∧
        (Collection.empty.insertAll state.2 state.1.all).2 = state.2 ∧
        ∀ calls, CollectionCall.answers calls (made, state.2) =
          CollectionCall.answers calls state) ∧
      (let edges := EdgeStep.run edgeSteps (Edges.ofForward forward)
      Edges.ofForward edges.forward = edges) := by
  constructor
  · intro state
    have h : state.1.Holds state.2 := holds_run (Collection.holds_empty start) steps
    obtain ⟨made, hok, hleft, hmade, hall⟩ := h.exists_made
    exact ⟨made, hok, hleft, CollectionCall.answers_congr hmade h hall⟩
  · exact (EdgeStep.coherent_run (Edges.coherent_ofForward forward) edgeSteps).ofForward_forward

end CollectionStep

end ResourceCatalog
