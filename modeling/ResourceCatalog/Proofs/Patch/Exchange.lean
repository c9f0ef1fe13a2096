import Mathlib
import ResourceCatalog.Proofs.Patch.Rewriting

/-!
# Edits that can be exchanged

Edits of members at places of which none is inside of another do not notice each other: where one of
them can be made, it can still be made after the others, and the order in which they are made does
not matter to the document. A set of such edits is called compatible, and whatever is done to one of
its members leaves the rest compatible.
-/

namespace ResourceCatalog

/-! ### One step -/

namespace MemberEdit

variable {members : Members}

theorem onMembers_comm (h : Keyed.Ascending members) {a b : MemberEdit} (hne : a.key ≠ b.key) :
    b.onMembers (a.onMembers members) = a.onMembers (b.onMembers members) := by
  have ha := ascending_onMembers h a
  have hb := ascending_onMembers h b
  apply (ascending_onMembers ha b).ext (ascending_onMembers hb a)
  intro key
  by_cases hkey : key = a.key
  · rw [hkey, get?_onMembers_of_ne hne, get?_onMembers_self h, get?_onMembers_self hb,
      get?_onMembers_of_ne hne]
  · rw [get?_onMembers_of_ne hkey]
    by_cases hkey' : key = b.key
    · rw [hkey', get?_onMembers_self ha, get?_onMembers_self h, get?_onMembers_of_ne hne.symm]
    · rw [get?_onMembers_of_ne hkey', get?_onMembers_of_ne hkey', get?_onMembers_of_ne hkey]

/-- The members have what the edit is about, if it needs to be there. -/
def Fits (members : Members) : MemberEdit → Prop
  | add _ _ => True
  | remove key | replace key _ => (Keyed.get? key members).isSome

theorem fits_congr {others : Members} {edit : MemberEdit}
    (h : Keyed.get? edit.key others = Keyed.get? edit.key members) :
    edit.Fits others ↔ edit.Fits members := by
  cases edit with
  | add key value => exact Iff.rfl
  | remove key => exact iff_of_eq (congrArg (fun found => Option.isSome found = true) h)
  | replace key value => exact iff_of_eq (congrArg (fun found => Option.isSome found = true) h)

end MemberEdit

namespace Json

variable {value : Json} {token other : String}

theorem WellFormed.setChild_comm (hformed : value.WellFormed) (h : token ≠ other)
    (child sibling : Json) : (value.setChild token child).setChild other sibling =
      (value.setChild other sibling).setChild token child := by
  cases value with
  | arr items =>
    cases hi : Pointer.index? token with
    | none =>
      cases hj : Pointer.index? other <;> simp only [Json.setChild, hi, hj]
    | some i =>
      cases hj : Pointer.index? other with
      | none => simp only [Json.setChild, hi, hj]
      | some j =>
        simp only [Json.setChild, hi, hj]
        rw [List.set_comm _ _ (index?_ne_of_ne h hi hj)]
  | obj members =>
    exact congrArg Json.obj (MemberEdit.onMembers_comm (a := .add token child)
      (b := .add other sibling) (wellFormed_obj.1 hformed).1 h)
  | _ => rfl

end Json

/-! ### Edits at places -/

namespace PlacedEdit

/-- The place of the member that the edit is about. -/
def target (e : PlacedEdit) : List String := e.place ++ [e.edit.key]

/-- There is an object at the place of the edit, and it has what the edit needs. -/
def Ready (value : Json) (e : PlacedEdit) : Prop :=
  ∃ members, value.at? e.place = some (.obj members) ∧ e.edit.Fits members

variable {value child : Json} {token : String}

theorem ready_under {e : PlacedEdit} :
    (e.under token).Ready value ↔ ∃ child, value.child? token = some child ∧ e.Ready child := by
  constructor
  · rintro ⟨members, hat, hfits⟩
    obtain ⟨child, hchild, hrest⟩ := Option.bind_eq_some_iff.1 hat
    exact ⟨child, hchild, members, hrest, hfits⟩
  · rintro ⟨child, hchild, members, hat, hfits⟩
    refine ⟨members, ?_, hfits⟩
    rw [under, Json.at?, hchild, Option.bind_some, hat]

theorem onValue_under (hchild : value.child? token = some child) (e : PlacedEdit) :
    (e.under token).onValue value = value.setChild token (e.onValue child) := by
  rw [onValue, under, Json.mapAt, hchild]
  rfl

theorem child?_onValue_under {other : String} (hchild : value.child? token = some child)
    (h : other ≠ token) (e : PlacedEdit) :
    ((e.under token).onValue value).child? other = value.child? other := by
  rw [onValue_under hchild, Json.child?_setChild_of_ne h]

/-- An edit of an object and one inside of another member of it. -/
theorem exchange_own {members : Members} (h : Keyed.Ascending members) {own : MemberEdit}
    (hne : own.key ≠ token) {e : PlacedEdit} (hready : (e.under token).Ready (.obj members)) :
    (e.under token).Ready (.obj (own.onMembers members)) ∧
      (e.under token).onValue (.obj (own.onMembers members)) =
        own.onValue ((e.under token).onValue (.obj members)) := by
  obtain ⟨child, hchild, hinside⟩ := ready_under.1 hready
  have hkept : (Json.obj (own.onMembers members)).child? token = some child :=
    (MemberEdit.get?_onMembers_of_ne hne.symm members).trans hchild
  refine ⟨ready_under.2 ⟨child, hkept, hinside⟩, ?_⟩
  rw [onValue_under hkept, onValue_under hchild]
  exact congrArg Json.obj (MemberEdit.onMembers_comm (a := own) (b := .add token (e.onValue child))
    h hne)

/-- Two edits of an object. -/
theorem exchange_siblings {members : Members} (h : Keyed.Ascending members) {a b : MemberEdit}
    (hne : a.key ≠ b.key) (hfits : b.Fits members) :
    b.Fits (a.onMembers members) ∧
      b.onMembers (a.onMembers members) = a.onMembers (b.onMembers members) := by
  constructor
  · exact (MemberEdit.fits_congr (MemberEdit.get?_onMembers_of_ne hne.symm members)).2 hfits
  · exact MemberEdit.onMembers_comm h hne

/-- Two edits inside of the same child. -/
theorem exchange_inside {e f : PlacedEdit} (hchild : value.child? token = some child)
    (h : f.Ready (e.onValue child) ∧ f.onValue (e.onValue child) = e.onValue (f.onValue child)) :
    (f.under token).Ready ((e.under token).onValue value) ∧
      (f.under token).onValue ((e.under token).onValue value) =
        (e.under token).onValue ((f.under token).onValue value) := by
  have hthere : (value.child? token).isSome := by simp [hchild]
  obtain ⟨hready, hcomm⟩ := h
  rw [onValue_under hchild, onValue_under hchild]
  have he := Json.child?_setChild hthere (e.onValue child)
  have hf := Json.child?_setChild hthere (f.onValue child)
  refine ⟨ready_under.2 ⟨_, he, hready⟩, ?_⟩
  rw [onValue_under he, onValue_under hf, hcomm, Json.setChild_setChild, Json.setChild_setChild]

/-- Two edits inside of different children. -/
theorem exchange_beside (hformed : value.WellFormed) {other : String} (hne : token ≠ other)
    {e f : PlacedEdit} (he : (e.under token).Ready value) (hf : (f.under other).Ready value) :
    (f.under other).Ready ((e.under token).onValue value) ∧
      (f.under other).onValue ((e.under token).onValue value) =
        (e.under token).onValue ((f.under other).onValue value) := by
  obtain ⟨child, hchild, _⟩ := ready_under.1 he
  obtain ⟨sibling, hsibling, hinside⟩ := ready_under.1 hf
  have hkept := (child?_onValue_under hchild hne.symm e).trans hsibling
  have hkept' := (child?_onValue_under hsibling hne f).trans hchild
  refine ⟨ready_under.2 ⟨sibling, hkept, hinside⟩, ?_⟩
  rw [onValue_under hkept, onValue_under hkept', onValue_under hchild, onValue_under hsibling,
    hformed.setChild_comm hne]

/-- Edits whose targets are apart can be exchanged. -/
theorem exchange {e f : PlacedEdit} (hformed : value.WellFormed) (he : e.Ready value)
    (hf : f.Ready value) (hapart : Apart e.target f.target) :
    f.Ready (e.onValue value) ∧ f.onValue (e.onValue value) = e.onValue (f.onValue value) := by
  obtain ⟨place, a⟩ := e
  obtain ⟨other, b⟩ := f
  -- on the way to the places: at the end of one, or to two children, or further down in one child
  induction place generalizing other value with
  | nil =>
    obtain ⟨members, hat, _⟩ := he
    obtain rfl := Option.some.inj hat
    have hascending := (Json.wellFormed_obj.1 hformed).1
    cases other with
    | nil =>
      obtain ⟨members', hat', hfits⟩ := hf
      obtain rfl := Json.obj.inj (Option.some.inj hat')
      obtain ⟨hkept, hcomm⟩ := exchange_siblings hascending (ne_of_apart_singleton hapart) hfits
      exact ⟨⟨_, rfl, hkept⟩, congrArg Json.obj hcomm⟩
    | cons token rest =>
      exact exchange_own (e := ⟨rest, b⟩) hascending (ne_of_apart_singleton hapart) hf
  | cons token rest ih =>
    change (under token ⟨rest, a⟩).Ready value at he
    obtain ⟨child, hchild, hinside⟩ := ready_under.1 he
    cases other with
    | nil =>
      obtain ⟨members, hat, hfits⟩ := hf
      obtain rfl := Option.some.inj hat
      have hne := ne_of_apart_singleton hapart.symm
      refine ⟨⟨Keyed.insert token (onValue ⟨rest, a⟩ child) members, ?_, ?_⟩, ?_⟩
      · exact congrArg some (onValue_under hchild ⟨rest, a⟩)
      · exact (MemberEdit.fits_congr (Keyed.get?_insert_of_ne hne _ members)).2 hfits
      · exact (exchange_own (Json.wellFormed_obj.1 hformed).1 hne he).2.symm
    | cons token' rest' =>
      change (under token' ⟨rest', b⟩).Ready value at hf
      by_cases hsame : token = token'
      · subst hsame
        obtain ⟨child', hchild', hinside'⟩ := ready_under.1 hf
        obtain rfl := Option.some.inj (hchild.symm.trans hchild')
        exact exchange_inside hchild
          (ih (hformed.child hchild) hinside rest' hinside' (apart_cons_self.1 hapart))
      · exact exchange_beside hformed hsame he hf

/-! ### The patch of an edit that is ready -/

/-- Where an edit is ready, its patch is not refused. -/
theorem error?_apply_patch {e : PlacedEdit} {document : Json} (h : e.Ready document) :
    ((e.patch []).apply document).error? = none := by
  obtain ⟨place, edit⟩ := e
  obtain ⟨members, hat, hfits⟩ := h
  rw [patch, List.nil_append]
  cases edit with
  | remove key =>
    have hmember : members.any (fun entry => entry.1 == key) = true :=
      Keyed.any_key_iff.2 (Keyed.contains_iff_mem_keys.1 hfits)
    obtain ⟨changed, hchanged⟩ := Json.exists_modifyAt?_eq_ok
      (Patch.takeFrom (Pointer.join (Pointer.ofTokens place) key) key) hat (if_pos hmember)
    simp only [MemberEdit.patch, Patch.apply, Patch.deleteAt, if_neg (Pointer.join_ne_empty _ _),
      Patch.inContainer, Pointer.splitLast?_join, Pointer.tokens?_ofTokens, Option.bind_some,
      hchanged]
    rfl
  | add key value =>
    obtain ⟨changed, hchanged⟩ := Json.exists_modifyAt?_eq_ok
      (Patch.putInto (Pointer.join (Pointer.ofTokens place) key) value key) hat rfl
    simp only [MemberEdit.patch, Patch.apply, Patch.insertAt, if_neg (Pointer.join_ne_empty _ _),
      Patch.inContainer, Pointer.splitLast?_join, Pointer.tokens?_ofTokens, Option.bind_some,
      hchanged]
    rfl
  | replace key value =>
    obtain ⟨old, hold⟩ := Option.isSome_iff_exists.1 hfits
    have hmember : document.at? (place ++ [key]) = some old := by
      rw [Json.at?_append, hat, Option.bind_some, Json.at?, Json.child?, hold]
      rfl
    obtain ⟨changed, hchanged⟩ := Json.exists_modifyAt?_eq_ok
      (fun _ => Except.ok (ε := ApplyError) value) hmember rfl
    simp only [MemberEdit.patch, Patch.apply, Patch.replaceAt, ← Pointer.ofTokens_append_singleton,
      Pointer.tokens?_ofTokens, Option.bind_some, hchanged]
    rfl

end PlacedEdit

/-! ### Compatible edits -/

/-- Each patch of a list is applied in turn and none is refused. -/
def AllApply : Json → List Patch → Prop
  | _, [] => True
  | document, patch :: rest =>
    (patch.apply document).error? = none ∧ AllApply (patch.apply document).document rest

/-- Edits that can all be made to a document, and no two of which are about the same place or about
places one of which is inside of the other. -/
structure Compatible (document : Json) (asked : List PlacedEdit) : Prop where
  formed : document.WellFormed
  apart : asked.Pairwise fun e f => Apart e.target f.target
  ready : ∀ e ∈ asked, e.Ready document
  names : ∀ e ∈ asked, Pointer.NamesMember e.edit.key
  puts : ∀ e ∈ asked, ∀ put, e.edit.value? = some put → put.WellFormed

namespace Compatible

variable {document : Json} {asked others : List PlacedEdit} {e : PlacedEdit}

theorem perm (h : Compatible document asked) (hperm : asked.Perm others) :
    Compatible document others where
  formed := h.formed
  apart := (hperm.pairwise_iff fun hapart => hapart.symm).1 h.apart
  ready e he := h.ready e (hperm.mem_iff.2 he)
  names e he := h.names e (hperm.mem_iff.2 he)
  puts e he := h.puts e (hperm.mem_iff.2 he)

/-- What is left to do after one of the edits. -/
theorem next (h : Compatible document (e :: asked)) : Compatible (e.onValue document) asked := by
  obtain ⟨hapart, hrest⟩ := List.pairwise_cons.1 h.apart
  obtain ⟨hready, hothers⟩ := List.forall_mem_cons.1 h.ready
  obtain ⟨hput, hputs⟩ := List.forall_mem_cons.1 h.puts
  constructor
  · exact h.formed.mapAt (fun _ => MemberEdit.wellFormed_onValue hput) e.place
  · exact hrest
  · intro f hf
    exact (PlacedEdit.exchange h.formed hready (hothers f hf) (hapart f hf)).1
  · exact (List.forall_mem_cons.1 h.names).2
  · exact hputs

/-- The order of compatible edits does not matter. -/
theorem onValueAll_perm (h : Compatible document asked) (hperm : asked.Perm others) :
    PlacedEdit.onValueAll asked document = PlacedEdit.onValueAll others document := by
  induction hperm generalizing document with
  | nil => rfl
  | cons e _ ih => exact ih h.next
  | swap e f rest =>
    have hready := h.ready e (by simp)
    have hready' := h.ready f (by simp)
    have hapart := List.rel_of_pairwise_cons h.apart (List.mem_cons_self (a := e))
    have hcomm := (PlacedEdit.exchange h.formed hready' hready hapart).2
    exact congrArg (PlacedEdit.onValueAll rest) hcomm
  | trans hperm _ ih ih' => exact (ih h).trans (ih' (h.perm hperm))

/-- The patches of compatible edits all apply, one after the other. -/
theorem allApply (h : Compatible document asked) :
    AllApply document (asked.map (PlacedEdit.patch [])) := by
  induction asked generalizing document with
  | nil => trivial
  | cons e rest ih =>
    have hready := h.ready e List.mem_cons_self
    have hname := h.names e List.mem_cons_self
    refine ⟨PlacedEdit.error?_apply_patch hready, ?_⟩
    rw [PlacedEdit.patch, List.nil_append, MemberEdit.apply_patch hname e.place h.formed]
    exact ih h.next

end Compatible

end ResourceCatalog
