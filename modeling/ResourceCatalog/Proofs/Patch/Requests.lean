import Mathlib
import ResourceCatalog.Proofs.Json.Parts
import ResourceCatalog.Proofs.Patch.MemberEdits

/-!
# What a pass asks for

A rule that only edits members of objects, and looks at nothing but the members and the role of the
object, is given by these edits. What a pass of such a rule asks for is then a recursion on the
document: the edits of an object, then those inside of its members, without the members that the
object itself asks to be removed. No other request of the pass removes a place that the walk comes to.
-/

namespace ResourceCatalog

/-- An edit of the object at some tokens. -/
structure PlacedEdit where
  place : List String
  edit : MemberEdit

namespace PlacedEdit

/-- The edit seen from one token further up. -/
def under (token : String) (e : PlacedEdit) : PlacedEdit := ⟨token :: e.place, e.edit⟩

/-- The patch of the edit, for a value that stands at some tokens itself. -/
def patch (base : List String) (e : PlacedEdit) : Patch := e.edit.patch (base ++ e.place)

theorem patch_under (base : List String) (token : String) (edits : List PlacedEdit) :
    (edits.map (under token)).map (patch base) = edits.map (patch (base ++ [token])) := by
  rw [List.map_map]
  refine List.map_congr_left fun e _ => ?_
  rw [Function.comp_apply, patch, patch, under, List.append_assoc, List.singleton_append]

/-- A removal among the patches of edits removes a member below the place of one of the edits. -/
theorem exists_of_remove_mem {base tokens : List String} {edits : List PlacedEdit}
    (h : Patch.remove (Pointer.ofTokens tokens) ∈ edits.map (patch base)) :
    ∃ e ∈ edits, ∃ key, e.edit = .remove key ∧ tokens = base ++ e.place ++ [key] := by
  obtain ⟨⟨place, edit⟩, he, hpatch⟩ := List.mem_map.1 h
  cases edit with
  | remove key =>
    rw [patch, MemberEdit.patch, ← Pointer.ofTokens_append_singleton] at hpatch
    exact ⟨_, he, key, rfl, (Pointer.ofTokens_injective (Patch.remove.inj hpatch)).symm⟩
  | add key value => cases hpatch
  | replace key value => cases hpatch

end PlacedEdit

/-! ### The edits of a rule -/

/-- The edits of an object with some role and some members. -/
abbrev Editor := Role → Members → List MemberEdit

/-- The rule asks for the edits at every object, and for nothing elsewhere. The keys of the edits
name members. Data is left alone, and so is what stands under a key that is not removed but put. -/
structure Rule.Edits (rule : Rule) (edits : Editor) : Prop where
  patches : ∀ (c : Cursor) (members : Members), c.value = .obj members →
    (rule c).map Correction.patch = (edits c.role members).map (MemberEdit.patch c.trail.tokens)
  elsewhere : ∀ c : Cursor, c.value.isObject = false → rule c = []
  names : ∀ role members, ∀ e ∈ edits role members, Pointer.NamesMember e.key
  puts : ∀ role members, (Json.obj members).WellFormed → ∀ e ∈ edits role members, ∀ put,
    e.value? = some put → put.WellFormed ∧
      ∀ old, Keyed.get? e.key members = some old → role.below (.property e.key) old = .data
  data : ∀ members, edits .data members = []

def MemberEdit.removes (key : String) : MemberEdit → Bool
  | remove other => other == key
  | _ => false

section Requests

variable (edits : Editor)

mutual

/-- What is asked for at a value with some role and inside of it, each place seen from the value. -/
def requests (role : Role) : Json → List PlacedEdit
  | .arr items => requestsOfItems role 0 items
  | .obj members =>
    (edits role members).map (PlacedEdit.mk []) ++
      requestsOfMembers role (edits role members) members
  | _ => []

def requestsOfItems (role : Role) (index : Nat) : List Json → List PlacedEdit
  | [] => []
  | item :: rest =>
    (requests (role.below (.index index) item) item).map (PlacedEdit.under (toString index)) ++
      requestsOfItems role (index + 1) rest

def requestsOfMembers (role : Role) (own : List MemberEdit) :
    List (String × Json) → List PlacedEdit
  | [] => []
  | (name, value) :: rest =>
    (if own.any (MemberEdit.removes name) then []
      else (requests (role.below (.property name) value) value).map (PlacedEdit.under name)) ++
      requestsOfMembers role own rest

end

end Requests

variable {rule : Rule} {edits : Editor} {subject : String} {document : Json}

/-! ### The walk -/

theorem removes_iff {made : List Correction} {pointer : String} :
    removes made pointer = true ↔ Patch.remove pointer ∈ made.map Correction.patch := by
  rw [removes, List.any_eq_true, List.mem_map]
  refine exists_congr fun c => and_congr_right fun _ => ?_
  cases c.patch <;> simp

theorem removes_append {made new : List Correction} {pointer : String} :
    removes (made ++ new) pointer = (removes made pointer || removes new pointer) := List.any_append

/-- The corrections are those that some edits stand for. -/
def StandsFor (base : List String) (new : List Correction) (asked : List PlacedEdit) : Prop :=
  new.map Correction.patch = asked.map (PlacedEdit.patch base)

theorem StandsFor.append {base : List String} {new more : List Correction}
    {asked others : List PlacedEdit} (h : StandsFor base new asked)
    (hmore : StandsFor base more others) : StandsFor base (new ++ more) (asked ++ others) := by
  rw [StandsFor, List.map_append, List.map_append, h, hmore]

theorem StandsFor.removes_eq_false {base : List String} {new : List Correction}
    {asked : List PlacedEdit} {token other : String} (h : StandsFor (base ++ [token]) new asked)
    (hne : token ≠ other) (below : List String) :
    removes new (Pointer.ofTokens (base ++ other :: below)) = false := by
  rw [Bool.eq_false_iff, ne_eq, removes_iff, h]
  intro hmem
  obtain ⟨e, _, key, _, heq⟩ := PlacedEdit.exists_of_remove_mem hmem
  rw [List.append_assoc, List.append_assoc, List.append_cancel_left_eq,
    List.singleton_append] at heq
  exact hne (List.cons.inj heq).1.symm

/-- The corrections of an object remove the members that it asks to be removed. -/
theorem StandsFor.removes_own {base : List String} {new : List Correction} {own : List MemberEdit}
    (h : StandsFor base new (own.map (PlacedEdit.mk []))) (name : String) (below : List String) :
    removes new (Pointer.ofTokens (base ++ name :: below)) =
      (below.isEmpty && own.any (MemberEdit.removes name)) := by
  rw [Bool.eq_iff_iff, removes_iff, h, Bool.and_eq_true, List.isEmpty_iff, List.any_eq_true]
  constructor
  · intro hmem
    obtain ⟨e, he, key, hedit, heq⟩ := PlacedEdit.exists_of_remove_mem hmem
    obtain ⟨edit, hown, rfl⟩ := List.mem_map.1 he
    rw [List.append_nil, List.append_cancel_left_eq] at heq
    obtain ⟨hname, hbelow⟩ := List.cons.inj heq
    refine ⟨hbelow, edit, hown, ?_⟩
    rw [show edit = .remove key from hedit, MemberEdit.removes, hname, beq_self_eq_true]
  · rintro ⟨rfl, edit, hown, hremoves⟩
    cases edit with
    | remove key =>
      obtain rfl : key = name := beq_iff_eq.1 hremoves
      refine List.mem_map.2 ⟨⟨[], .remove key⟩, List.mem_map.2 ⟨_, hown, rfl⟩, ?_⟩
      rw [PlacedEdit.patch, MemberEdit.patch, List.append_nil, Pointer.ofTokens_append_singleton]
    | _ => cases hremoves

/-- The corrections that a walk adds for a value. -/
def Adds (edits : Editor) (trail : Trail) (made after : List Correction) (role : Role)
    (value : Json) : Prop :=
  ∃ new, after = made ++ new ∧ StandsFor trail.tokens new (requests edits role value)

theorem visit_scalar {value : Json} (harr : value.isArray = false) (hobj : value.isObject = false)
    (trail : Trail) (made : List Correction) :
    visit rule subject document trail made value =
      made ++ rule ⟨subject, document, value, trail⟩ := by
  cases value with
  | arr items => cases harr
  | obj members => cases hobj
  | _ => rfl

theorem requests_scalar {value : Json} (harr : value.isArray = false)
    (hobj : value.isObject = false) (edits : Editor) (role : Role) :
    requests edits role value = [] := by
  cases value with
  | arr items => cases harr
  | obj members => cases hobj
  | _ => rfl

theorem exists_visitItems (container : Json) (trail : Trail) {items : List Json}
    (hitems : ∀ item ∈ items, ∀ (trail : Trail) (made : List Correction),
      (∀ below ≠ [], removes made (Pointer.ofTokens (trail.tokens ++ below)) = false) →
      Adds edits trail made (visit rule subject document trail made item)
        (Role.ofTrail item trail) item) (index : Nat) (made : List Correction)
    (hmade : ∀ i, index ≤ i → ∀ below,
      removes made (Pointer.ofTokens (trail.tokens ++ toString i :: below)) = false) :
    ∃ new, visitItems rule subject document container trail index made items = made ++ new ∧
      StandsFor trail.tokens new
        (requestsOfItems edits (Role.ofTrail container trail) index items) := by
  induction items generalizing index made with
  | nil => exact ⟨[], (List.append_nil _).symm, rfl⟩
  | cons item rest ih =>
    obtain ⟨hitem, hrest⟩ := List.forall_mem_cons.1 hitems
    let below : Trail := ⟨container, .index index⟩ :: trail
    have hbelow : below.tokens = trail.tokens ++ [toString index] := Trail.tokens_cons _ _
    have hskip : removes made below.pointer = false := by
      rw [Trail.pointer_eq_ofTokens, hbelow]
      exact hmade index le_rfl []
    obtain ⟨new, hvisit, hnew⟩ := hitem below made fun tokens _ => by
      rw [hbelow, List.append_assoc]
      exact hmade index le_rfl tokens
    rw [hbelow] at hnew
    obtain ⟨more, hmore, hothers⟩ := ih hrest (index + 1) (made ++ new) fun i hi tokens => by
      rw [removes_append, hmade i (Nat.le_of_succ_le hi) tokens, Bool.false_or]
      exact hnew.removes_eq_false (fun heq => absurd hi (by
        rw [Pointer.toString_injective heq]
        exact Nat.not_succ_le_self i)) tokens
    refine ⟨new ++ more, ?_, ?_⟩
    · rw [visitItems, if_neg (by rw [hskip]; decide), hvisit, hmore, List.append_assoc]
    · rw [requestsOfItems]
      refine StandsFor.append ?_ hothers
      rw [StandsFor, PlacedEdit.patch_under]
      exact hnew

theorem exists_visitMembers (container : Json) (trail : Trail) (own : List MemberEdit)
    {members : Members} (hdistinct : (Keyed.keys members).Nodup)
    (hmembers : ∀ entry ∈ members, ∀ (trail : Trail) (made : List Correction),
      (∀ below ≠ [], removes made (Pointer.ofTokens (trail.tokens ++ below)) = false) →
      Adds edits trail made (visit rule subject document trail made entry.2)
        (Role.ofTrail entry.2 trail) entry.2) (made : List Correction)
    (hmade : ∀ name ∈ Keyed.keys members, ∀ below,
      removes made (Pointer.ofTokens (trail.tokens ++ name :: below)) =
        (below.isEmpty && own.any (MemberEdit.removes name))) :
    ∃ new, visitMembers rule subject document container trail made members = made ++ new ∧
      StandsFor trail.tokens new
        (requestsOfMembers edits (Role.ofTrail container trail) own members) := by
  induction members generalizing made with
  | nil => exact ⟨[], (List.append_nil _).symm, rfl⟩
  | cons entry rest ih =>
    obtain ⟨name, value⟩ := entry
    obtain ⟨hvalue, hrest⟩ := List.forall_mem_cons.1 hmembers
    obtain ⟨hname, hdistinct⟩ := List.nodup_cons.1 hdistinct
    let below : Trail := ⟨container, .property name⟩ :: trail
    have hbelow : below.tokens = trail.tokens ++ [name] := Trail.tokens_cons _ _
    have hskip : removes made below.pointer = own.any (MemberEdit.removes name) := by
      rw [Trail.pointer_eq_ofTokens, hbelow]
      exact hmade name List.mem_cons_self []
    rw [visitMembers, requestsOfMembers, hskip]
    cases hremoved : own.any (MemberEdit.removes name) with
    | true =>
      obtain ⟨more, hmore, hothers⟩ := ih hdistinct hrest made fun other hother =>
        hmade other (List.mem_cons_of_mem _ hother)
      exact ⟨more, hmore, hothers⟩
    | false =>
      obtain ⟨new, hvisit, hnew⟩ := hvalue below made fun tokens htokens => by
        rw [hbelow, List.append_assoc, List.singleton_append, hmade name List.mem_cons_self tokens,
          List.isEmpty_eq_false_iff.2 htokens, Bool.false_and]
      rw [hbelow] at hnew
      obtain ⟨more, hmore, hothers⟩ := ih hdistinct hrest (made ++ new) fun other hother tokens => by
        rw [removes_append, hmade other (List.mem_cons_of_mem _ hother),
          hnew.removes_eq_false (fun heq => hname (heq ▸ hother)), Bool.or_false]
      refine ⟨new ++ more, ?_, ?_⟩
      · rw [if_neg (by decide), hvisit, hmore, List.append_assoc]
      · rw [if_neg (by decide)]
        refine StandsFor.append ?_ hothers
        rw [StandsFor, PlacedEdit.patch_under]
        exact hnew

theorem adds_visit (h : rule.Edits edits) {value : Json} (hformed : value.WellFormed)
    (trail : Trail) (made : List Correction)
    (hmade : ∀ below ≠ [], removes made (Pointer.ofTokens (trail.tokens ++ below)) = false) :
    Adds edits trail made (visit rule subject document trail made value)
      (Role.ofTrail value trail) value := by
  induction value using Json.partsInduction generalizing trail made with
  | scalar value harr hobj =>
    have hrule : rule ⟨subject, document, value, trail⟩ = [] := h.elsewhere _ hobj
    refine ⟨[], ?_, ?_⟩
    · rw [visit_scalar harr hobj, hrule]
    · rw [requests_scalar harr hobj]
      rfl
  | arr items ih =>
    have hrule : rule ⟨subject, document, .arr items, trail⟩ = [] := h.elsewhere _ rfl
    rw [visit, hrule, List.append_nil]
    exact exists_visitItems (.arr items) trail
      (fun item hitem => ih item hitem (Json.wellFormed_arr.1 hformed item hitem)) 0 made
      fun i _ below => hmade _ (List.cons_ne_nil _ _)
  | obj members ih =>
    obtain ⟨hascending, hmembers⟩ := Json.wellFormed_obj.1 hformed
    let c : Cursor := ⟨subject, document, .obj members, trail⟩
    have hown : StandsFor trail.tokens (rule c) ((edits c.role members).map (PlacedEdit.mk [])) := by
      rw [StandsFor, h.patches c members rfl, List.map_map]
      refine List.map_congr_left fun e _ => ?_
      rw [Function.comp_apply, PlacedEdit.patch, List.append_nil]
    obtain ⟨new, hvisit, hnew⟩ := exists_visitMembers (.obj members) trail (edits c.role members)
      hascending.nodup_keys (fun entry hentry => ih entry hentry (hmembers entry hentry)) (made ++ rule c)
      fun name _ below => by
        rw [removes_append, hmade _ (List.cons_ne_nil _ _), Bool.false_or]
        exact hown.removes_own name below
    refine ⟨rule c ++ new, ?_, ?_⟩
    · rw [visit, ← List.append_assoc]
      exact hvisit
    · rw [requests]
      exact hown.append hnew

/-- The patches of a pass are those of the requests. -/
theorem patches_pass (h : rule.Edits edits) (subject : String) (hformed : document.WellFormed) :
    (pass rule subject document).map Correction.patch =
      (requests edits .schema document).map (PlacedEdit.patch []) := by
  obtain ⟨new, hvisit, hnew⟩ := adds_visit h hformed [] [] fun _ _ => rfl
  rw [pass, hvisit]
  exact hnew

end ResourceCatalog
