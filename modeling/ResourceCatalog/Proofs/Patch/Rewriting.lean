import Mathlib
import ResourceCatalog.Proofs.Patch.Requests

/-!
# What a pass does to a document

All requests of a pass speak of the document before it. Applied one after the other they rewrite
every object at once: the members are rewritten by themselves, and the edits of the object are then
done to them. That is so because an object and what is inside of it never touch the same place: a
member that an object removes is not entered, and one that it puts holds nothing that is asked for.
-/

namespace ResourceCatalog

/-! ### Roles all the way down -/

section Everywhere

variable (holds : Role → Json → Prop)

mutual

/-- A property of values and their roles, at a value with some role and everywhere inside of it. -/
def Role.Everywhere (role : Role) : Json → Prop
  | .arr items => holds role (.arr items) ∧ Role.EverywhereInItems role items
  | .obj members => holds role (.obj members) ∧ Role.EverywhereInMembers role members
  | value => holds role value

def Role.EverywhereInItems (role : Role) : List Json → Prop
  | [] => True
  | item :: rest =>
    Role.Everywhere (role.below (.index 0) item) item ∧ Role.EverywhereInItems role rest

def Role.EverywhereInMembers (role : Role) : List (String × Json) → Prop
  | [] => True
  | (name, value) :: rest =>
    Role.Everywhere (role.below (.property name) value) value ∧ Role.EverywhereInMembers role rest

end

end Everywhere

namespace Role

variable {holds : Role → Json → Prop} {role : Role}

theorem everywhere_scalar {value : Json} (harr : value.isArray = false)
    (hobj : value.isObject = false) : Everywhere holds role value ↔ holds role value := by
  cases value with
  | arr items => cases harr
  | obj members => cases hobj
  | _ => rfl

theorem everywhere_arr {items : List Json} :
    Everywhere holds role (.arr items) ↔ holds role (.arr items) ∧
      ∀ item ∈ items, Everywhere holds (role.below (.index 0) item) item := by
  have hitems : EverywhereInItems holds role items ↔
      ∀ item ∈ items, Everywhere holds (role.below (.index 0) item) item := by
    induction items with
    | nil => simp [EverywhereInItems]
    | cons item rest ih => rw [EverywhereInItems, ih, List.forall_mem_cons]
  rw [Everywhere, hitems]

theorem everywhere_obj {members : Members} :
    Everywhere holds role (.obj members) ↔ holds role (.obj members) ∧
      ∀ entry ∈ members, Everywhere holds (role.below (.property entry.1) entry.2) entry.2 := by
  have hmembers : EverywhereInMembers holds role members ↔
      ∀ entry ∈ members, Everywhere holds (role.below (.property entry.1) entry.2) entry.2 := by
    induction members with
    | nil => simp [EverywhereInMembers]
    | cons entry rest ih => rw [EverywhereInMembers, ih, List.forall_mem_cons]
  rw [Everywhere, hmembers]

/-- The index of an item does not matter to what it holds. -/
theorem below_index (container : Role) (i : Nat) (value : Json) :
    container.below (.index i) value = container.below (.index 0) value := by
  cases container <;> rfl

theorem below_data (key : Key) (value : Json) : Role.data.below key value = .data := by
  cases key <;> rfl

theorem below_index_eq_data (h : role ≠ .schemaList) (i : Nat) (value : Json) :
    role.below (.index i) value = .data := by
  cases role with
  | schemaList => exact absurd rfl h
  | _ => rfl

theorem Everywhere.mono {holds' : Role → Json → Prop} (hmono : ∀ role value, holds role value →
    holds' role value) {value : Json} (h : Everywhere holds role value) :
    Everywhere holds' role value := by
  induction value using Json.partsInduction generalizing role with
  | scalar value harr hobj =>
    exact (everywhere_scalar harr hobj).2 (hmono _ _ ((everywhere_scalar harr hobj).1 h))
  | arr items ih =>
    obtain ⟨hhere, hitems⟩ := everywhere_arr.1 h
    exact everywhere_arr.2 ⟨hmono _ _ hhere, fun item hitem => ih item hitem (hitems item hitem)⟩
  | obj members ih =>
    obtain ⟨hhere, hmembers⟩ := everywhere_obj.1 h
    exact everywhere_obj.2 ⟨hmono _ _ hhere, fun entry hentry =>
      ih entry hentry (hmembers entry hentry)⟩

end Role

/-- Every item of a list of schemas has an index of 64 bits. -/
def Addressable (role : Role) (value : Json) : Prop :=
  ∀ items, value = .arr items → role = .schemaList → items.length ≤ UInt64.size

/-! ### Rewriting -/

section Rewriting

variable (edits : Editor)

mutual

/-- The value after a pass, if it has some role. -/
def rewritten (role : Role) : Json → Json
  | .arr items => .arr (rewrittenItems role items)
  | .obj members =>
    .obj ((edits role members).foldl MemberEdit.onMembers (rewrittenMembers role members))
  | value => value

def rewrittenItems (role : Role) : List Json → List Json
  | [] => []
  | item :: rest => rewritten (role.below (.index 0) item) item :: rewrittenItems role rest

def rewrittenMembers (role : Role) : List (String × Json) → List (String × Json)
  | [] => []
  | (name, value) :: rest =>
    (name, rewritten (role.below (.property name) value) value) :: rewrittenMembers role rest

end

/-- A member after a pass, before the edits of its object. -/
def rewrittenMember (role : Role) (name : String) (value : Json) : Json :=
  rewritten edits (role.below (.property name) value) value

theorem rewritten_scalar {value : Json} (harr : value.isArray = false)
    (hobj : value.isObject = false) (role : Role) : rewritten edits role value = value := by
  cases value with
  | arr items => cases harr
  | obj members => cases hobj
  | _ => rfl

theorem rewrittenItems_eq_map (role : Role) (items : List Json) : rewrittenItems edits role items =
    items.map fun item => rewritten edits (role.below (.index 0) item) item := by
  induction items with
  | nil => rfl
  | cons item rest ih => rw [rewrittenItems, ih, List.map_cons]

theorem rewrittenMembers_eq_map (role : Role) (members : Members) :
    rewrittenMembers edits role members =
      members.map fun entry => (entry.1, rewrittenMember edits role entry.1 entry.2) := by
  induction members with
  | nil => rfl
  | cons entry rest ih => rw [rewrittenMembers, ih, List.map_cons, rewrittenMember]

theorem get?_rewrittenMembers (role : Role) (members : Members) (key : String) :
    Keyed.get? key (rewrittenMembers edits role members) =
      (Keyed.get? key members).map (rewrittenMember edits role key) := by
  rw [rewrittenMembers_eq_map]
  exact Keyed.get?_map (rewrittenMember edits role) key members

theorem ascending_rewrittenMembers {members : Members} (h : Keyed.Ascending members) (role : Role) :
    Keyed.Ascending (rewrittenMembers edits role members) := by
  rw [rewrittenMembers_eq_map]
  exact h.map fun _ => rfl

end Rewriting

variable {rule : Rule} {edits : Editor} {subject : String} {document : Json} {role : Role}

/-- A value that is rewritten stays an object, an array or a scalar. -/
theorem below_rewritten (container : Role) (key : Key) (role : Role) (value : Json) :
    container.below key (rewritten edits role value) = container.below key value := by
  cases value <;> cases container <;> cases key <;> rfl

/-! ### Edits in turn -/

namespace PlacedEdit

def onValue (e : PlacedEdit) (value : Json) : Json := value.mapAt e.edit.onValue e.place

def onValueAll (asked : List PlacedEdit) (value : Json) : Json :=
  asked.foldl (fun value e => e.onValue value) value

theorem onValueAll_append (asked others : List PlacedEdit) (value : Json) :
    onValueAll (asked ++ others) value = onValueAll others (onValueAll asked value) :=
  List.foldl_append

/-- Edits below one token change the child there. -/
theorem onValueAll_under (asked : List PlacedEdit) {value : Json} {token : String}
    (hthere : (value.child? token).isSome) (child : Json) :
    onValueAll (asked.map (under token)) (value.setChild token child) =
      value.setChild token (onValueAll asked child) := by
  induction asked generalizing child with
  | nil => rfl
  | cons e rest ih =>
    have hstep : (e.under token).onValue (value.setChild token child) =
        value.setChild token (e.onValue child) := by
      rw [onValue, under, Json.mapAt, Json.child?_setChild hthere]
      exact Json.setChild_setChild _ _ _ _
    rw [List.map_cons, onValueAll, List.foldl_cons, hstep]
    exact ih (e.onValue child)

theorem onValueAll_own (own : List MemberEdit) (members : Members) :
    onValueAll (own.map (PlacedEdit.mk [])) (.obj members) =
      .obj (own.foldl MemberEdit.onMembers members) := by
  induction own generalizing members with
  | nil => rfl
  | cons e rest ih => exact ih (e.onMembers members)

end PlacedEdit

namespace MemberEdit

theorem ascending_foldl_onMembers {members : Members} (h : Keyed.Ascending members)
    (own : List MemberEdit) : Keyed.Ascending (own.foldl onMembers members) := by
  induction own generalizing members with
  | nil => exact h
  | cons e rest ih => exact ih (ascending_onMembers h e)

/-- What edits in turn make of a member is what those of its key make of it. -/
theorem get?_foldl_onMembers {members : Members} (h : Keyed.Ascending members)
    (own : List MemberEdit) (key : String) :
    Keyed.get? key (own.foldl onMembers members) =
      (own.filter fun e => e.key == key).foldl onMember (Keyed.get? key members) := by
  induction own generalizing members with
  | nil => rfl
  | cons e rest ih =>
    rw [List.foldl_cons, ih (ascending_onMembers h e), List.filter_cons]
    by_cases hkey : e.key = key
    · rw [if_pos (beq_iff_eq.2 hkey), List.foldl_cons, ← hkey, get?_onMembers_self h]
    · rw [if_neg (mt beq_iff_eq.1 hkey), get?_onMembers_of_ne (Ne.symm hkey)]

theorem mem_foldl_onMembers {own : List MemberEdit} {members : Members} {entry : String × Json}
    (h : entry ∈ own.foldl onMembers members) :
    entry ∈ members ∨ ∃ e ∈ own, e.key = entry.1 ∧ e.value? = some entry.2 := by
  induction own generalizing members with
  | nil => exact Or.inl h
  | cons e rest ih =>
    rcases ih h with hmem | ⟨other, hother, hput⟩
    · rcases mem_onMembers hmem with hmem | hput
      · exact Or.inl hmem
      · exact Or.inr ⟨e, List.mem_cons_self, hput⟩
    · exact Or.inr ⟨other, List.mem_cons_of_mem _ hother, hput⟩

/-- An edit of a member forgets what its value was. -/
theorem foldl_onMember_map {own : List MemberEdit} (h : own ≠ []) (member? : Option Json)
    (change : Json → Json) :
    own.foldl onMember (member?.map change) = own.foldl onMember member? := by
  cases own with
  | nil => exact absurd rfl h
  | cons e rest =>
    rw [List.foldl_cons, List.foldl_cons]
    congr 1
    cases e with
    | replace key value => rw [onMember, onMember, Option.map_map]; rfl
    | _ => rfl

end MemberEdit

/-! ### Data is left alone -/

/-- What is asked for inside of a list is asked for inside of an item. -/
theorem exists_of_mem_requestsOfItems {items : List Json} {index : Nat} {asked : PlacedEdit}
    (h : asked ∈ requestsOfItems edits role index items) :
    ∃ i item, items[i]? = some item ∧ ∃ inner ∈ requests edits (role.below (.index 0) item) item,
      asked = inner.under (toString (index + i)) := by
  induction items generalizing index with
  | nil => cases h
  | cons item rest ih =>
    rw [requestsOfItems, Role.below_index] at h
    rcases List.mem_append.1 h with h | h
    · obtain ⟨inner, hinner, rfl⟩ := List.mem_map.1 h
      exact ⟨0, item, rfl, inner, hinner, rfl⟩
    · obtain ⟨i, other, hother, inner, hinner, rfl⟩ := ih h
      refine ⟨i + 1, other, hother, inner, hinner, ?_⟩
      rw [Nat.add_right_comm, Nat.add_assoc]

/-- What is asked for inside of members is asked for inside of one that is not removed. -/
theorem exists_of_mem_requestsOfMembers {own : List MemberEdit} {members : Members}
    {asked : PlacedEdit} (h : asked ∈ requestsOfMembers edits role own members) :
    ∃ entry ∈ members, own.any (MemberEdit.removes entry.1) = false ∧
      ∃ inner ∈ requests edits (role.below (.property entry.1) entry.2) entry.2,
        asked = inner.under entry.1 := by
  induction members with
  | nil => cases h
  | cons entry rest ih =>
    rw [requestsOfMembers] at h
    rcases List.mem_append.1 h with h | h
    · split at h
      · cases h
      · next hkept =>
        obtain ⟨inner, hinner, rfl⟩ := List.mem_map.1 h
        exact ⟨entry, List.mem_cons_self, Bool.eq_false_iff.2 hkept, inner, hinner, rfl⟩
    · obtain ⟨other, hother, hinner⟩ := ih h
      exact ⟨other, List.mem_cons_of_mem _ hother, hinner⟩

theorem requestsOfItems_eq_nil {items : List Json}
    (h : ∀ item ∈ items, requests edits (role.below (.index 0) item) item = []) (index : Nat) :
    requestsOfItems edits role index items = [] := by
  refine List.eq_nil_iff_forall_not_mem.2 fun asked hasked => ?_
  obtain ⟨i, item, hitem, inner, hinner, _⟩ := exists_of_mem_requestsOfItems hasked
  rw [h item (List.mem_of_getElem? hitem)] at hinner
  cases hinner

theorem requestsOfMembers_eq_nil {members : Members}
    (h : ∀ entry ∈ members, requests edits (role.below (.property entry.1) entry.2) entry.2 = [])
    (own : List MemberEdit) : requestsOfMembers edits role own members = [] := by
  refine List.eq_nil_iff_forall_not_mem.2 fun asked hasked => ?_
  obtain ⟨entry, hentry, _, inner, hinner, _⟩ := exists_of_mem_requestsOfMembers hasked
  rw [h entry hentry] at hinner
  cases hinner

theorem requests_data (h : rule.Edits edits) (value : Json) : requests edits .data value = [] := by
  induction value using Json.partsInduction with
  | scalar value harr hobj => exact requests_scalar harr hobj _ _
  | arr items ih =>
    refine requestsOfItems_eq_nil (fun item hitem => ?_) 0
    rw [Role.below_data, ih item hitem]
  | obj members ih =>
    rw [requests, h.data, List.map_nil, List.nil_append]
    refine requestsOfMembers_eq_nil (fun entry hentry => ?_) []
    rw [Role.below_data, ih entry hentry]

theorem rewritten_data (h : rule.Edits edits) (value : Json) :
    rewritten edits .data value = value := by
  induction value using Json.partsInduction with
  | scalar value harr hobj => exact rewritten_scalar edits harr hobj _
  | arr items ih =>
    rw [rewritten, rewrittenItems_eq_map]
    refine congrArg Json.arr ((List.map_congr_left fun item hitem => ?_).trans (List.map_id _))
    rw [Role.below_data, ih item hitem, id]
  | obj members ih =>
    rw [rewritten, h.data, List.foldl_nil, rewrittenMembers_eq_map]
    refine congrArg Json.obj ((List.map_congr_left fun entry hentry => ?_).trans (List.map_id _))
    rw [rewrittenMember, Role.below_data, ih entry hentry, id]

/-! ### Requests applied -/

theorem onValueAll_items {items : List Json}
    (hitems : ∀ item ∈ items, PlacedEdit.onValueAll
      (requests edits (role.below (.index 0) item) item) item =
        rewritten edits (role.below (.index 0) item) item)
    (done : List Json) (hsize : done.length + items.length ≤ UInt64.size) :
    PlacedEdit.onValueAll (requestsOfItems edits role done.length items) (.arr (done ++ items)) =
      .arr (done ++ rewrittenItems edits role items) := by
  induction items generalizing done with
  | nil => rfl
  | cons item rest ih =>
    obtain ⟨hitem, hrest⟩ := List.forall_mem_cons.1 hitems
    rw [List.length_cons] at hsize
    have hindex : Pointer.index? (toString done.length) = some done.length :=
      Pointer.index?_toString (by omega)
    have hset : ∀ child, (Json.arr (done ++ item :: rest)).setChild (toString done.length) child =
        .arr (done ++ child :: rest) := by
      intro child
      rw [Json.setChild, hindex]
      simp
    have hthere : ((Json.arr (done ++ item :: rest)).child? (toString done.length)).isSome := by
      rw [Json.child?, hindex]
      simp
    rw [requestsOfItems, Role.below_index, PlacedEdit.onValueAll_append, ← hset item,
      PlacedEdit.onValueAll_under _ hthere, hset, hitem, rewrittenItems]
    have hnext := ih hrest (done ++ [rewritten edits (role.below (.index 0) item) item]) (by
      rw [List.length_append, List.length_singleton]
      omega)
    rw [List.length_append, List.length_singleton, List.append_assoc, List.append_assoc] at hnext
    exact hnext

/-- What is asked for inside of a member. -/
def requestsOfMember (edits : Editor) (role : Role) (own : List MemberEdit) (name : String)
    (value : Json) : List PlacedEdit :=
  if own.any (MemberEdit.removes name) then []
  else requests edits (role.below (.property name) value) value

theorem requestsOfMembers_cons (own : List MemberEdit) (name : String) (value : Json)
    (rest : Members) : requestsOfMembers edits role own ((name, value) :: rest) =
      (requestsOfMember edits role own name value).map (PlacedEdit.under name) ++
        requestsOfMembers edits role own rest := by
  rw [requestsOfMembers, requestsOfMember]
  split <;> rfl

section Member

variable {own : List MemberEdit} {name : String} {value : Json}

theorem requestsOfMember_of_ne_nil (h : requestsOfMember edits role own name value ≠ []) :
    requestsOfMember edits role own name value =
      requests edits (role.below (.property name) value) value := by
  rw [requestsOfMember] at h ⊢
  exact if_neg fun hremoved => h (if_pos hremoved)

theorem onValueAll_member (hvalue : PlacedEdit.onValueAll
      (requests edits (role.below (.property name) value) value) value =
        rewrittenMember edits role name value)
    (hasked : requestsOfMember edits role own name value ≠ [])
    {members : Members} (hascending : Keyed.Ascending members)
    (hthere : Keyed.get? name members = some value) :
    PlacedEdit.onValueAll ((requestsOfMember edits role own name value).map
        (PlacedEdit.under name)) (.obj members) =
      .obj (Keyed.insert name (rewrittenMember edits role name value) members) := by
  have hchild : ((Json.obj members).child? name).isSome := by
    rw [Json.child?, hthere]
    rfl
  have hchange := PlacedEdit.onValueAll_under
    (requestsOfMember edits role own name value) hchild value
  rw [Json.setChild, Json.setChild, hascending.insert_self hthere,
    requestsOfMember_of_ne_nil hasked, hvalue] at hchange
  rw [requestsOfMember_of_ne_nil hasked]
  exact hchange

/-- A member that nothing touches and in which nothing is asked for is not rewritten. -/
theorem rewrittenMember_eq_self (hvalue : PlacedEdit.onValueAll
      (requests edits (role.below (.property name) value) value) value =
        rewrittenMember edits role name value)
    (huntouched : (own.filter fun e => e.key == name) = [])
    (hnone : requestsOfMember edits role own name value = []) :
    rewrittenMember edits role name value = value := by
  have hkept : own.any (MemberEdit.removes name) ≠ true := by
    rw [ne_eq, List.any_eq_true]
    rintro ⟨e, he, hremoves⟩
    refine List.filter_eq_nil_iff.1 huntouched e he ?_
    cases e with
    | remove other => exact hremoves
    | _ => cases hremoves
  rw [requestsOfMember, if_neg hkept] at hnone
  rw [← hvalue, hnone]
  rfl

end Member

/-- Requests inside of members that are there are done in each of them. -/
theorem exists_onValueAll_members (own : List MemberEdit) {todo : Members}
    (hdistinct : (Keyed.keys todo).Nodup)
    (htodo : ∀ entry ∈ todo, PlacedEdit.onValueAll
      (requests edits (role.below (.property entry.1) entry.2) entry.2) entry.2 =
        rewrittenMember edits role entry.1 entry.2)
    {members : Members} (hascending : Keyed.Ascending members)
    (hthere : ∀ entry ∈ todo, requestsOfMember edits role own entry.1 entry.2 ≠ [] →
      Keyed.get? entry.1 members = some entry.2) :
    ∃ after, PlacedEdit.onValueAll (requestsOfMembers edits role own todo) (.obj members) =
        .obj after ∧ Keyed.Ascending after ∧
      ∀ key, Keyed.get? key after =
        match Keyed.get? key todo with
        | some value =>
          if (requestsOfMember edits role own key value).isEmpty then Keyed.get? key members
          else some (rewrittenMember edits role key value)
        | none => Keyed.get? key members := by
  induction todo generalizing members with
  | nil => exact ⟨members, rfl, hascending, fun _ => rfl⟩
  | cons entry rest ih =>
    obtain ⟨name, value⟩ := entry
    obtain ⟨hentry, hrest⟩ := List.forall_mem_cons.1 htodo
    obtain ⟨hfirst, hthere⟩ := List.forall_mem_cons.1 hthere
    obtain ⟨hname, hdistinct⟩ := List.nodup_cons.1 hdistinct
    rw [requestsOfMembers_cons, PlacedEdit.onValueAll_append]
    cases hasked : (requestsOfMember edits role own name value).isEmpty with
    | true =>
      rw [List.isEmpty_iff.1 hasked, List.map_nil]
      obtain ⟨after, hafter, hasc, hget⟩ := ih hdistinct hrest hascending hthere
      refine ⟨after, hafter, hasc, fun key => ?_⟩
      rw [hget, Keyed.get?]
      by_cases hkey : name = key
      · subst hkey
        rw [Keyed.get?_eq_none_iff.2 hname, if_pos rfl]
        simp only [hasked, if_true]
      · rw [if_neg hkey]
    | false =>
      rw [List.isEmpty_eq_false_iff] at hasked
      rw [onValueAll_member hentry hasked hascending (hfirst hasked)]
      obtain ⟨after, hafter, hasc, hget⟩ := ih hdistinct hrest
        (Keyed.ascending_insert hascending name _) fun other hother hne => by
          rw [Keyed.get?_insert_of_ne]
          · exact hthere other hother hne
          · rintro rfl
            exact hname (List.mem_map.2 ⟨other, hother, rfl⟩)
      refine ⟨after, hafter, hasc, fun key => ?_⟩
      rw [hget, Keyed.get?]
      by_cases hkey : name = key
      · subst hkey
        rw [Keyed.get?_eq_none_iff.2 hname, if_pos rfl, Keyed.get?_insert_self]
        simp only [List.isEmpty_eq_false_iff.2 hasked, Bool.false_eq_true, if_false]
      · rw [if_neg hkey, Keyed.get?_insert_of_ne (Ne.symm hkey)]

/-- A member that some edit of the object touches is not entered, or it is data. -/
theorem requestsOfMember_eq_nil (h : rule.Edits edits) {members : Members}
    (hformed : (Json.obj members).WellFormed) {e : MemberEdit} (he : e ∈ edits role members)
    {value : Json} (hget : Keyed.get? e.key members = some value) :
    requestsOfMember edits role (edits role members) e.key value = [] := by
  rw [requestsOfMember]
  split
  · rfl
  · next hkept =>
    cases hput : e.value? with
    | none =>
      cases e with
      | remove key =>
        refine absurd (List.any_eq_true.2 ⟨_, he, ?_⟩) hkept
        exact beq_iff_eq.2 rfl
      | _ => cases hput
    | some put =>
      rw [(h.puts role members hformed e he put hput).2 value hget]
      exact requests_data h value

/-- The requests of an object are its own edits and then what is asked for inside of members that
these edits leave alone. -/
theorem onValueAll_object (h : rule.Edits edits) {members : Members}
    (hformed : (Json.obj members).WellFormed)
    (hmembers : ∀ entry ∈ members, PlacedEdit.onValueAll
      (requests edits (role.below (.property entry.1) entry.2) entry.2) entry.2 =
        rewrittenMember edits role entry.1 entry.2) :
    PlacedEdit.onValueAll (requests edits role (.obj members)) (.obj members) =
      rewritten edits role (.obj members) := by
  have hascending := (Json.wellFormed_obj.1 hformed).1
  let own := edits role members
  -- a member that is edited is not entered, or nothing is asked for in what is put there
  have huntouched : ∀ key value, Keyed.get? key members = some value →
      requestsOfMember edits role own key value ≠ [] → (own.filter fun e => e.key == key) = [] := by
    intro key value hget hasked
    refine List.filter_eq_nil_iff.2 fun e he hkey => hasked ?_
    obtain rfl := beq_iff_eq.1 hkey
    exact requestsOfMember_eq_nil h hformed he hget
  obtain ⟨after, hafter, hasc, hget⟩ := exists_onValueAll_members own hascending.nodup_keys hmembers
    (MemberEdit.ascending_foldl_onMembers hascending own) fun entry hentry hasked => by
      have hget := hascending.get?_of_mem hentry
      rw [MemberEdit.get?_foldl_onMembers hascending, huntouched _ _ hget hasked]
      exact hget
  have hrewritten := ascending_rewrittenMembers edits hascending role
  rw [requests, rewritten, PlacedEdit.onValueAll_append, PlacedEdit.onValueAll_own, hafter]
  refine congrArg Json.obj (hasc.ext (MemberEdit.ascending_foldl_onMembers hrewritten own)
    fun key => ?_)
  rw [hget, MemberEdit.get?_foldl_onMembers hrewritten, get?_rewrittenMembers,
    MemberEdit.get?_foldl_onMembers hascending]
  cases hmember : Keyed.get? key members with
  | none => rfl
  | some value =>
    dsimp only
    cases hasked : (requestsOfMember edits role own key value).isEmpty with
    | false =>
      rw [huntouched key value hmember (List.isEmpty_eq_false_iff.1 hasked)]
      rfl
    | true =>
      rw [if_pos rfl]
      by_cases htouched : (own.filter fun e => e.key == key) = []
      · rw [htouched, List.foldl_nil, List.foldl_nil, Option.map_some,
          rewrittenMember_eq_self (hmembers (key, value) (Keyed.mem_of_get? hmember)) htouched
            (List.isEmpty_iff.1 hasked)]
      · exact (MemberEdit.foldl_onMember_map htouched (some value) _).symm

/-- The requests of a pass, one after the other, rewrite the document. -/
theorem onValueAll_requests (h : rule.Edits edits) {value : Json} (hformed : value.WellFormed)
    (haddressable : role.Everywhere Addressable value) :
    PlacedEdit.onValueAll (requests edits role value) value = rewritten edits role value := by
  induction value using Json.partsInduction generalizing role with
  | scalar value harr hobj =>
    rw [requests_scalar harr hobj, rewritten_scalar edits harr hobj]
    rfl
  | arr items ih =>
    obtain ⟨hhere, hinside⟩ := Role.everywhere_arr.1 haddressable
    have hitems : ∀ item ∈ items, PlacedEdit.onValueAll
        (requests edits (role.below (.index 0) item) item) item =
          rewritten edits (role.below (.index 0) item) item := fun item hitem =>
      ih item hitem (Json.wellFormed_arr.1 hformed item hitem) (hinside item hitem)
    rw [requests, rewritten]
    by_cases hrole : role = .schemaList
    · exact onValueAll_items hitems [] (by simpa using hhere items rfl hrole)
    · -- below anything else that is a list there is only data
      have hrequests : requestsOfItems edits role 0 items = [] :=
        requestsOfItems_eq_nil (fun item _ => by
          rw [Role.below_index_eq_data hrole, requests_data h]) 0
      have hrewritten : rewrittenItems edits role items = items := by
        rw [rewrittenItems_eq_map]
        refine (List.map_congr_left fun item _ => ?_).trans (List.map_id _)
        rw [Role.below_index_eq_data hrole, rewritten_data h, id]
      rw [hrequests, hrewritten]
      rfl
  | obj members ih =>
    have hmembers := (Json.wellFormed_obj.1 hformed).2
    have hinside := (Role.everywhere_obj.1 haddressable).2
    exact onValueAll_object h hformed fun entry hentry =>
      ih entry hentry (hmembers entry hentry) (hinside entry hentry)

/-- Where nothing is asked for, nothing changes. -/
theorem rewritten_of_requests_eq_nil (h : rule.Edits edits) {value : Json}
    (hformed : value.WellFormed) (haddressable : role.Everywhere Addressable value)
    (hnone : requests edits role value = []) : rewritten edits role value = value := by
  rw [← onValueAll_requests h hformed haddressable, hnone]
  rfl

theorem wellFormed_rewritten (h : rule.Edits edits) {value : Json} (hformed : value.WellFormed) :
    (rewritten edits role value).WellFormed := by
  induction value using Json.partsInduction generalizing role with
  | scalar value harr hobj =>
    rw [rewritten_scalar edits harr hobj]
    exact hformed
  | arr items ih =>
    rw [rewritten, rewrittenItems_eq_map]
    refine Json.wellFormed_arr.2 fun item hitem => ?_
    obtain ⟨old, hold, rfl⟩ := List.mem_map.1 hitem
    exact ih old hold (Json.wellFormed_arr.1 hformed old hold)
  | obj members ih =>
    obtain ⟨hascending, hmembers⟩ := Json.wellFormed_obj.1 hformed
    rw [rewritten]
    refine Json.wellFormed_obj.2 ⟨MemberEdit.ascending_foldl_onMembers
      (ascending_rewrittenMembers edits hascending role) _, fun entry hentry => ?_⟩
    rcases MemberEdit.mem_foldl_onMembers hentry with hmem | ⟨e, he, _, hput⟩
    · rw [rewrittenMembers_eq_map] at hmem
      obtain ⟨old, hold, rfl⟩ := List.mem_map.1 hmem
      exact ih old hold (hmembers old hold)
    · exact (h.puts role members hformed e he _ hput).1

/-! ### A pass -/

/-- Every request comes from the edits of an object. -/
theorem exists_of_mem_requests {value : Json} (hformed : value.WellFormed) {asked : PlacedEdit}
    (h : asked ∈ requests edits role value) :
    ∃ role members, (Json.obj members).WellFormed ∧ asked.edit ∈ edits role members := by
  induction value using Json.partsInduction generalizing role asked with
  | scalar value harr hobj =>
    rw [requests_scalar harr hobj] at h
    cases h
  | arr items ih =>
    rw [requests] at h
    obtain ⟨i, item, hat, inner, hinner, rfl⟩ := exists_of_mem_requestsOfItems h
    have hitem := List.mem_of_getElem? hat
    have hfound := ih item hitem (Json.wellFormed_arr.1 hformed item hitem) hinner
    exact hfound
  | obj members ih =>
    rw [requests] at h
    rcases List.mem_append.1 h with hown | hinside
    · obtain ⟨edit, hedit, rfl⟩ := List.mem_map.1 hown
      exact ⟨role, members, hformed, hedit⟩
    · obtain ⟨entry, hentry, _, inner, hinner, rfl⟩ := exists_of_mem_requestsOfMembers hinside
      have hfound := ih entry hentry ((Json.wellFormed_obj.1 hformed).2 entry hentry) hinner
      exact hfound

theorem applicationOrder_of_isNone {made : List Correction}
    (h : ∀ patch ∈ made.map Correction.patch, itemRemoval? document patch = none) :
    applicationOrder document made = made.map Correction.patch := by
  have hremovals : (made.map Correction.patch).filterMap (itemRemoval? document) = [] :=
    List.filterMap_eq_nil_iff.2 h
  have hothers : (made.map Correction.patch).filter
      (fun patch => (itemRemoval? document patch).isNone) = made.map Correction.patch := by
    refine List.filter_eq_self.2 fun patch hpatch => ?_
    rw [h patch hpatch]
    rfl
  rw [applicationOrder, hremovals, hothers, List.mergeSort_nil]
  exact List.append_nil _

theorem applyAll_patches {asked : List PlacedEdit}
    (hnames : ∀ e ∈ asked, Pointer.NamesMember e.edit.key)
    (hputs : ∀ e ∈ asked, ∀ put, e.edit.value? = some put → put.WellFormed)
    (hformed : document.WellFormed) :
    applyAll document (asked.map (PlacedEdit.patch [])) =
      PlacedEdit.onValueAll asked document := by
  induction asked generalizing document with
  | nil => rfl
  | cons e rest ih =>
    obtain ⟨hname, hnames⟩ := List.forall_mem_cons.1 hnames
    obtain ⟨hput, hputs⟩ := List.forall_mem_cons.1 hputs
    rw [List.map_cons, applyAll, List.foldl_cons, PlacedEdit.patch, List.nil_append,
      MemberEdit.apply_patch hname e.place hformed]
    exact ih hnames hputs
      (hformed.mapAt (fun _ => MemberEdit.wellFormed_onValue hput) e.place)

/-- The patches of edits are applied in the order in which they were asked for. -/
theorem applicationOrder_of_edits {made : List Correction} {asked : List PlacedEdit}
    (hmade : made.map Correction.patch = asked.map (PlacedEdit.patch []))
    (hnames : ∀ e ∈ asked, Pointer.NamesMember e.edit.key) :
    applicationOrder document made = asked.map (PlacedEdit.patch []) := by
  rw [applicationOrder_of_isNone ?_, hmade]
  rw [hmade]
  intro patch hpatch
  obtain ⟨e, he, rfl⟩ := List.mem_map.1 hpatch
  exact MemberEdit.itemRemoval?_patch (hnames e he) _ document

theorem correct_of_edits {made : List Correction} {asked : List PlacedEdit}
    (hmade : made.map Correction.patch = asked.map (PlacedEdit.patch []))
    (hnames : ∀ e ∈ asked, Pointer.NamesMember e.edit.key)
    (hputs : ∀ e ∈ asked, ∀ put, e.edit.value? = some put → put.WellFormed)
    (hformed : document.WellFormed) :
    correct document made = PlacedEdit.onValueAll asked document := by
  rw [correct, applicationOrder_of_edits hmade hnames, applyAll_patches hnames hputs hformed]

section Asked

variable (h : rule.Edits edits) {value : Json} (hformed : value.WellFormed) {e : PlacedEdit}
  (he : e ∈ requests edits role value)

include h hformed he

theorem names_of_mem_requests : Pointer.NamesMember e.edit.key := by
  obtain ⟨role, members, _, hedit⟩ := exists_of_mem_requests hformed he
  exact h.names role members _ hedit

theorem puts_of_mem_requests {put : Json} (hput : e.edit.value? = some put) : put.WellFormed := by
  obtain ⟨role, members, hmembers, hedit⟩ := exists_of_mem_requests hformed he
  exact (h.puts role members hmembers _ hedit put hput).1

end Asked

/-- A pass of a rule that edits members rewrites the document. -/
theorem passStep_eq_rewritten (h : rule.Edits edits) (subject : String)
    (hformed : document.WellFormed) (haddressable : Role.schema.Everywhere Addressable document) :
    passStep rule subject document = rewritten edits .schema document := by
  rw [passStep, correct_of_edits (patches_pass h subject hformed)
    (fun e he => names_of_mem_requests h hformed he)
    (fun e he put hput => puts_of_mem_requests h hformed he hput) hformed,
    onValueAll_requests h hformed haddressable]

theorem pass_eq_nil_iff (h : rule.Edits edits) (subject : String) (hformed : document.WellFormed) :
    pass rule subject document = [] ↔ requests edits .schema document = [] := by
  rw [← List.map_eq_nil_iff (f := Correction.patch), patches_pass h subject hformed,
    List.map_eq_nil_iff]

end ResourceCatalog
