import Mathlib
import ResourceCatalog.Proofs.Patch.Effort

/-!
# Passes that are still pending

The effort of a schema is spent while that of its members is, so along one way into the document the
efforts add up, and of the members of one schema the slowest one counts. Where nothing is asked for,
nothing is pending. Every pass that asks for something brings the number of pending passes down. A
split copies members into several branches, but into none of them more than the schema gives away.
-/

namespace ResourceCatalog.Standard

/-- The effort in an object itself. -/
def effort (role : Role) (members : Members) : Nat :=
  if role = .schema then schemaEffort members else 0

mutual

/-- A bound on the passes that still change a value with some role. -/
def pending (role : Role) : Json → Nat
  | .arr items => if (requests edits role (.arr items)).isEmpty then 0 else pendingOfItems role items
  | .obj members =>
    if (requests edits role (.obj members)).isEmpty then 0
    else effort role members + pendingOfMembers role members
  | _ => 0

def pendingOfItems (role : Role) : List Json → Nat
  | [] => 0
  | item :: rest => max (pending (role.below (.index 0) item) item) (pendingOfItems role rest)

def pendingOfMembers (role : Role) : List (String × Json) → Nat
  | [] => 0
  | (name, value) :: rest =>
    max (pending (role.below (.property name) value) value) (pendingOfMembers role rest)

end

variable {role : Role} {members : Members} {items : List Json}

/-! ### The slowest part counts -/

theorem pendingOfItems_le_iff {n : Nat} : pendingOfItems role items ≤ n ↔
    ∀ item ∈ items, pending (role.below (.index 0) item) item ≤ n := by
  induction items with
  | nil => simp [pendingOfItems]
  | cons item rest ih => rw [pendingOfItems, max_le_iff, ih, List.forall_mem_cons]

theorem pendingOfMembers_le_iff {n : Nat} : pendingOfMembers role members ≤ n ↔
    ∀ entry ∈ members, pending (role.below (.property entry.1) entry.2) entry.2 ≤ n := by
  induction members with
  | nil => simp [pendingOfMembers]
  | cons entry rest ih => rw [pendingOfMembers, max_le_iff, ih, List.forall_mem_cons]

theorem pending_of_isEmpty {value : Json} (h : requests edits role value = []) :
    pending role value = 0 := by
  cases value with
  | arr items => rw [pending, h]; rfl
  | obj members => rw [pending, h]; rfl
  | _ => rfl

theorem pending_data (value : Json) : pending .data value = 0 :=
  pending_of_isEmpty (requests_data edits_rule value)

theorem pending_arr_le (role : Role) (items : List Json) :
    pending role (.arr items) ≤ pendingOfItems role items := by
  rw [pending]
  split
  · exact Nat.zero_le _
  · exact le_rfl

theorem pending_obj_le (role : Role) (members : Members) :
    pending role (.obj members) ≤ effort role members + pendingOfMembers role members := by
  rw [pending]
  split
  · exact Nat.zero_le _
  · exact le_rfl

/-! ### Splitting a type -/

theorem exists_types (h : splitsType members = true) :
    ∃ types, arrayAt? members "type" = some types ∧ 1 < types.length ∧
      foldsRequired members = false := by
  rw [splitsType] at h
  split at h
  · next types htypes =>
    rw [Bool.and_eq_true, Bool.and_eq_true, decide_eq_true_eq, Bool.not_eq_true'] at h
    exact ⟨types, htypes, h.1.1, Bool.not_eq_true' _ ▸ h.2⟩
  · cases h

/-- The edits that split a type into branches. -/
def splitEdits (members : Members) (types : List Json) : List MemberEdit :=
  ("type" :: movedKeywords members types).map MemberEdit.remove ++
    [.add "anyOf" (.arr (types.map (typeBranch members)))]

theorem typeEdits_of_splitsType (h : splitsType members = true) {types : List Json}
    (htypes : arrayAt? members "type" = some types) :
    typeEdits members = splitEdits members types := by
  obtain ⟨others, hothers, hlength, _⟩ := exists_types h
  obtain rfl := Option.some.inj (htypes.symm.trans hothers)
  rw [typeEdits, htypes]
  rcases types with _ | ⟨type, _ | ⟨other, more⟩⟩
  · cases hlength
  · exact absurd hlength (lt_irrefl 1)
  · exact if_pos h

theorem schemaEdits_of_splitsType (h : splitsType members = true) {types : List Json}
    (htypes : arrayAt? members "type" = some types) :
    schemaEdits members = splitEdits members types := by
  obtain ⟨_, _, _, hfolds⟩ := exists_types h
  have hdefault : defaultEdits members = [] := by
    rw [defaultEdits, get?_of_arrayAt? htypes]
  rw [schemaEdits, foldEdits_eq_nil hfolds, typeEdits_of_splitsType h htypes, emptyRequiredEdits,
    undeclaredEdits, h, hdefault, Bool.or_true]
  simp only [if_true, List.nil_append, List.append_nil]

theorem not_mem_splitKeywords {types : List Json} {key : String} (htype : key ≠ "type")
    (h : key ∉ movableKeywords) : key ∉ "type" :: movedKeywords members types := by
  rw [List.mem_cons, not_or]
  exact ⟨htype, fun hmoved => h (movable_of_mem_movedKeywords hmoved)⟩

/-- What a split makes of members: the type and what moves are gone, and the branches are there. -/
theorem get?_foldl_splitEdits (members : Members) (types : List Json) {others : Members}
    (hascending : Keyed.Ascending others) (key : String) :
    Keyed.get? key ((splitEdits members types).foldl MemberEdit.onMembers others) =
      if key ∈ "type" :: movedKeywords members types then none
      else if key = "anyOf" then some (.arr (types.map (typeBranch members)))
      else Keyed.get? key others := by
  have hanyOf : "anyOf" ∉ "type" :: movedKeywords members types :=
    not_mem_splitKeywords (by decide) (by decide)
  have hadd : key ≠ "anyOf" →
      onKey key [.add "anyOf" (.arr (types.map (typeBranch members)))] = [] := fun hne =>
    onKey_eq_nil (fun e he => List.mem_map.2 ⟨e, he, rfl⟩) (by simpa [MemberEdit.key] using hne)
  have hsplit : onKey key (splitEdits members types) =
      (("type" :: movedKeywords members types).filter (· == key)).map MemberEdit.remove ++
        onKey key [.add "anyOf" (.arr (types.map (typeBranch members)))] := by
    rw [splitEdits, onKey, List.filter_append, List.filter_map]
    rfl
  rw [MemberEdit.get?_foldl_onMembers hascending, ← onKey, hsplit, List.foldl_append, foldl_remove]
  by_cases hkey : key = "anyOf"
  · subst hkey
    rw [if_neg hanyOf, if_neg hanyOf, if_pos rfl]
    rfl
  · rw [hadd hkey, List.foldl_nil, if_neg hkey]

theorem get?_edited_of_splitsType (hascending : Keyed.Ascending members)
    (h : splitsType members = true) {types : List Json}
    (htypes : arrayAt? members "type" = some types) (key : String) :
    Keyed.get? key (edited members) =
      if key ∈ "type" :: movedKeywords members types then none
      else if key = "anyOf" then some (.arr (types.map (typeBranch members)))
      else (Keyed.get? key members).map (rewrittenMember edits .schema key) := by
  rw [edited, schemaEdits_of_splitsType h htypes,
    get?_foldl_splitEdits members types (ascending_rewrittenMembers edits hascending .schema),
    get?_rewrittenMembers]

/-- The keywords that go with the type of objects. -/
theorem mem_branchKeywords_object {type : Json} {key : String}
    (hkey : key = "required" ∨ key = "properties") :
    key ∈ branchKeywords members type ↔
      type = .str "object" ∧ (Keyed.get? key members).isSome = true := by
  have hobject : ∀ name, key ∈ typeKeywords name ↔ name = "object" := by
    intro name
    rw [typeKeywords.eq_def]
    split <;> rcases hkey with rfl | rfl <;> simp_all
  rw [mem_branchKeywords]
  simp only [hobject]
  constructor
  · rintro ⟨name, rfl, rfl, hthere⟩
    exact ⟨rfl, hthere⟩
  · rintro ⟨rfl, hthere⟩
    exact ⟨"object", rfl, rfl, hthere⟩

/-- They go away with a type of objects, and stay otherwise. -/
theorem get?_edited_objectKeyword (hascending : Keyed.Ascending members)
    (h : splitsType members = true) {types : List Json}
    (htypes : arrayAt? members "type" = some types) {key : String}
    (hkey : key = "required" ∨ key = "properties") :
    (Json.str "object" ∈ types → Keyed.get? key (edited members) = none) ∧
      (Json.str "object" ∉ types → Keyed.get? key (edited members) =
        (Keyed.get? key members).map (rewrittenMember edits .schema key)) := by
  have hne : key ≠ "type" ∧ key ≠ "anyOf" := by rcases hkey with rfl | rfl <;> decide
  have hmoved : key ∈ "type" :: movedKeywords members types ↔
      Json.str "object" ∈ types ∧ (Keyed.get? key members).isSome = true := by
    rw [List.mem_cons, or_iff_right hne.1, mem_movedKeywords]
    simp only [mem_branchKeywords_object hkey]
    constructor
    · rintro ⟨type, hmem, rfl, hthere⟩
      exact ⟨hmem, hthere⟩
    · rintro ⟨hmem, hthere⟩
      exact ⟨_, hmem, rfl, hthere⟩
  rw [get?_edited_of_splitsType hascending h htypes, if_neg hne.2]
  refine ⟨fun hobject => ?_, fun hobject => if_neg fun hmem => hobject (hmoved.1 hmem).1⟩
  cases hthere : Keyed.get? key members with
  | none => exact ite_self _
  | some value => exact if_pos (hmoved.2 ⟨hobject, by rw [hthere]; rfl⟩)

/-- They go into the branch of objects, and into no other one. -/
theorem get?_branch_objectKeyword {type : Json} {branch : Members}
    (hbranch : typeBranch members type = .obj branch) {key : String}
    (hkey : key = "required" ∨ key = "properties") :
    (type = .str "object" → Keyed.get? key branch = Keyed.get? key members) ∧
      (type ≠ .str "object" → Keyed.get? key branch = none) := by
  obtain ⟨other, hother, _, hget⟩ := typeBranch_eq members type
  obtain rfl := Json.obj.inj (hbranch.symm.trans hother)
  have hne : key ≠ "type" := by rcases hkey with rfl | rfl <;> decide
  rw [hget, if_neg hne]
  refine ⟨fun hobject => ?_, fun hobject => if_neg fun hmem =>
    hobject ((mem_branchKeywords_object hkey).1 hmem).1⟩
  cases hthere : Keyed.get? key members with
  | none => exact ite_self _
  | some value => exact if_pos ((mem_branchKeywords_object hkey).2 ⟨hobject, by rw [hthere]; rfl⟩)

theorem combinatorCount_split (hascending : Keyed.Ascending members)
    (h : splitsType members = true) :
    combinatorCount (edited members) = combinatorCount members + 1 := by
  obtain ⟨types, htypes, _⟩ := exists_types h
  have hkept : ∀ key ∈ ["oneOf", "allOf"],
      (arrayAt? (edited members) key).isSome = (arrayAt? members key).isSome := by
    intro key hkey
    have hother : ∀ key ∈ ["oneOf", "allOf"],
        key ≠ "type" ∧ key ≠ "anyOf" ∧ key ∉ movableKeywords := by decide
    obtain ⟨htype, hanyOf, hmoved⟩ := hother key hkey
    rw [arrayAt?, get?_edited_of_splitsType hascending h htypes,
      if_neg (not_mem_splitKeywords htype hmoved), if_neg hanyOf]
    exact isSome_bind_asArray?_map key _
  have hafter : (arrayAt? (edited members) "anyOf").isSome = true := by
    rw [arrayAt?, get?_edited_of_splitsType hascending h htypes,
      if_neg (not_mem_splitKeywords (by decide) (by decide)), if_pos rfl]
    rfl
  have hbefore : (arrayAt? members "anyOf").isSome = false := by
    rw [arrayAt?, not_contains_anyOf h]
    rfl
  rw [combinatorCount, combinatorCount, combinators]
  simp only [List.countP_cons, List.countP_nil, hafter, hbefore,
    hkept "oneOf" (by decide), hkept "allOf" (by decide)]
  simp only [Bool.false_eq_true, if_true, if_false]
  omega

/-- What is untidy stays or moves into the branches, and not both. -/
theorem isUntidy_split (hascending : Keyed.Ascending members) (h : splitsType members = true)
    {types : List Json} (htypes : arrayAt? members "type" = some types) {type : Json}
    (htype : type ∈ types) {branch : Members} (hbranch : typeBranch members type = .obj branch) :
    (isUntidy (Keyed.get? "properties" (edited members))
        (Keyed.get? "required" (edited members))).toNat +
      (isUntidy (Keyed.get? "properties" branch) (Keyed.get? "required" branch)).toNat ≤
      (isUntidy (Keyed.get? "properties" members) (Keyed.get? "required" members)).toNat := by
  obtain ⟨hgone, hkept⟩ := get?_edited_objectKeyword hascending h htypes (Or.inl rfl)
  obtain ⟨hgone', hkept'⟩ := get?_edited_objectKeyword hascending h htypes (Or.inr rfl)
  obtain ⟨hinside, houtside⟩ := get?_branch_objectKeyword hbranch (Or.inl rfl)
  obtain ⟨hinside', _⟩ := get?_branch_objectKeyword hbranch (Or.inr rfl)
  by_cases hobject : type = .str "object"
  · rw [hgone (hobject ▸ htype), hgone' (hobject ▸ htype), hinside hobject, hinside' hobject,
      isUntidy_none, Bool.toNat_false, Nat.zero_add]
  · rw [houtside hobject, isUntidy_none, Bool.toNat_false, Nat.add_zero]
    by_cases hlisted : Json.str "object" ∈ types
    · rw [hgone hlisted, isUntidy_none]
      exact Nat.zero_le _
    · rw [hkept hlisted, hkept' hlisted, isUntidy_map,
        map_rewrittenMember_dataKeyword (by decide)]

theorem schemaEffort_branch {type : Json} {branch : Members}
    (hbranch : typeBranch members type = .obj branch) :
    schemaEffort branch = typeEffort type +
      (isUntidy (Keyed.get? "properties" branch) (Keyed.get? "required" branch)).toNat := by
  obtain ⟨other, hother, _, hget⟩ := typeBranch_eq members type
  obtain rfl := Json.obj.inj (hbranch.symm.trans hother)
  have hstays : ∀ key, key ∉ movableKeywords → key ∉ branchKeywords members type := by
    intro key hkey hmem
    obtain ⟨name, _, hname, _⟩ := mem_branchKeywords.1 hmem
    exact hkey (mem_movableKeywords hname)
  have htype : Keyed.get? "type" branch = some type := by
    rw [hget, if_neg (hstays _ (by decide)), if_pos rfl]
  have hdefault : Keyed.get? "default" branch = none := by
    rw [hget, if_neg (hstays _ (by decide)), if_neg (by decide)]
  have hcount : combinatorCount branch = 0 := by
    refine List.countP_eq_zero.2 fun key hkey => ?_
    have hother : ∀ key ∈ combinators, key ≠ "type" ∧ key ∉ movableKeywords := by decide
    rw [arrayAt?, hget, if_neg (hstays key (hother key hkey).2), if_neg (hother key hkey).1]
    decide
  rw [schemaEffort, htype, hdefault, hcount]
  rfl

/-- A schema whose type is split gives away more effort than it leaves to any branch. -/
theorem schemaEffort_split (hascending : Keyed.Ascending members) (h : splitsType members = true)
    {types : List Json} (htypes : arrayAt? members "type" = some types) {type : Json}
    (htype : type ∈ types) {branch : Members} (hbranch : typeBranch members type = .obj branch) :
    schemaEffort (edited members) + schemaEffort branch < schemaEffort members := by
  have huntidy := isUntidy_split hascending h htypes htype hbranch
  have hgone : Keyed.get? "type" (edited members) = none := by
    rw [get?_edited_of_splitsType hascending h htypes, if_pos List.mem_cons_self]
  have hdefault : Keyed.get? "default" (edited members) = Keyed.get? "default" members := by
    rw [get?_edited_of_splitsType hascending h htypes,
      if_neg (not_mem_splitKeywords (by decide) (by decide)), if_neg (by decide),
      map_rewrittenMember_dataKeyword (by decide)]
  have htypeEffort := typeEffort_lt htype
  rw [schemaEffort_branch hbranch, schemaEffort, schemaEffort, hgone, hdefault,
    combinatorCount_split hascending h, get?_of_arrayAt? htypes, Option.map_some, Option.map_none,
    Option.getD_some, Option.getD_none]
  omega

/-! ### The members of a schema after a pass -/

theorem pendingOfMembers_branch {type : Json} {branch : Members}
    (hbranch : typeBranch members type = .obj branch) :
    pendingOfMembers .schema branch ≤ pendingOfMembers .schema members := by
  obtain ⟨other, hother, hascending, hget⟩ := typeBranch_eq members type
  obtain rfl := Json.obj.inj (hbranch.symm.trans hother)
  refine pendingOfMembers_le_iff.2 fun entry hentry => ?_
  have hfound := hascending.get?_of_mem hentry
  rw [hget] at hfound
  split at hfound
  · exact pendingOfMembers_le_iff.1 le_rfl _ (Keyed.mem_of_get? hfound)
  · split at hfound
    · next hkey =>
      rw [hkey, below_dataKeyword (by decide), pending_data]
      exact Nat.zero_le _
    · cases hfound

/-- What is pending in a value that an edit puts. -/
theorem pending_put {e : MemberEdit} (he : e ∈ schemaEdits members) {put : Json}
    (hput : e.value? = some put) :
    pending (Role.schema.below (.property e.key) put) put = 0 ∨
      splitsType members = true ∧ ∃ types, arrayAt? members "type" = some types ∧
        ∀ n, (∀ type ∈ types, ∀ branch, typeBranch members type = .obj branch →
          schemaEffort branch + pendingOfMembers .schema branch ≤ n) →
          pending (Role.schema.below (.property e.key) put) put ≤ n := by
  have hdata : ∀ key ∈ ["type", "required", "default"], ∀ value,
      pending (Role.schema.below (.property key) value) value = 0 := by
    intro key hkey value
    rw [below_dataKeyword hkey, pending_data]
  cases possible_of_mem he with
  | fold | dropType | splitType | move | dropRequired => cases hput
  | unwrapType single => exact Or.inl (hdata "type" (by decide) put)
  | addRequired | replaceRequired => exact Or.inl (hdata "required" (by decide) put)
  | replaceDefault => exact Or.inl (hdata "default" (by decide) put)
  | branch types htypes hsplit =>
    obtain rfl := Option.some.inj hput
    refine Or.inr ⟨hsplit, types, htypes, fun n hn => ?_⟩
    rw [MemberEdit.key, below_anyOf]
    refine (pending_arr_le _ _).trans (pendingOfItems_le_iff.2 fun item hitem => ?_)
    obtain ⟨type, htype, rfl⟩ := List.mem_map.1 hitem
    obtain ⟨branch, hbranch, _⟩ := typeBranch_eq members type
    have hle := pending_obj_le .schema branch
    rw [effort, if_pos rfl] at hle
    rw [hbranch]
    exact hle.trans (hn type htype branch hbranch)

/-! ### Every pass brings the pending passes down -/

theorem schemaEffort_pos (hascending : Keyed.Ascending members) (h : schemaEdits members ≠ []) :
    0 < schemaEffort members := by
  cases hsplit : splitsType members with
  | false => exact Nat.zero_lt_of_lt ((schemaEffort_edited hascending hsplit).2 h)
  | true =>
    obtain ⟨types, htypes, hlength, _⟩ := exists_types hsplit
    obtain ⟨type, htype⟩ := List.exists_mem_of_length_pos (Nat.zero_lt_of_lt hlength)
    obtain ⟨branch, hbranch, _⟩ := typeBranch_eq members type
    exact Nat.zero_lt_of_lt (schemaEffort_split hascending hsplit htypes htype hbranch)

/-- Where something is asked for, something is pending. -/
theorem requests_eq_nil {value : Json} (hformed : value.WellFormed)
    (h : pending role value = 0) : requests edits role value = [] := by
  induction value using Json.partsInduction generalizing role with
  | scalar value harr hobj => exact requests_scalar harr hobj _ _
  | arr items ih =>
    rw [pending] at h
    split at h
    · next hnone => exact List.isEmpty_iff.1 hnone
    · have hitems := pendingOfItems_le_iff.1 h.le
      exact requestsOfItems_eq_nil (fun item hitem => ih item hitem
        (Json.wellFormed_arr.1 hformed item hitem) (Nat.le_zero.1 (hitems item hitem))) 0
  | obj members ih =>
    obtain ⟨hascending, hmembers⟩ := Json.wellFormed_obj.1 hformed
    rw [pending] at h
    split at h
    · next hnone => exact List.isEmpty_iff.1 hnone
    · obtain ⟨heffort, hpending⟩ := Nat.add_eq_zero_iff.1 h
      have hinside := pendingOfMembers_le_iff.1 hpending.le
      have hown : edits role members = [] := by
        rw [edits]
        split
        · next hrole =>
          rw [effort, if_pos hrole] at heffort
          by_contra hne
          exact absurd heffort (Nat.pos_iff_ne_zero.1 (schemaEffort_pos hascending hne))
        · rfl
      rw [requests, hown, List.map_nil, List.nil_append]
      exact requestsOfMembers_eq_nil (fun entry hentry => ih entry hentry
        (hmembers entry hentry) (Nat.le_zero.1 (hinside entry hentry))) []

/-- Without edits of its own an object is changed by what is pending in its members. -/
theorem pendingOfMembers_pos (hmembers : ∀ entry ∈ members, entry.2.WellFormed)
    (hown : edits role members = []) (hasked : requests edits role (.obj members) ≠ []) :
    0 < pendingOfMembers role members := by
  by_contra hzero
  refine hasked ?_
  rw [requests, hown, List.map_nil, List.nil_append]
  refine requestsOfMembers_eq_nil (fun entry hentry => ?_) []
  exact requests_eq_nil (hmembers entry hentry)
    (Nat.le_zero.1 (pendingOfMembers_le_iff.1 (not_lt.1 hzero) entry hentry))

theorem splitsType_eq_false (h : schemaEdits members = []) : splitsType members = false := by
  cases hsplit : splitsType members with
  | false => rfl
  | true =>
    obtain ⟨types, htypes, _⟩ := exists_types hsplit
    rw [schemaEdits_of_splitsType hsplit htypes] at h
    cases h

/-- Members that are only rewritten have less pending than before. -/
theorem pendingOfMembers_rewrittenMembers
    (h : ∀ entry ∈ members, pending (role.below (.property entry.1) entry.2)
      (rewrittenMember edits role entry.1 entry.2) ≤
        pending (role.below (.property entry.1) entry.2) entry.2 - 1) :
    pendingOfMembers role (rewrittenMembers edits role members) ≤
      pendingOfMembers role members - 1 := by
  refine pendingOfMembers_le_iff.2 fun entry hentry => ?_
  rw [rewrittenMembers_eq_map] at hentry
  obtain ⟨old, hold, rfl⟩ := List.mem_map.1 hentry
  rw [rewrittenMember, below_rewritten, ← rewrittenMember]
  exact (h old hold).trans (Nat.sub_le_sub_right (pendingOfMembers_le_iff.1 le_rfl old hold) 1)

/-- A schema that is edited has less effort left in it and in its slowest member together. -/
theorem effort_edited (hascending : Keyed.Ascending members) (hedits : schemaEdits members ≠ [])
    (h : pendingOfMembers .schema (rewrittenMembers edits .schema members) ≤
      pendingOfMembers .schema members - 1) :
    schemaEffort (edited members) + pendingOfMembers .schema (edited members) <
      schemaEffort members + pendingOfMembers .schema members := by
  have hmember : ∀ entry ∈ rewrittenMembers edits .schema members,
      pending (Role.schema.below (.property entry.1) entry.2) entry.2 ≤
        pendingOfMembers .schema members := fun entry hentry =>
    (pendingOfMembers_le_iff.1 h entry hentry).trans (Nat.sub_le _ _)
  cases hsplit : splitsType members with
  | false =>
    have hless := (schemaEffort_edited hascending hsplit).2 hedits
    have hmembers : pendingOfMembers .schema (edited members) ≤ pendingOfMembers .schema members := by
      refine pendingOfMembers_le_iff.2 fun entry hentry => ?_
      rcases MemberEdit.mem_foldl_onMembers hentry with hold | ⟨e, he, hkey, hput⟩
      · exact hmember entry hold
      · rcases pending_put he hput with hzero | ⟨hsplits, _⟩
        · rw [← hkey, hzero]
          exact Nat.zero_le _
        · rw [hsplit] at hsplits
          cases hsplits
    omega
  | true =>
    obtain ⟨types, htypes, hlength, _⟩ := exists_types hsplit
    obtain ⟨first, hfirst⟩ := List.exists_mem_of_length_pos (Nat.zero_lt_of_lt hlength)
    obtain ⟨firstBranch, hfirstBranch, _⟩ := typeBranch_eq members first
    have hless := schemaEffort_split hascending hsplit htypes hfirst hfirstBranch
    -- the branches are members now: what moves into the slowest one has gone from the schema
    have hmembers : pendingOfMembers .schema (edited members) ≤
        schemaEffort members + pendingOfMembers .schema members - schemaEffort (edited members) - 1 := by
      refine pendingOfMembers_le_iff.2 fun entry hentry => ?_
      rcases MemberEdit.mem_foldl_onMembers hentry with hold | ⟨e, he, hkey, hput⟩
      · have hle := hmember entry hold
        omega
      · rcases pending_put he hput with hzero | ⟨_, others, hothers, hbranches⟩
        · rw [← hkey, hzero]
          exact Nat.zero_le _
        · obtain rfl := Option.some.inj (htypes.symm.trans hothers)
          rw [← hkey]
          refine hbranches _ fun type htype branch hbranch => ?_
          have hleft := schemaEffort_split hascending hsplit htypes htype hbranch
          have hinside := pendingOfMembers_branch hbranch
          omega
    omega

/-- Every pass that asks for something leaves fewer passes pending. -/
theorem pending_rewritten_le {value : Json} (hformed : value.WellFormed)
    (haddressable : role.Everywhere Addressable value) :
    pending role (rewritten edits role value) ≤ pending role value - 1 := by
  induction value using Json.partsInduction generalizing role with
  | scalar value harr hobj =>
    rw [rewritten_scalar edits harr hobj, pending_of_isEmpty (requests_scalar harr hobj _ _)]
  | arr items ih =>
    by_cases hasked : requests edits role (.arr items) = []
    · rw [rewritten_of_requests_eq_nil edits_rule hformed haddressable hasked,
        pending_of_isEmpty hasked]
    have hbefore : pending role (.arr items) = pendingOfItems role items := by
      rw [pending, if_neg (by simpa using hasked)]
    rw [rewritten, hbefore, rewrittenItems_eq_map]
    refine (pending_arr_le _ _).trans (pendingOfItems_le_iff.2 fun item hitem => ?_)
    obtain ⟨old, hold, rfl⟩ := List.mem_map.1 hitem
    rw [below_rewritten]
    exact (ih old hold (Json.wellFormed_arr.1 hformed old hold)
      ((Role.everywhere_arr.1 haddressable).2 old hold)).trans
        (Nat.sub_le_sub_right (pendingOfItems_le_iff.1 le_rfl old hold) 1)
  | obj members ih =>
    by_cases hasked : requests edits role (.obj members) = []
    · rw [rewritten_of_requests_eq_nil edits_rule hformed haddressable hasked,
        pending_of_isEmpty hasked]
    obtain ⟨hascending, hmembers⟩ := Json.wellFormed_obj.1 hformed
    have hbefore : pending role (.obj members) = effort role members + pendingOfMembers role members := by
      rw [pending, if_neg (by simpa using hasked)]
    have hinside := pendingOfMembers_rewrittenMembers fun entry hentry =>
      ih entry hentry (hmembers entry hentry) ((Role.everywhere_obj.1 haddressable).2 entry hentry)
    rw [rewritten, hbefore]
    refine (pending_obj_le _ _).trans ?_
    by_cases hrole : role = .schema
    · subst hrole
      change effort .schema (edited members) + pendingOfMembers .schema (edited members) ≤ _
      rw [effort, if_pos rfl, effort, if_pos rfl]
      by_cases hedits : schemaEdits members = []
      · have hpos := pendingOfMembers_pos hmembers ((if_pos rfl).trans hedits) hasked
        have heffort := (schemaEffort_edited hascending (splitsType_eq_false hedits)).1
        have hsame : edited members = rewrittenMembers edits .schema members := by
          rw [edited, hedits]
          rfl
        rw [← hsame] at hinside
        omega
      · have hless := effort_edited hascending hedits hinside
        omega
    · have hown : edits role members = [] := if_neg hrole
      have hpos := pendingOfMembers_pos hmembers hown hasked
      rw [hown, List.foldl_nil, effort, if_neg hrole, effort, if_neg hrole]
      omega

end ResourceCatalog.Standard
