import Mathlib
import ResourceCatalog.Proofs.Patch.StandardEdits

/-!
# The effort that is left in a schema

What the standard rules can still do to a schema itself is bounded by its effort: for the list of
types the depth to which lists are nested in it, for every combinator the fold and the `required`
list that may come of it, for `required` the tidying, and for a default the change of its kind. Every
edit spends some of it. The one exception is the splitting of a type, which moves what is left of the
effort into the branches.
-/

namespace ResourceCatalog.Standard

/-! ### Parts of the effort -/

mutual

/-- The effort in a type. Lists of types can hold lists of types. -/
def typeEffort : Json → Nat
  | .arr types => 3 + greatestTypeEffort types
  | _ => 0

def greatestTypeEffort : List Json → Nat
  | [] => 0
  | type :: rest => max (typeEffort type) (greatestTypeEffort rest)

end

theorem typeEffort_le_greatest {types : List Json} {type : Json} (h : type ∈ types) :
    typeEffort type ≤ greatestTypeEffort types := by
  induction types with
  | nil => exact absurd h List.not_mem_nil
  | cons first rest ih =>
    rw [greatestTypeEffort]
    rcases List.mem_cons.1 h with rfl | h
    · exact le_max_left _ _
    · exact (ih h).trans (le_max_right _ _)

theorem typeEffort_lt {types : List Json} {type : Json} (h : type ∈ types) :
    typeEffort type + 3 ≤ typeEffort (.arr types) := by
  rw [typeEffort, Nat.add_comm]
  exact Nat.add_le_add_left (typeEffort_le_greatest h) 3

def isEmptyList : Option Json → Bool
  | some (.arr []) => true
  | _ => false

/-- Whether a `required` lists names that the properties do not declare. -/
def listsUndeclared (properties? required? : Option Json) : Bool :=
  match properties?.bind Json.asObject?, required?.bind Json.asStrings? with
  | some properties, some required => required.any fun name => !Keyed.contains properties name
  | _, _ => false

/-- Whether there is something to tidy in a `required`. -/
def isUntidy (properties? required? : Option Json) : Bool :=
  isEmptyList required? || listsUndeclared properties? required?

def isText : Option Json → Bool
  | some (.str _) => true
  | _ => false

/-- The combinators that hold arrays. -/
def combinatorCount (members : Members) : Nat :=
  combinators.countP fun key => (arrayAt? members key).isSome

/-- The effort in a schema, without what is inside of its members. -/
def schemaEffort (members : Members) : Nat :=
  ((Keyed.get? "type" members).map typeEffort).getD 0 + 2 * combinatorCount members +
    (isUntidy (Keyed.get? "properties" members) (Keyed.get? "required" members)).toNat +
    (isText (Keyed.get? "default" members)).toNat

variable {members : Members}

/-- The members of a schema after a pass. -/
def edited (members : Members) : Members :=
  (schemaEdits members).foldl MemberEdit.onMembers (rewrittenMembers edits .schema members)

/-! ### Members that are not edited -/

/-- The edits of a member. -/
def onKey (key : String) (own : List MemberEdit) : List MemberEdit :=
  own.filter fun e => e.key == key

theorem onKey_eq_nil {key : String} {keys : List String} {own : List MemberEdit}
    (h : ∀ e ∈ own, e.key ∈ keys) (hkey : key ∉ keys) : onKey key own = [] :=
  List.filter_eq_nil_iff.2 fun e he hsame => hkey (beq_iff_eq.1 hsame ▸ h e he)

theorem onKey_self {key : String} {own : List MemberEdit} (h : ∀ e ∈ own, e.key ∈ [key]) :
    onKey key own = own :=
  List.filter_eq_self.2 fun e he => beq_iff_eq.2 (List.mem_singleton.1 (h e he))

theorem onKey_schemaEdits (key : String) (members : Members) :
    onKey key (schemaEdits members) =
      onKey key (foldEdits members) ++ onKey key (typeEdits members) ++
        onKey key (emptyRequiredEdits members) ++ onKey key (undeclaredEdits members) ++
        onKey key (defaultEdits members) := by
  rw [schemaEdits, onKey, List.filter_append, List.filter_append, List.filter_append,
    List.filter_append]
  rfl

theorem get?_edited (h : Keyed.Ascending members) (key : String) :
    Keyed.get? key (edited members) = (onKey key (schemaEdits members)).foldl MemberEdit.onMember
      ((Keyed.get? key members).map (rewrittenMember edits .schema key)) := by
  rw [edited, MemberEdit.get?_foldl_onMembers (ascending_rewrittenMembers edits h .schema),
    get?_rewrittenMembers]
  rfl

theorem rewrittenMember_dataKeyword {key : String} (h : key ∈ ["type", "required", "default"])
    (value : Json) : rewrittenMember edits .schema key value = value := by
  rw [rewrittenMember, below_dataKeyword h, rewritten_data edits_rule]

theorem map_rewrittenMember_dataKeyword {key : String} (h : key ∈ ["type", "required", "default"])
    (value? : Option Json) : value?.map (rewrittenMember edits .schema key) = value? := by
  cases value? with
  | none => rfl
  | some value => exact congrArg some (rewrittenMember_dataKeyword h value)

theorem isSome_bind_asArray?_map (key : String) (value? : Option Json) :
    ((value?.map (rewrittenMember edits .schema key)).bind Json.asArray?).isSome =
      (value?.bind Json.asArray?).isSome := by
  cases value? with
  | none => rfl
  | some value => cases value <;> rfl

/-- Rewriting the properties of a schema leaves their names. -/
theorem isUntidy_map (properties? required? : Option Json) :
    isUntidy (properties?.map (rewrittenMember edits .schema "properties")) required? =
      isUntidy properties? required? := by
  rw [isUntidy, isUntidy]
  congr 1
  cases properties? with
  | none => rfl
  | some value =>
    cases value with
    | obj properties =>
      have hrole : Role.schema.below (.property "properties") (.obj properties) = .nameMap := by
        simp [Role.below, Role.ofKeyword, Role.nameMapKeys, Json.isObject]
      have hsame : rewrittenMember edits .schema "properties" (.obj properties) =
          .obj (rewrittenMembers edits .nameMap properties) := by
        rw [rewrittenMember, hrole, rewritten]
        rfl
      have hcontains : ∀ name,
          Keyed.contains (rewrittenMembers edits .nameMap properties) name =
            Keyed.contains properties name := by
        intro name
        rw [Keyed.contains, get?_rewrittenMembers, Option.isSome_map, Keyed.contains]
      rw [listsUndeclared, listsUndeclared, Option.map_some, hsame]
      simp only [Option.bind_some, Json.asObject?]
      cases required?.bind Json.asStrings? with
      | none => rfl
      | some required => simp only [hcontains]
    | _ => rfl

/-! ### Edits other than a split -/

theorem isFolded_iff_exists : foldsRequired members = true ↔
    ∃ key ∈ combinators, isFolded members key = true := by
  rw [foldsRequired, List.any_eq_true]
  refine exists_congr fun key => and_congr_right fun _ => ?_
  rw [isFolded]
  cases arrayAt? members key <;> rfl

theorem foldEdits_eq_nil (h : foldsRequired members = false) : foldEdits members = [] := by
  have hnone : ∀ key ∈ combinators, isFolded members key = false := by
    intro key hkey
    rw [Bool.eq_false_iff]
    exact fun hfolded => Bool.eq_false_iff.1 h (isFolded_iff_exists.2 ⟨key, hkey, hfolded⟩)
  have hnames : ∀ keys : List String, (∀ key ∈ keys, isFolded members key = false) →
      ∀ state, keys.foldl (foldNames members) state = state := by
    intro keys
    induction keys with
    | nil => exact fun _ _ => rfl
    | cons key rest ih =>
      intro hkeys state
      obtain ⟨hkey, hrest⟩ := List.forall_mem_cons.1 hkeys
      rw [isFolded, Option.isSome_eq_false_iff, Option.isNone_iff_eq_none] at hkey
      rw [List.foldl_cons, foldNames, hkey]
      exact ih hrest state
  have hfilter : combinators.filter (isFolded members) = [] :=
    List.filter_eq_nil_iff.2 fun key hkey => by rw [hnone key hkey]; decide
  rw [foldEdits, requiredEdits, hnames combinators hnone, hfilter]
  rfl

theorem keys_requiredEdits (members : Members) : ∀ e ∈ requiredEdits members, e.key ∈ ["required"] := by
  intro e h
  rw [requiredEdits] at h
  split at h
  · rw [List.mem_singleton.1 h, putRequired]
    split <;> exact List.mem_cons_self
  · cases h

theorem keys_foldEdits (members : Members) :
    ∀ e ∈ foldEdits members, e.key ∈ "required" :: combinators := by
  intro e h
  rcases List.mem_append.1 h with h | h
  · obtain ⟨key, hkey, rfl⟩ := List.mem_map.1 h
    exact List.mem_cons_of_mem _ (List.mem_filter.1 hkey).1
  · rw [List.mem_singleton.1 (keys_requiredEdits members e h)]
    exact List.mem_cons_self

theorem keys_typeEdits (hsplit : splitsType members = false) :
    ∀ e ∈ typeEdits members, e.key ∈ ["type"] := by
  intro e h
  rw [typeEdits] at h
  split at h
  · cases h
  · rw [List.mem_singleton.1 h]
    exact List.mem_cons_self
  · rw [List.mem_singleton.1 h]
    exact List.mem_cons_self
  · rw [hsplit] at h
    cases h

theorem keys_emptyRequiredEdits (members : Members) :
    ∀ e ∈ emptyRequiredEdits members, e.key ∈ ["required"] := by
  intro e h
  rw [emptyRequiredEdits] at h
  split at h
  · cases h
  · split at h
    · rw [List.mem_singleton.1 h]
      exact List.mem_cons_self
    · cases h

theorem keys_undeclaredEdits (members : Members) :
    ∀ e ∈ undeclaredEdits members, e.key ∈ ["required"] := by
  intro e h
  rw [undeclaredEdits] at h
  split at h
  · cases h
  · split at h
    · dsimp only at h
      split at h
      · cases h
      · split at h
        · rw [List.mem_singleton.1 h]
          exact List.mem_cons_self
        · rw [List.mem_singleton.1 h]
          exact List.mem_cons_self
    · cases h

theorem keys_defaultEdits (members : Members) : ∀ e ∈ defaultEdits members, e.key ∈ ["default"] := by
  intro e h
  rw [defaultEdits] at h
  split at h
  · split at h
    · rw [List.mem_singleton.1 h]
      exact List.mem_cons_self
    · cases h
  · cases h

/-- A member is edited by the rules that have its key. -/
theorem onKey_schemaEdits_of_ne {key : String} (hsplit : splitsType members = false)
    (hkey : key ∉ ["type", "required", "default"]) :
    onKey key (schemaEdits members) = onKey key (foldEdits members) := by
  simp only [List.mem_cons, not_or, List.not_mem_nil, not_false_eq_true, and_true] at hkey
  obtain ⟨htype, hrequired, hdefault⟩ := hkey
  rw [onKey_schemaEdits, onKey_eq_nil (keys_typeEdits hsplit) (by simpa using htype),
    onKey_eq_nil (keys_emptyRequiredEdits members) (by simpa using hrequired),
    onKey_eq_nil (keys_undeclaredEdits members) (by simpa using hrequired),
    onKey_eq_nil (keys_defaultEdits members) (by simpa using hdefault)]
  simp only [List.append_nil]

/-! #### The type -/

theorem get?_type_edited (h : Keyed.Ascending members) (hsplit : splitsType members = false) :
    Keyed.get? "type" (edited members) =
      (typeEdits members).foldl MemberEdit.onMember (Keyed.get? "type" members) := by
  rw [get?_edited h, map_rewrittenMember_dataKeyword (by decide), onKey_schemaEdits,
    onKey_eq_nil (keys_foldEdits members) (by decide), onKey_self (keys_typeEdits hsplit),
    onKey_eq_nil (keys_emptyRequiredEdits members) (by decide),
    onKey_eq_nil (keys_undeclaredEdits members) (by decide),
    onKey_eq_nil (keys_defaultEdits members) (by decide)]
  simp only [List.append_nil, List.nil_append]

theorem typeEffort_edited (h : Keyed.Ascending members) (hsplit : splitsType members = false) :
    let before := ((Keyed.get? "type" members).map typeEffort).getD 0
    let after := ((Keyed.get? "type" (edited members)).map typeEffort).getD 0
    after ≤ before ∧ (typeEdits members ≠ [] → after < before) := by
  rw [get?_type_edited h hsplit, typeEdits]
  rcases htypes : arrayAt? members "type" with _ | _ | ⟨type, _ | ⟨other, more⟩⟩
  · exact ⟨le_rfl, fun hne => absurd rfl hne⟩
  · have hlt : 0 < typeEffort (.arr []) := by rw [typeEffort]; omega
    rw [get?_of_arrayAt? htypes]
    exact ⟨hlt.le, fun _ => hlt⟩
  · have hlt : typeEffort type < typeEffort (.arr [type]) := by
      have : typeEffort type + 3 ≤ typeEffort (.arr [type]) := typeEffort_lt List.mem_cons_self
      omega
    rw [get?_of_arrayAt? htypes]
    exact ⟨hlt.le, fun _ => hlt⟩
  · simp only [hsplit]
    exact ⟨le_rfl, fun hne => absurd rfl hne⟩

/-! #### The combinators -/

/-- A member that is removed is gone, however often it is removed. -/
theorem foldl_remove (key : String) (keys : List String) (member? : Option Json) :
    ((keys.filter (· == key)).map MemberEdit.remove).foldl MemberEdit.onMember member? =
      if key ∈ keys then none else member? := by
  induction keys generalizing member? with
  | nil => rfl
  | cons first rest ih =>
    rw [List.filter_cons]
    by_cases hkey : first = key
    · rw [if_pos (beq_iff_eq.2 hkey), List.map_cons, List.foldl_cons, ih, MemberEdit.onMember,
        ite_self, if_pos (hkey ▸ List.mem_cons_self)]
    · rw [if_neg (mt beq_iff_eq.1 hkey), ih]
      simp only [List.mem_cons, Ne.symm hkey, false_or]

theorem isSome_arrayAt?_edited (h : Keyed.Ascending members) (hsplit : splitsType members = false)
    {key : String} (hkey : key ∈ combinators) : (arrayAt? (edited members) key).isSome =
      ((arrayAt? members key).isSome && !isFolded members key) := by
  have hne : ∀ key ∈ combinators, key ∉ ["type", "required", "default"] ∧ key ∉ ["required"] := by
    decide
  obtain ⟨hother, hrequired⟩ := hne key hkey
  have hremoved : onKey key (foldEdits members) =
      ((combinators.filter (isFolded members)).filter (· == key)).map MemberEdit.remove := by
    have hput := onKey_eq_nil (keys_requiredEdits members) hrequired
    rw [onKey] at hput
    rw [foldEdits, onKey, List.filter_append, hput, List.append_nil, List.filter_map]
    rfl
  rw [arrayAt?, get?_edited h, onKey_schemaEdits_of_ne hsplit hother, hremoved, foldl_remove]
  simp only [List.mem_filter, hkey, true_and]
  cases hfolded : isFolded members key with
  | true =>
    rw [if_pos rfl, Bool.not_true, Bool.and_false]
    rfl
  | false =>
    rw [if_neg (by decide), Bool.not_false, Bool.and_true]
    exact isSome_bind_asArray?_map key (Keyed.get? key members)

theorem isSome_of_isFolded {key : String} (h : isFolded members key = true) :
    (arrayAt? members key).isSome = true := by
  rw [isFolded] at h
  cases harr : arrayAt? members key with
  | none => rw [harr] at h; cases h
  | some items => rfl

theorem combinatorCount_edited (h : Keyed.Ascending members)
    (hsplit : splitsType members = false) :
    combinatorCount (edited members) ≤ combinatorCount members ∧
      (foldsRequired members = true →
        combinatorCount (edited members) < combinatorCount members) := by
  have hcount : combinatorCount (edited members) =
      combinators.countP fun key => (arrayAt? members key).isSome && !isFolded members key :=
    List.countP_congr fun key hkey => by rw [isSome_arrayAt?_edited h hsplit hkey]
  rw [hcount, combinatorCount]
  refine ⟨List.countP_mono_left fun key _ hkept => (Bool.and_eq_true_iff.1 hkept).1, fun hfolds => ?_⟩
  obtain ⟨key, hkey, hfolded⟩ := isFolded_iff_exists.1 hfolds
  obtain ⟨before, behind, hall⟩ := List.append_of_mem hkey
  rw [hall, List.countP_append, List.countP_append, List.countP_cons, List.countP_cons, hfolded,
    isSome_of_isFolded hfolded]
  have hless : ∀ keys : List String,
      (keys.countP fun key => (arrayAt? members key).isSome && !isFolded members key) ≤
        keys.countP fun key => (arrayAt? members key).isSome := fun keys =>
    List.countP_mono_left fun key _ hkept => (Bool.and_eq_true_iff.1 hkept).1
  have hbefore := hless before
  have hbehind := hless behind
  simp only [Bool.not_true, Bool.and_false, Bool.false_eq_true, if_false, if_true]
  omega

/-! #### `required` -/

theorem get?_properties_edited (h : Keyed.Ascending members)
    (hsplit : splitsType members = false) : Keyed.get? "properties" (edited members) =
      (Keyed.get? "properties" members).map (rewrittenMember edits .schema "properties") := by
  rw [get?_edited h, onKey_schemaEdits_of_ne hsplit (by decide),
    onKey_eq_nil (keys_foldEdits members) (by decide)]
  rfl

theorem get?_required_edited (h : Keyed.Ascending members) (hsplit : splitsType members = false)
    (hfolds : foldsRequired members = false) : Keyed.get? "required" (edited members) =
      (emptyRequiredEdits members ++ undeclaredEdits members).foldl MemberEdit.onMember
        (Keyed.get? "required" members) := by
  rw [get?_edited h, map_rewrittenMember_dataKeyword (by decide), onKey_schemaEdits,
    foldEdits_eq_nil hfolds, onKey_self (keys_emptyRequiredEdits members),
    onKey_self (keys_undeclaredEdits members), onKey_eq_nil (keys_typeEdits hsplit) (by decide),
    onKey_eq_nil (keys_defaultEdits members) (by decide)]
  rw [onKey, List.filter_nil, List.nil_append, List.nil_append, List.append_nil]

theorem isUntidy_none (properties? : Option Json) : isUntidy properties? none = false := by
  rw [isUntidy, listsUndeclared]
  cases properties?.bind Json.asObject? <;> rfl

theorem asStrings?_strings (names : List String) : (Json.strings names).asStrings? = some names := by
  rw [Json.strings, Json.asStrings?, List.mapM_map]
  induction names with
  | nil => rfl
  | cons name rest ih =>
    rw [List.mapM_cons, ih]
    rfl

/-- A list of names that are all declared is tidy. -/
theorem isUntidy_filter {properties? : Option Json} {properties : Members}
    (hproperties : properties?.bind Json.asObject? = some properties) {names : List String}
    (hnames : names.filter (Keyed.contains properties) ≠ []) :
    isUntidy properties? (some (Json.strings (names.filter (Keyed.contains properties)))) = false := by
  rw [isUntidy, Bool.or_eq_false_iff, listsUndeclared, hproperties, Option.bind_some,
    asStrings?_strings]
  refine ⟨?_, List.any_eq_false.2 fun name hname => ?_⟩
  · cases hkept : names.filter (Keyed.contains properties) with
    | nil => exact absurd hkept hnames
    | cons name rest => rfl
  · rw [(List.mem_filter.1 hname).2]
    decide

/-- A `required` that is not empty is tidy once the undeclared names are gone. -/
theorem isUntidy_undeclaredEdits (hfolds : foldsRequired members = false)
    (hsplit : splitsType members = false)
    (hfull : isEmptyList (Keyed.get? "required" members) = false) :
    isUntidy (Keyed.get? "properties" members)
      ((undeclaredEdits members).foldl MemberEdit.onMember (Keyed.get? "required" members)) =
        false := by
  rw [undeclaredEdits, hfolds, hsplit, Bool.or_self, if_neg (by decide)]
  split
  · next properties required hproperties hrequired =>
    obtain ⟨old, hold, _⟩ := Option.bind_eq_some_iff.1 hrequired
    split
    · next hdeclared =>
      rw [List.isEmpty_iff, List.filter_eq_nil_iff] at hdeclared
      rw [List.foldl_nil, isUntidy, hfull, Bool.false_or, listsUndeclared, hproperties, hrequired]
      exact List.any_eq_false.2 hdeclared
    · dsimp only
      split
      · exact isUntidy_none _
      · next hdeclared =>
        rw [hold]
        exact isUntidy_filter hproperties (mt List.isEmpty_iff.2 hdeclared)
  · next hnone =>
    rw [List.foldl_nil, isUntidy, hfull, Bool.false_or, listsUndeclared.eq_def]
    split
    · next properties required hproperties hrequired =>
      exact absurd hrequired (hnone properties required hproperties)
    · rfl

/-- Once nothing is folded or split, `required` is tidy. -/
theorem isUntidy_edited (h : Keyed.Ascending members) (hsplit : splitsType members = false)
    (hfolds : foldsRequired members = false) :
    isUntidy (Keyed.get? "properties" (edited members)) (Keyed.get? "required" (edited members)) =
      false := by
  rw [get?_properties_edited h hsplit, isUntidy_map, get?_required_edited h hsplit hfolds]
  cases hempty : isEmptyList (Keyed.get? "required" members) with
  | false =>
    have hnone : emptyRequiredEdits members = [] := by
      rw [emptyRequiredEdits, hfolds, hsplit, Bool.or_self, if_neg (by decide)]
      split
      · next hrequired =>
        rw [hrequired] at hempty
        cases hempty
      · rfl
    rw [hnone, List.nil_append]
    exact isUntidy_undeclaredEdits hfolds hsplit hempty
  | true =>
    have hrequired : Keyed.get? "required" members = some (.arr []) := by
      rw [isEmptyList.eq_def] at hempty
      split at hempty
      · assumption
      · cases hempty
    rw [emptyRequiredEdits, undeclaredEdits, hfolds, hsplit, hrequired]
    cases (Keyed.get? "properties" members).bind Json.asObject? <;> exact isUntidy_none _

theorem isUntidy_of_edits (h : emptyRequiredEdits members ≠ [] ∨ undeclaredEdits members ≠ []) :
    isUntidy (Keyed.get? "properties" members) (Keyed.get? "required" members) = true := by
  rw [isUntidy, Bool.or_eq_true]
  refine h.imp (fun hempty => ?_) fun hundeclared => ?_
  · rw [emptyRequiredEdits] at hempty
    split at hempty
    · exact absurd rfl hempty
    · split at hempty
      · next hrequired =>
        rw [hrequired]
        rfl
      · exact absurd rfl hempty
  · rw [undeclaredEdits] at hundeclared
    split at hundeclared
    · exact absurd rfl hundeclared
    · split at hundeclared
      · next properties required hproperties hrequired =>
        rw [listsUndeclared, hproperties, hrequired]
        dsimp only at hundeclared ⊢
        split at hundeclared
        · exact absurd rfl hundeclared
        · next hsome =>
          rw [List.isEmpty_iff, List.filter_eq_nil_iff] at hsome
          rw [List.any_eq_true]
          simpa using hsome
      · exact absurd rfl hundeclared

/-! #### The default -/

theorem isText_edited (h : Keyed.Ascending members) (hsplit : splitsType members = false) :
    let before := (isText (Keyed.get? "default" members)).toNat
    let after := (isText (Keyed.get? "default" (edited members))).toNat
    after ≤ before ∧ (defaultEdits members ≠ [] → after < before) := by
  have hget : Keyed.get? "default" (edited members) =
      (defaultEdits members).foldl MemberEdit.onMember (Keyed.get? "default" members) := by
    rw [get?_edited h, map_rewrittenMember_dataKeyword (by decide), onKey_schemaEdits,
      onKey_eq_nil (keys_foldEdits members) (by decide),
      onKey_eq_nil (keys_typeEdits hsplit) (by decide),
      onKey_eq_nil (keys_emptyRequiredEdits members) (by decide),
      onKey_eq_nil (keys_undeclaredEdits members) (by decide),
      onKey_self (keys_defaultEdits members)]
    rfl
  rw [hget, defaultEdits]
  split
  · next text htype hdefault =>
    rw [hdefault]
    split
    · exact ⟨Nat.zero_le _, fun _ => Nat.one_pos⟩
    · exact ⟨le_rfl, fun hne => absurd rfl hne⟩
  · exact ⟨le_rfl, fun hne => absurd rfl hne⟩

/-! #### Together -/

/-- Unless a type is split, the edits of a schema spend some of its effort. -/
theorem schemaEffort_edited (h : Keyed.Ascending members) (hsplit : splitsType members = false) :
    schemaEffort (edited members) ≤ schemaEffort members ∧
      (schemaEdits members ≠ [] → schemaEffort (edited members) < schemaEffort members) := by
  obtain ⟨htype, htype'⟩ := typeEffort_edited h hsplit
  obtain ⟨hcount, hcount'⟩ := combinatorCount_edited h hsplit
  obtain ⟨htext, htext'⟩ := isText_edited h hsplit
  rw [schemaEffort, schemaEffort]
  cases hfolds : foldsRequired members with
  | true =>
    have hless := hcount' hfolds
    have huntidy := Bool.toNat_le
      (isUntidy (Keyed.get? "properties" (edited members)) (Keyed.get? "required" (edited members)))
    exact ⟨by omega, fun _ => by omega⟩
  | false =>
    rw [isUntidy_edited h hsplit hfolds, Bool.toNat_false]
    refine ⟨by omega, fun hedits => ?_⟩
    rw [schemaEdits, foldEdits_eq_nil hfolds, List.nil_append] at hedits
    by_cases htypes : typeEdits members = []
    · by_cases hdefault : defaultEdits members = []
      · have huntidy := isUntidy_of_edits (by
          by_contra hnone
          rw [not_or, not_not, not_not] at hnone
          rw [htypes, hnone.1, hnone.2, hdefault] at hedits
          exact hedits rfl)
        rw [huntidy, Bool.toNat_true]
        omega
      · have hless := htext' hdefault
        omega
    · have hless := htype' htypes
      omega

end ResourceCatalog.Standard
