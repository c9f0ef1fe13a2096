import Mathlib
import ResourceCatalog.Patch.Standard
import ResourceCatalog.Proofs.Patch.Rewriting

/-!
# The edits of the standard rules

Each standard rule edits the members of schemas and nothing else. What it edits is a function of the
members: the combinators that are folded and the `required` that comes of them, the list of types,
an empty `required`, the names that nothing declares, and the default of a boolean.
-/

namespace ResourceCatalog.Standard

/-! ### Folding combinators -/

/-- A combinator that the first rule removes. -/
def isFolded (members : Members) (key : String) : Bool :=
  ((arrayAt? members key).bind requiredOnly?).isSome

/-- The required names so far and whether any were folded in, after one combinator more. -/
def foldNames (members : Members) (state : List String × Bool) (key : String) :
    List String × Bool :=
  match (arrayAt? members key).bind requiredOnly? with
  | none => state
  | some branches =>
    if key = "allOf" ∨ branches.length = 1 then (addNames state.1 branches.flatten, true)
    else state

def requiredNames (members : Members) : List String :=
  ((Keyed.get? "required" members).bind Json.asStrings?).getD []

/-- The edit that puts the required names. -/
def putRequired (members : Members) (names : List String) : MemberEdit :=
  if (Keyed.contains members "required") then .replace "required" (Json.strings names)
  else .add "required" (Json.strings names)

/-- What folding makes of `required`. -/
def requiredEdits (members : Members) : List MemberEdit :=
  let state := combinators.foldl (foldNames members) (requiredNames members, false)
  if state.2 then [putRequired members state.1] else []

def foldEdits (members : Members) : List MemberEdit :=
  (combinators.filter (isFolded members)).map MemberEdit.remove ++ requiredEdits members

/-! ### The other rules -/

/-- The keywords that move into the branches of some types. -/
def movedKeywords (members : Members) (types : List Json) : List String :=
  types.foldl (fun names type => addNames names (branchKeywords members type)) []

def typeEdits (members : Members) : List MemberEdit :=
  match arrayAt? members "type" with
  | none => []
  | some [] => [.remove "type"]
  | some [single] => [.replace "type" single]
  | some types =>
    if splitsType members then
      .remove "type" :: (movedKeywords members types).map MemberEdit.remove ++
        [.add "anyOf" (.arr (types.map (typeBranch members)))]
    else []

def emptyRequiredEdits (members : Members) : List MemberEdit :=
  if foldsRequired members || splitsType members then []
  else
    match Keyed.get? "required" members with
    | some (.arr []) => [.remove "required"]
    | _ => []

def undeclaredEdits (members : Members) : List MemberEdit :=
  if foldsRequired members || splitsType members then []
  else
    match (Keyed.get? "properties" members).bind Json.asObject?,
        (Keyed.get? "required" members).bind Json.asStrings? with
    | some properties, some required =>
      let declared := required.filter (Keyed.contains properties)
      if (required.filter fun name => !Keyed.contains properties name).isEmpty then []
      else if declared.isEmpty then [.remove "required"]
      else [.replace "required" (Json.strings declared)]
    | _, _ => []

def defaultEdits (members : Members) : List MemberEdit :=
  match Keyed.get? "type" members, Keyed.get? "default" members with
  | some (.str "boolean"), some (.str text) =>
    match spelledBool? text with
    | some value => [.replace "default" (.bool value)]
    | none => []
  | _, _ => []

/-- The edits of a schema. -/
def schemaEdits (members : Members) : List MemberEdit :=
  foldEdits members ++ typeEdits members ++ emptyRequiredEdits members ++
    undeclaredEdits members ++ defaultEdits members

def edits : Editor := fun role members =>
  if role = .schema then schemaEdits members else []

/-! ### The rules ask for these edits -/

/-- A rule about the members of schemas asks for some edits. -/
def AsksFor (rule : Rule) (edits : Members → List MemberEdit) : Prop :=
  ∀ (c : Cursor) (members : Members), c.value = .obj members →
    (rule c).map Correction.patch = (edits members).map (MemberEdit.patch c.trail.tokens)

variable {c : Cursor} {members : Members}

theorem patch_removeProperty (c : Cursor) (members : Members) (key reason : String) :
    (c.removeProperty members key reason).patch =
      (MemberEdit.remove key).patch c.trail.tokens := by
  rw [MemberEdit.patch, ← Trail.pointer_eq_ofTokens]
  rfl

theorem patches_removeProperty (c : Cursor) (members : Members) (keys : List String)
    (reason : String) :
    (keys.map fun key => c.removeProperty members key reason).map Correction.patch =
      (keys.map MemberEdit.remove).map (MemberEdit.patch c.trail.tokens) := by
  rw [List.map_map, List.map_map]
  exact List.map_congr_left fun key _ => patch_removeProperty c members key reason

theorem patch_addProperty (c : Cursor) (members : Members) (key : String) (value : Json)
    (reason : String) : (c.addProperty members key value reason).patch =
      (MemberEdit.add key value).patch c.trail.tokens := by
  rw [MemberEdit.patch, ← Trail.pointer_eq_ofTokens]
  rfl

theorem patch_replaceProperty (c : Cursor) (members : Members) (key : String) (value : Json)
    (reason : String) : (c.replaceProperty members key value reason).patch =
      (MemberEdit.replace key value).patch c.trail.tokens := by
  rw [MemberEdit.patch, ← Trail.pointer_eq_ofTokens]
  rfl

theorem foldl_foldCombinator (c : Cursor) (members : Members) (keys : List String)
    (state : Folding) :
    let after := keys.foldl (foldCombinator c members) state
    (after.names, after.folded) = keys.foldl (foldNames members) (state.names, state.folded) ∧
      after.made.map Correction.patch = state.made.map Correction.patch ++
        ((keys.filter (isFolded members)).map MemberEdit.remove).map
          (MemberEdit.patch c.trail.tokens) := by
  induction keys generalizing state with
  | nil => exact ⟨rfl, (List.append_nil _).symm⟩
  | cons key rest ih =>
    obtain ⟨hnames, hmade⟩ := ih (foldCombinator c members state key)
    rw [List.foldl_cons, List.foldl_cons]
    refine ⟨hnames.trans ?_, hmade.trans ?_⟩
    · rw [foldCombinator, foldNames]
      cases (arrayAt? members key).bind requiredOnly? with
      | none => rfl
      | some branches =>
        dsimp only
        split <;> rfl
    · rw [foldCombinator, List.filter_cons, isFolded]
      cases (arrayAt? members key).bind requiredOnly? with
      | none => rfl
      | some branches =>
        dsimp only
        split <;>
          simp only [Option.isSome_some, if_true, List.map_append, List.map_cons, List.map_nil,
            List.append_assoc, List.singleton_append, patch_removeProperty]

theorem asksFor_fold : AsksFor collapseRequiredCombinators foldEdits := by
  intro c members hc
  rw [collapseRequiredCombinators, Rule.ofMembers, hc, foldEdits, requiredEdits]
  dsimp only
  obtain ⟨hnames, hmade⟩ := foldl_foldCombinator c members combinators
    ⟨requiredNames members, false, []⟩
  rw [← hnames, List.map_append, ← List.nil_append (List.map _ (List.map _ _))]
  rw [List.map_nil] at hmade
  rw [← hmade]
  rw [requiredNames]
  split
  · rw [List.map_append, List.map_singleton, List.map_singleton, putRequired]
    congr 2
    split
    · exact patch_replaceProperty _ _ _ _ _
    · exact patch_addProperty _ _ _ _ _
  · exact (List.append_nil _).symm

theorem asksFor_type : AsksFor normalizeTypeArrays typeEdits := by
  intro c members hc
  rw [normalizeTypeArrays, Rule.ofMembers, hc, typeEdits]
  dsimp only
  rcases arrayAt? members "type" with _ | _ | ⟨type, _ | ⟨other, more⟩⟩
  · rfl
  · simp only [List.map_cons, List.map_nil, patch_removeProperty]
  · simp only [List.map_cons, List.map_nil, patch_replaceProperty]
  · dsimp only
    split
    · simp only [List.map_append, List.map_cons, List.map_nil, patches_removeProperty,
        patch_removeProperty, patch_addProperty, movedKeywords]
    · rfl

theorem asksFor_emptyRequired : AsksFor removeEmptyRequired emptyRequiredEdits := by
  intro c members hc
  rw [removeEmptyRequired, Rule.ofMembers, hc, emptyRequiredEdits]
  dsimp only
  split
  · rfl
  · cases Keyed.get? "required" members with
    | none => rfl
    | some required =>
      cases required with
      | arr names =>
        cases names with
        | nil => simp only [List.map_cons, List.map_nil, patch_removeProperty]
        | cons name rest => rfl
      | _ => rfl

theorem asksFor_undeclared : AsksFor dropUndeclaredRequired undeclaredEdits := by
  intro c members hc
  rw [dropUndeclaredRequired, Rule.ofMembers, hc, undeclaredEdits]
  dsimp only
  split
  · rfl
  · cases (Keyed.get? "properties" members).bind Json.asObject? with
    | none => rfl
    | some properties =>
      cases (Keyed.get? "required" members).bind Json.asStrings? with
      | none => rfl
      | some required =>
        dsimp only
        split
        · rfl
        · split
          · simp only [List.map_cons, List.map_nil, patch_removeProperty]
          · simp only [List.map_cons, List.map_nil, patch_replaceProperty]

theorem asksFor_default : AsksFor booleanStringDefaults defaultEdits := by
  intro c members hc
  by_cases hspelled : ∃ text, Keyed.get? "type" members = some (.str "boolean") ∧
      Keyed.get? "default" members = some (.str text)
  · obtain ⟨text, htype, hdefault⟩ := hspelled
    rw [booleanStringDefaults, Rule.ofMembers, hc, defaultEdits]
    simp only [htype, hdefault]
    cases spelledBool? text with
    | none => rfl
    | some value => simp only [List.map_cons, List.map_nil, patch_replaceProperty]
  · have hrule : booleanStringDefaults c = [] := by
      rw [booleanStringDefaults, Rule.ofMembers, hc]
      dsimp only
      split
      · next text htype hdefault => exact absurd ⟨text, htype, hdefault⟩ hspelled
      · rfl
    have hedits : defaultEdits members = [] := by
      rw [defaultEdits]
      split
      · next text htype hdefault => exact absurd ⟨text, htype, hdefault⟩ hspelled
      · rfl
    rw [hrule, hedits]
    rfl

/-! ### Together -/

theorem patches_rule (c : Cursor) (members : Members) (hc : c.value = .obj members) :
    (rule c).map Correction.patch = (edits c.role members).map (MemberEdit.patch c.trail.tokens) := by
  have hobject : c.value.isObject = true := by rw [hc]; rfl
  have hschema : ∀ rule : Rule, rule.onSchemas c = if c.role = .schema then rule c else [] := by
    intro rule
    rw [Rule.onSchemas, Rule.onObjects, Rule.onlyAt, if_pos hobject, Rule.onlyAt]
    simp only [beq_iff_eq]
  rw [rule, Rule.all, rules, edits]
  simp only [List.map_cons, List.map_nil, List.flatMap_cons, List.flatMap_nil, hschema]
  split
  · simp only [schemaEdits, List.map_append, asksFor_fold c members hc, asksFor_type c members hc,
      asksFor_emptyRequired c members hc, asksFor_undeclared c members hc,
      asksFor_default c members hc, List.append_assoc, List.append_nil]
  · rfl

theorem rule_elsewhere (c : Cursor) (hc : c.value.isObject = false) : rule c = [] := by
  have hschema : ∀ rule : Rule, rule.onSchemas c = [] := by
    intro rule
    rw [Rule.onSchemas, Rule.onObjects, Rule.onlyAt, hc]
    exact if_neg (by decide)
  rw [rule, Rule.all, rules]
  simp only [List.map_cons, List.map_nil, List.flatMap_cons, List.flatMap_nil, hschema,
    List.append_nil]

/-! ### What an edit can be -/

theorem mem_addNames {names new : List String} {name : String} :
    name ∈ addNames names new ↔ name ∈ names ∨ name ∈ new := by
  induction new generalizing names with
  | nil => simp [addNames]
  | cons first rest ih =>
    rw [addNames, List.foldl_cons, ← addNames, ih, List.mem_cons]
    split
    · next hcontains =>
      rw [List.contains_iff_mem] at hcontains
      constructor
      · exact Or.imp_right Or.inr
      · rintro (h | rfl | h)
        · exact Or.inl h
        · exact Or.inl hcontains
        · exact Or.inr h
    · rw [List.mem_append, List.mem_singleton, or_assoc]

theorem mem_movedKeywords {types : List Json} {key : String} :
    key ∈ movedKeywords members types ↔ ∃ type ∈ types, key ∈ branchKeywords members type := by
  have hfold : ∀ names : List String,
      key ∈ types.foldl (fun names type => addNames names (branchKeywords members type)) names ↔
        key ∈ names ∨ ∃ type ∈ types, key ∈ branchKeywords members type := by
    induction types with
    | nil => simp
    | cons type rest ih =>
      intro names
      rw [List.foldl_cons, ih, mem_addNames]
      simp only [List.mem_cons, exists_eq_or_imp, or_assoc]
  rw [movedKeywords, hfold]
  simp

theorem mem_branchKeywords {type : Json} {key : String} :
    key ∈ branchKeywords members type ↔
      ∃ name, type = .str name ∧ key ∈ typeKeywords name ∧ (Keyed.get? key members).isSome := by
  cases type with
  | str name =>
    rw [branchKeywords, List.mem_filter]
    simp [Keyed.contains]
  | _ => simp [branchKeywords]

/-- Members are copied to others one after the other. -/
theorem foldl_copy {copy : Members → String → Members}
    (hcopy : ∀ {key value}, Keyed.get? key members = some value →
      ∀ branch, copy branch key = Keyed.insert key value branch)
    {keys : List String} (hthere : ∀ key ∈ keys, (Keyed.get? key members).isSome)
    {branch : Members} (hbranch : Keyed.Ascending branch) :
    Keyed.Ascending (keys.foldl copy branch) ∧ ∀ key, Keyed.get? key (keys.foldl copy branch) =
      if key ∈ keys then Keyed.get? key members else Keyed.get? key branch := by
  induction keys generalizing branch with
  | nil => exact ⟨hbranch, fun _ => rfl⟩
  | cons first rest ih =>
    obtain ⟨hfirst, hrest⟩ := List.forall_mem_cons.1 hthere
    obtain ⟨value, hvalue⟩ := Option.isSome_iff_exists.1 hfirst
    obtain ⟨hascending, hget⟩ := ih hrest (Keyed.ascending_insert hbranch first value)
    rw [List.foldl_cons, hcopy hvalue]
    refine ⟨hascending, fun key => (hget key).trans ?_⟩
    by_cases hrest : key ∈ rest
    · rw [if_pos hrest, if_pos (List.mem_cons_of_mem _ hrest)]
    · by_cases hkey : key = first
      · rw [if_neg hrest, hkey, if_pos List.mem_cons_self, Keyed.get?_insert_self, hvalue]
      · rw [if_neg hrest, if_neg fun hmem => (List.mem_cons.1 hmem).elim hkey hrest,
          Keyed.get?_insert_of_ne hkey]

theorem typeBranch_eq (members : Members) (type : Json) :
    ∃ branch, typeBranch members type = .obj branch ∧ Keyed.Ascending branch ∧
      ∀ key, Keyed.get? key branch =
        if key ∈ branchKeywords members type then Keyed.get? key members
        else if key = "type" then some type else none := by
  have hthere : ∀ key ∈ branchKeywords members type, (Keyed.get? key members).isSome := by
    intro key hkey
    obtain ⟨_, _, _, hthere⟩ := mem_branchKeywords.1 hkey
    exact hthere
  refine ⟨_, rfl, And.imp_right ?_ (foldl_copy (fun hvalue _ => by rw [hvalue]) hthere
    (List.pairwise_singleton _ _))⟩
  intro hget key
  rw [hget]
  split
  · rfl
  · rw [Keyed.get?, Keyed.get?]
    simp only [eq_comm]

/-- What an edit of a schema can be. -/
inductive Possible (members : Members) : MemberEdit → Prop where
  | fold (key : String) (hkey : key ∈ combinators) (h : isFolded members key = true) :
    Possible members (.remove key)
  | dropType (h : arrayAt? members "type" = some []) : Possible members (.remove "type")
  | unwrapType (single : Json) (h : arrayAt? members "type" = some [single]) :
    Possible members (.replace "type" single)
  | splitType (hsplit : splitsType members = true) : Possible members (.remove "type")
  | move (types : List Json) (key : String) (htypes : arrayAt? members "type" = some types)
    (hsplit : splitsType members = true) (hkey : key ∈ movedKeywords members types) :
    Possible members (.remove key)
  | branch (types : List Json) (htypes : arrayAt? members "type" = some types)
    (hsplit : splitsType members = true) :
    Possible members (.add "anyOf" (.arr (types.map (typeBranch members))))
  | dropRequired : Possible members (.remove "required")
  | addRequired (names : List String) : Possible members (.add "required" (Json.strings names))
  | replaceRequired (names : List String) :
    Possible members (.replace "required" (Json.strings names))
  | replaceDefault (value : Bool) : Possible members (.replace "default" (.bool value))

theorem possible_of_mem_foldEdits {e : MemberEdit} (h : e ∈ foldEdits members) :
    Possible members e := by
  rcases List.mem_append.1 h with h | h
  · obtain ⟨key, hkey, rfl⟩ := List.mem_map.1 h
    obtain ⟨hkey, hfolded⟩ := List.mem_filter.1 hkey
    exact .fold key hkey hfolded
  · rw [requiredEdits] at h
    split at h
    · rw [List.mem_singleton.1 h, putRequired]
      split
      · exact .replaceRequired _
      · exact .addRequired _
    · cases h

theorem possible_of_mem_typeEdits {e : MemberEdit} (h : e ∈ typeEdits members) :
    Possible members e := by
  rw [typeEdits] at h
  split at h
  · cases h
  · next htypes =>
    rw [List.mem_singleton.1 h]
    exact .dropType htypes
  · next single htypes =>
    rw [List.mem_singleton.1 h]
    exact .unwrapType single htypes
  · next types _ _ htypes =>
    split at h
    · next hsplit =>
      rcases List.mem_append.1 h with h | h
      · rcases List.mem_cons.1 h with rfl | h
        · exact .splitType hsplit
        · obtain ⟨key, hkey, rfl⟩ := List.mem_map.1 h
          exact .move types key htypes hsplit hkey
      · rw [List.mem_singleton.1 h]
        exact .branch types htypes hsplit
    · cases h

theorem possible_of_mem {e : MemberEdit} (h : e ∈ schemaEdits members) : Possible members e := by
  rw [schemaEdits, List.mem_append, List.mem_append, List.mem_append, List.mem_append] at h
  rcases h with (((h | h) | h) | h) | h
  · exact possible_of_mem_foldEdits h
  · exact possible_of_mem_typeEdits h
  · rw [emptyRequiredEdits] at h
    split at h
    · cases h
    · split at h
      · rw [List.mem_singleton.1 h]
        exact .dropRequired
      · cases h
  · rw [undeclaredEdits] at h
    split at h
    · cases h
    · split at h
      · dsimp only at h
        split at h
        · cases h
        · split at h
          · rw [List.mem_singleton.1 h]
            exact .dropRequired
          · rw [List.mem_singleton.1 h]
            exact .replaceRequired _
      · cases h
  · rw [defaultEdits] at h
    split at h
    · split at h
      · rw [List.mem_singleton.1 h]
        exact .replaceDefault _
      · cases h
    · cases h

/-! ### The rules edit members -/

/-- The keywords that some type has for itself. -/
def movableKeywords : List String :=
  typeKeywords "array" ++ typeKeywords "object" ++ typeKeywords "string" ++ typeKeywords "number"

theorem mem_movableKeywords {name key : String} (h : key ∈ typeKeywords name) :
    key ∈ movableKeywords := by
  rw [movableKeywords, List.mem_append, List.mem_append, List.mem_append]
  rw [typeKeywords.eq_def] at h
  split at h
  · exact Or.inl (Or.inl (Or.inl h))
  · exact Or.inl (Or.inl (Or.inr h))
  · exact Or.inl (Or.inr h)
  · exact Or.inr h
  · exact Or.inr h
  · cases h

theorem movable_of_mem_movedKeywords {types : List Json} {key : String}
    (h : key ∈ movedKeywords members types) : key ∈ movableKeywords := by
  obtain ⟨type, _, hkey⟩ := mem_movedKeywords.1 h
  obtain ⟨name, _, hname, _⟩ := mem_branchKeywords.1 hkey
  exact mem_movableKeywords hname

theorem namesMember_of_possible {e : MemberEdit} (h : Possible members e) :
    Pointer.NamesMember e.key := by
  have hcombinators : ∀ key ∈ combinators, Pointer.NamesMember key := by decide
  have hmovable : ∀ key ∈ movableKeywords, Pointer.NamesMember key := by decide
  cases h with
  | fold key hkey => exact hcombinators key hkey
  | move types key htypes hsplit hkey => exact hmovable key (movable_of_mem_movedKeywords hkey)
  | dropType | unwrapType | splitType => exact (by decide : Pointer.NamesMember "type")
  | branch => exact (by decide : Pointer.NamesMember "anyOf")
  | dropRequired | addRequired | replaceRequired =>
    exact (by decide : Pointer.NamesMember "required")
  | replaceDefault => exact (by decide : Pointer.NamesMember "default")

/-- The keywords that hold data whatever they hold. -/
theorem below_dataKeyword {key : String} (h : key ∈ ["type", "required", "default"])
    (value : Json) : Role.schema.below (.property key) value = .data := by
  rw [List.mem_cons, List.mem_cons, List.mem_singleton] at h
  rcases h with rfl | rfl | rfl <;>
    simp [Role.below, Role.ofKeyword, Role.nameMapKeys, Role.schemaListKeys, Role.schemaKeys]

theorem below_anyOf (branches : List Json) :
    Role.schema.below (.property "anyOf") (.arr branches) = .schemaList := by
  simp [Role.below, Role.ofKeyword, Role.nameMapKeys, Role.schemaListKeys, Json.isArray]

theorem wellFormed_strings (names : List String) : (Json.strings names).WellFormed := by
  refine Json.wellFormed_arr.2 fun item hitem => ?_
  obtain ⟨name, _, rfl⟩ := List.mem_map.1 hitem
  trivial

theorem wellFormed_of_get? {key : String} {value : Json} (h : (Json.obj members).WellFormed)
    (hget : Keyed.get? key members = some value) : value.WellFormed :=
  (Json.wellFormed_obj.1 h).2 _ (Keyed.mem_of_get? hget)

theorem get?_of_arrayAt? {key : String} {items : List Json}
    (h : arrayAt? members key = some items) : Keyed.get? key members = some (.arr items) := by
  obtain ⟨value, hget, harr⟩ := Option.bind_eq_some_iff.1 h
  cases value with
  | arr other => rw [hget, ← Option.some.inj harr]
  | _ => cases harr

theorem wellFormed_typeBranch (h : (Json.obj members).WellFormed) {type : Json}
    (htype : type.WellFormed) : (typeBranch members type).WellFormed := by
  obtain ⟨branch, hbranch, hascending, hget⟩ := typeBranch_eq members type
  rw [hbranch, Json.wellFormed_obj]
  refine ⟨hascending, fun entry hentry => ?_⟩
  have hfound := hascending.get?_of_mem hentry
  rw [hget] at hfound
  split at hfound
  · exact wellFormed_of_get? h hfound
  · split at hfound
    · exact Option.some.inj hfound ▸ htype
    · cases hfound

theorem not_contains_anyOf (h : splitsType members = true) : Keyed.get? "anyOf" members = none := by
  rw [splitsType] at h
  split at h
  · rw [Bool.and_eq_true, Bool.and_eq_true, Bool.not_eq_true', Keyed.contains,
      Option.isSome_eq_false_iff, Option.isNone_iff_eq_none] at h
    exact h.1.2
  · cases h

/-- The standard rules edit members. -/
theorem edits_rule : rule.Edits edits where
  patches := patches_rule
  elsewhere := rule_elsewhere
  names := by
    intro role members e he
    rw [edits] at he
    split at he
    · exact namesMember_of_possible (possible_of_mem he)
    · cases he
  puts := by
    intro role members hformed e he put hput
    rw [edits] at he
    split at he
    · next hrole =>
      subst hrole
      cases possible_of_mem he with
      | fold | dropType | splitType | move | dropRequired => cases hput
      | unwrapType single h =>
        obtain rfl := Option.some.inj hput
        have htype := wellFormed_of_get? hformed (get?_of_arrayAt? h)
        exact ⟨Json.wellFormed_arr.1 htype _ List.mem_cons_self,
          fun old _ => @below_dataKeyword "type" (by decide) old⟩
      | branch types htypes hsplit =>
        obtain rfl := Option.some.inj hput
        have htype := wellFormed_of_get? hformed (get?_of_arrayAt? htypes)
        refine ⟨Json.wellFormed_arr.2 fun item hitem => ?_, fun old hold => ?_⟩
        · obtain ⟨type, hmem, rfl⟩ := List.mem_map.1 hitem
          exact wellFormed_typeBranch hformed (Json.wellFormed_arr.1 htype type hmem)
        · have hnone := not_contains_anyOf hsplit
          rw [show Keyed.get? "anyOf" members = some old from hold] at hnone
          cases hnone
      | addRequired names | replaceRequired names =>
        obtain rfl := Option.some.inj hput
        exact ⟨wellFormed_strings names,
          fun old _ => @below_dataKeyword "required" (by decide) old⟩
      | replaceDefault value =>
        obtain rfl := Option.some.inj hput
        exact ⟨trivial, fun old _ => @below_dataKeyword "default" (by decide) old⟩
    · cases he
  data := fun members => if_neg (by decide)

end ResourceCatalog.Standard
