import Mathlib
import ResourceCatalog.Proofs.Patch.Exchange
import ResourceCatalog.Proofs.Patch.Meaning
import ResourceCatalog.Proofs.Patch.Walk

/-!
# The rewriting rules keep the meaning of a schema

Two of the standard rules write a schema in another way. Splitting a list of types moves every
keyword that goes with one of the types into the branches of just those types, where it constrains
the same values as before. Folding writes the names that combinators require into `required`; what
cannot be written so is dropped, and then the schema accepts more than before, but never less.
-/

namespace ResourceCatalog

variable {subject : String} {document : Json} {members after : Members} {reading : Reading}
  {value : Json}

/-! ### An object after the patches of a rule -/

/-- Edits at one place are done to the object there. -/
theorem at?_onValueAll {own : List MemberEdit} {place : List String}
    (hat : document.at? place = some (.obj members)) :
    (PlacedEdit.onValueAll (own.map (PlacedEdit.mk place)) document).at? place =
      some (.obj (own.foldl MemberEdit.onMembers members)) := by
  induction own generalizing document members with
  | nil => exact hat
  | cons e rest ih => exact ih (Json.at?_mapAt hat)

namespace Standard

open Reading

variable {names : List String}

/-! ### The branches of a type -/

theorem type_not_mem_typeKeywords (name : String) : "type" ∉ typeKeywords name := by
  intro hmem
  exact absurd (mem_movableKeywords hmem) (by decide)

/-- The branch of a type has the keywords of this type as they were. -/
theorem exists_typeBranch (members : Members) (name : String) :
    ∃ branch, typeBranch members (.str name) = .obj branch ∧ Keyed.Ascending branch ∧
      ∀ key, Keyed.get? key branch =
        if key ∈ typeKeywords name then Keyed.get? key members
        else if key = "type" then some (.str name) else none := by
  obtain ⟨branch, hbranch, hascending, hget⟩ := typeBranch_eq members (.str name)
  refine ⟨branch, hbranch, hascending, fun key => ?_⟩
  have hmoves : key ∈ branchKeywords members (.str name) ↔
      key ∈ typeKeywords name ∧ (Keyed.get? key members).isSome := by
    simp [mem_branchKeywords]
  rw [hget]
  by_cases hkey : key ∈ typeKeywords name
  · rw [if_pos hkey]
    cases hthere : Keyed.get? key members with
    | some setting => exact if_pos (hmoves.2 ⟨hkey, by simp [hthere]⟩)
    | none =>
      have hstays : key ∉ branchKeywords members (.str name) := by simp [hmoves, hthere]
      have hne : key ≠ "type" := fun hsame => type_not_mem_typeKeywords name (hsame ▸ hkey)
      rw [if_neg hstays, if_neg hne]
  · rw [if_neg hkey, if_neg fun hmem => hkey (hmoves.1 hmem).1]

/-- A branch accepts the values of its type that the moved keywords allow. -/
theorem accepts_typeBranch (h : Keyed.Ascending members) (name : String) :
    reading.Accepts value (typeBranch members (.str name)) ↔
      reading.HasType name value ∧ reading.GroupsAllow members value ∧
        (reading.HasType "object" value → ∀ setting,
          Keyed.get? "required" members = some setting →
            reading.Allows value "required" setting) := by
  obtain ⟨branch, hbranch, hascending, hget⟩ := exists_typeBranch members name
  have htype : Keyed.get? "type" branch = some (.str name) := by
    rw [hget, if_neg (type_not_mem_typeKeywords name), if_pos rfl]
  have hgroups : reading.HasType name value →
      (reading.GroupsAllow branch value ↔ reading.GroupsAllow members value) := by
    intro hname
    apply groupsAllow_congr
    intro type hgroup hvalue
    apply ownMembers_congr hascending h
    intro key hkey _
    rw [hget, typeKeywords_eq_of_hasType hgroup hvalue hname, if_pos hkey]
  rw [hbranch, accepts_obj hascending]
  constructor
  · rintro ⟨hallowed, hkeys⟩
    have hname := allows_typeName.1 (hkeys "type" _ htype)
    refine ⟨hname, (hgroups hname).1 hallowed, fun hobject setting hsetting => ?_⟩
    have hrequired : "required" ∈ typeKeywords name := by
      rw [typeKeywords_eq_of_hasType (by decide) hobject hname]
      decide
    apply hkeys "required" setting
    rw [hget, if_pos hrequired, hsetting]
  · rintro ⟨hname, hallowed, hrequired⟩
    refine ⟨(hgroups hname).2 hallowed, fun key setting hsetting => ?_⟩
    rw [hget] at hsetting
    split at hsetting
    · next hkey =>
      by_cases hne : key = "required"
      · subst hne
        exact allows_required_of_object fun hobject => hrequired hobject setting hsetting
      · exact allows_own hkey hne setting
    · split at hsetting
      · next hkey =>
        rw [hkey, ← Option.some.inj hsetting]
        exact allows_typeName.2 hname
      · cases hsetting

/-! ### Splitting a type -/

/-- What a split makes of a schema: the type and what moves are gone, and there is a branch for each
type. -/
structure Split (names : List String) (members after : Members) : Prop where
  formed : Keyed.Ascending members
  formedAfter : Keyed.Ascending after
  types : Keyed.get? "type" members = some (Json.strings names)
  single : Keyed.get? "anyOf" members = none
  member : ∀ key, Keyed.get? key after =
    if key ∈ "type" :: movedKeywords members (names.map .str) then none
    else if key = "anyOf" then some (.arr ((names.map .str).map (typeBranch members)))
    else Keyed.get? key members

theorem mem_movedKeywords_names {key : String} : key ∈ movedKeywords members (names.map .str) ↔
    ∃ name ∈ names, key ∈ typeKeywords name ∧ (Keyed.get? key members).isSome := by
  simp [mem_movedKeywords, mem_branchKeywords]

namespace Split

theorem type_gone (h : Split names members after) : Keyed.get? "type" after = none := by
  rw [h.member, if_pos List.mem_cons_self]

/-- No keyword of a listed type is left behind. -/
theorem gone (h : Split names members after) {name : String} (hname : name ∈ names)
    {key : String} (hkey : key ∈ typeKeywords name) : Keyed.get? key after = none := by
  rw [h.member]
  split
  · rfl
  · next hstays =>
    have hne : key ≠ "anyOf" := by
      rintro rfl
      exact absurd (mem_movableKeywords hkey) (by decide)
    rw [if_neg hne]
    by_contra hthere
    rw [← ne_eq, ← Option.isSome_iff_ne_none] at hthere
    exact hstays (List.mem_cons_of_mem _ (mem_movedKeywords_names.2 ⟨name, hname, hkey, hthere⟩))

theorem anyOf_eq (h : Split names members after) :
    Keyed.get? "anyOf" after = some (.arr ((names.map .str).map (typeBranch members))) := by
  rw [h.member, if_neg (not_mem_splitKeywords (by decide) (by decide)), if_pos rfl]

theorem allows_branches : reading.Allows value "anyOf"
      (.arr ((names.map .str).map (typeBranch members))) ↔
    ∃ name ∈ names, reading.Accepts value (typeBranch members (.str name)) := by
  rw [allows_anyOf]
  simp

/-- A schema accepts the same values after its type has been split. -/
theorem accepts_iff (h : Split names members after) :
    reading.Accepts value (.obj after) ↔ reading.Accepts value (.obj members) := by
  rw [accepts_obj h.formedAfter, accepts_obj h.formed]
  constructor
  · rintro ⟨_, hkeys⟩
    obtain ⟨name, hname, hbranch⟩ := allows_branches.1 (hkeys "anyOf" _ h.anyOf_eq)
    obtain ⟨htype, hgroups, hrequired⟩ := (accepts_typeBranch h.formed name).1 hbranch
    refine ⟨hgroups, fun key setting hsetting => ?_⟩
    by_cases hkey : key ∈ "type" :: movedKeywords members (names.map .str)
    · rcases List.mem_cons.1 hkey with rfl | hmoved
      · rw [h.types] at hsetting
        rw [← Option.some.inj hsetting]
        exact allows_typeNames.2 ⟨name, hname, htype⟩
      · obtain ⟨other, _, hown, _⟩ := mem_movedKeywords_names.1 hmoved
        by_cases hne : key = "required"
        · subst hne
          exact allows_required_of_object fun hobject => hrequired hobject setting hsetting
        · exact allows_own hown hne setting
    · have hne : key ≠ "anyOf" := by
        rintro rfl
        rw [h.single] at hsetting
        cases hsetting
      apply hkeys
      rw [h.member, if_neg hkey, if_neg hne, hsetting]
  · rintro ⟨hgroups, hkeys⟩
    obtain ⟨name, hname, htype⟩ := allows_typeNames.1 (hkeys "type" _ h.types)
    constructor
    · -- of the types that have keywords the value has one at most, and its keywords have moved
      apply groupsAllow_of_eq_nil
      intro type hgroup hvalue
      apply ownMembers_eq_nil h.formedAfter
      intro key hkey _
      rw [← typeKeywords_eq_of_hasType hgroup hvalue htype] at hkey
      exact h.gone hname hkey
    · intro key setting hsetting
      rw [h.member] at hsetting
      split at hsetting
      · cases hsetting
      · split at hsetting
        · next hkey =>
          rw [hkey, ← Option.some.inj hsetting]
          refine allows_branches.2 ⟨name, hname, (accepts_typeBranch h.formed name).2 ?_⟩
          exact ⟨htype, hgroups, fun _ => hkeys "required"⟩
        · exact hkeys key setting hsetting

end Split

/-! ### Names that are folded -/

theorem bind_requiredOnly?_eq_some_iff {key : String} {lists : List (List String)} :
    (arrayAt? members key).bind requiredOnly? = some lists ↔
      Keyed.get? key members = some (.arr (lists.map requiring)) := by
  simp only [Option.bind_eq_some_iff, arrayAt?_eq_some_iff, requiredOnly?_eq_some_iff,
    exists_eq_right]

/-- The names that the branches of a combinator require are folded into `required`. -/
def FoldsInto (members : Members) (key : String) (lists : List (List String)) : Prop :=
  Keyed.get? key members = some (.arr (lists.map requiring)) ∧
    (key = "allOf" ∨ lists.length = 1)

theorem foldl_foldNames (members : Members) (keys : List String) (state : List String × Bool) :
    let after := keys.foldl (foldNames members) state
    (∀ name, name ∈ after.1 ↔ name ∈ state.1 ∨
        ∃ key ∈ keys, ∃ lists, FoldsInto members key lists ∧ name ∈ lists.flatten) ∧
      (after.2 = true ↔ state.2 = true ∨ ∃ key ∈ keys, ∃ lists, FoldsInto members key lists) := by
  induction keys generalizing state with
  | nil => simp
  | cons key rest ih =>
    obtain ⟨hnames, hfolded⟩ := ih (foldNames members state key)
    rw [List.foldl_cons]
    simp only [hnames, hfolded, List.mem_cons, exists_eq_or_imp, ← or_assoc]
    rw [foldNames]
    cases hlists : (arrayAt? members key).bind requiredOnly? with
    | none =>
      have hnone : ∀ lists, ¬ FoldsInto members key lists := by
        intro lists hfolds
        rw [bind_requiredOnly?_eq_some_iff.2 hfolds.1] at hlists
        cases hlists
      simp [hnone]
    | some lists =>
      have honly : ∀ others, FoldsInto members key others ↔
          lists = others ∧ (key = "allOf" ∨ lists.length = 1) := by
        intro others
        rw [FoldsInto, ← bind_requiredOnly?_eq_some_iff, hlists, Option.some.injEq]
        exact and_congr_right fun hsame => by rw [hsame]
      dsimp only
      split
      · next hfolds => simp [honly, hfolds, mem_addNames]
      · next hdropped => simp [honly, hdropped]

/-- The names of `required` and those that are folded into it. -/
def foldedNames (members : Members) : List String × Bool :=
  combinators.foldl (foldNames members) (requiredNames members, false)

theorem onMember_putRequired (members : Members) (names : List String) :
    (putRequired members names).onMember (Keyed.get? "required" members) =
      some (Json.strings names) := by
  rw [putRequired, Keyed.contains]
  cases Keyed.get? "required" members with
  | none => rfl
  | some old => rfl

/-- What folding makes of members: the combinators that only require names are gone, and the names
that could be folded are required. -/
theorem get?_foldl_foldEdits (h : Keyed.Ascending members) (key : String) :
    Keyed.get? key ((foldEdits members).foldl MemberEdit.onMembers members) =
      if key ∈ combinators.filter (isFolded members) then none
      else if key = "required" ∧ (foldedNames members).2 = true then
        some (Json.strings (foldedNames members).1)
      else Keyed.get? key members := by
  rw [MemberEdit.get?_foldl_onMembers h, foldEdits, List.filter_append, List.foldl_append,
    List.filter_map]
  have hremoved := foldl_remove key (combinators.filter (isFolded members))
    (Keyed.get? key members)
  rw [show (combinators.filter (isFolded members)).filter
    ((fun e => e.key == key) ∘ MemberEdit.remove) =
      (combinators.filter (isFolded members)).filter (· == key) from rfl, hremoved, ← onKey]
  by_cases hkey : key = "required"
  · have hstays : key ∉ combinators.filter (isFolded members) := by
      intro hmem
      rw [hkey] at hmem
      exact absurd (List.mem_filter.1 hmem).1 (by decide)
    rw [if_neg hstays, if_neg hstays, hkey, onKey_self (keys_requiredEdits members), requiredEdits,
      ← foldedNames]
    split
    · next hfolded =>
      rw [if_pos ⟨rfl, hfolded⟩, List.foldl_cons, onMember_putRequired]
      rfl
    · next hnone => rw [if_neg fun hfolded => hnone hfolded.2, List.foldl_nil]
  · rw [onKey_eq_nil (keys_requiredEdits members) (by simpa using hkey), List.foldl_nil]
    simp only [hkey, false_and, if_false]

/-! ### Folding -/

/-- What folding makes of a schema whose `required` is a list of names or not there. -/
structure Folded (members after : Members) : Prop where
  formed : Keyed.Ascending members
  formedAfter : Keyed.Ascending after
  names : ∀ setting, Keyed.get? "required" members = some setting →
    setting = Json.strings (requiredNames members)
  member : ∀ key, Keyed.get? key after =
    if key ∈ combinators.filter (isFolded members) then none
    else if key = "required" ∧ (foldedNames members).2 = true then
      some (Json.strings (foldedNames members).1)
    else Keyed.get? key members

theorem exactlyOne_singleton {verdict : Prop} : ExactlyOne [verdict] ↔ verdict := by
  constructor
  · rintro ⟨before, other, behind, heq, hother, _⟩
    have hmem : other ∈ [verdict] := by simp [heq]
    rwa [← List.mem_singleton.1 hmem]
  · intro h
    exact ⟨[], verdict, [], rfl, h, by simp⟩

/-- A combinator that is folded allows what has the names of its branches. -/
theorem allows_foldsInto {key : String} (hkey : key ∈ combinators) {lists : List (List String)}
    (h : FoldsInto members key lists) :
    reading.Allows value key (.arr (lists.map requiring)) ↔
      ∀ names ∈ lists, reading.HasNames names value := by
  rcases h.2 with rfl | hsingle
  · rw [allows_allOf, List.forall_mem_map]
    simp only [accepts_requiring]
  · obtain ⟨names, rfl⟩ := List.length_eq_one_iff.1 hsingle
    simp only [List.map_cons, List.map_nil, List.forall_mem_singleton]
    rw [combinators, List.mem_cons, List.mem_cons, List.mem_singleton] at hkey
    rcases hkey with rfl | rfl | rfl
    · rw [allows_oneOf, List.map_singleton, exactlyOne_singleton, accepts_requiring]
    · rw [allows_anyOf]
      simp only [List.mem_singleton, exists_eq_left, accepts_requiring]
    · rw [allows_allOf, List.forall_mem_singleton, accepts_requiring]

theorem hasNames_foldedNames : reading.HasNames (foldedNames members).1 value ↔
    reading.HasNames (requiredNames members) value ∧ ∀ key ∈ combinators, ∀ lists,
      FoldsInto members key lists → ∀ names ∈ lists, reading.HasNames names value := by
  have hmem := (foldl_foldNames members combinators (requiredNames members, false)).1
  constructor
  · intro hall
    constructor
    · intro hobject name hname
      exact hall hobject name ((hmem name).2 (Or.inl hname))
    · intro key hkey lists hfolds names hnames hobject name hname
      apply hall hobject name
      exact (hmem name).2 (Or.inr ⟨key, hkey, lists, hfolds,
        List.mem_flatten.2 ⟨names, hnames, hname⟩⟩)
  · rintro ⟨hold, hnew⟩ hobject name hname
    rcases (hmem name).1 hname with hname | ⟨key, hkey, lists, hfolds, hname⟩
    · exact hold hobject name hname
    · obtain ⟨names, hnames, hname⟩ := List.mem_flatten.1 hname
      exact hnew key hkey lists hfolds names hnames hobject name hname

namespace Folded

theorem groupsAllow_iff (h : Folded members after) :
    reading.GroupsAllow after value ↔ reading.GroupsAllow members value := by
  apply groupsAllow_congr
  intro type _ _
  apply ownMembers_congr h.formedAfter h.formed
  intro key hkey hne
  have hstays : key ∉ combinators.filter (isFolded members) := by
    have hcombinators : ∀ key ∈ combinators, key ∉ movableKeywords := by decide
    intro hmem
    exact hcombinators key (List.mem_filter.1 hmem).1 (mem_movableKeywords hkey)
  rw [h.member, if_neg hstays, if_neg fun hrequired => hne hrequired.1]

/-- A combinator that only requires names is gone. -/
theorem gone (h : Folded members after) {key : String} (hkey : key ∈ combinators)
    {branches : List Json} (hbranches : Keyed.get? key members = some (.arr branches))
    (honly : RequiresOnly branches) : Keyed.get? key after = none := by
  rw [h.member, if_pos]
  exact List.mem_filter.2 ⟨hkey, isFolded_iff.2 ⟨branches, hbranches, honly⟩⟩

theorem hasNames_required (h : Folded members after)
    (hkeys : ∀ key setting, Keyed.get? key members = some setting →
      reading.Allows value key setting) : reading.HasNames (requiredNames members) value := by
  cases hrequired : Keyed.get? "required" members with
  | none =>
    rw [requiredNames, hrequired]
    exact fun _ name hname => absurd hname List.not_mem_nil
  | some setting =>
    have hallowed := hkeys "required" setting hrequired
    rw [h.names setting hrequired] at hallowed
    exact allows_requiredNames.1 hallowed

/-- A schema accepts no less after folding. -/
theorem accepts (h : Folded members after) (haccepts : reading.Accepts value (.obj members)) :
    reading.Accepts value (.obj after) := by
  obtain ⟨hgroups, hkeys⟩ := (accepts_obj h.formed).1 haccepts
  rw [accepts_obj h.formedAfter]
  refine ⟨h.groupsAllow_iff.2 hgroups, fun key setting hsetting => ?_⟩
  rw [h.member] at hsetting
  split at hsetting
  · cases hsetting
  · split at hsetting
    · next hrequired =>
      rw [hrequired.1, ← Option.some.inj hsetting, allows_requiredNames, hasNames_foldedNames]
      refine ⟨h.hasNames_required hkeys, fun key hkey lists hfolds => ?_⟩
      exact (allows_foldsInto hkey hfolds).1 (hkeys key _ hfolds.1)
    · exact hkeys key setting hsetting

/-- It accepts no more either, if all that is dropped can be folded. -/
theorem accepts_of_folds (h : Folded members after)
    (hall : ∀ key ∈ combinators, ∀ branches, Keyed.get? key members = some (.arr branches) →
      RequiresOnly branches → key = "allOf" ∨ branches.length = 1)
    (haccepts : reading.Accepts value (.obj after)) : reading.Accepts value (.obj members) := by
  obtain ⟨hgroups, hkeys⟩ := (accepts_obj h.formedAfter).1 haccepts
  rw [accepts_obj h.formed]
  refine ⟨h.groupsAllow_iff.1 hgroups, fun key setting hsetting => ?_⟩
  -- once something is folded, `required` has all the names
  have hnames : (foldedNames members).2 = true →
      reading.HasNames (foldedNames members).1 value := by
    intro hfolded
    apply allows_requiredNames.1
    apply hkeys "required"
    have hstays : "required" ∉ combinators.filter (isFolded members) := fun hmem =>
      absurd (List.mem_filter.1 hmem).1 (by decide)
    rw [h.member, if_neg hstays, if_pos ⟨rfl, hfolded⟩]
  by_cases hgone : key ∈ combinators.filter (isFolded members)
  · obtain ⟨hkey, hfolded⟩ := List.mem_filter.1 hgone
    obtain ⟨branches, hbranches, honly⟩ := isFolded_iff.1 hfolded
    have hlength := hall key hkey branches hbranches honly
    obtain ⟨lists, rfl⟩ := requiresOnly_iff.1 honly
    rw [List.length_map] at hlength
    have hfolds : FoldsInto members key lists := ⟨hbranches, hlength⟩
    have hflag := (foldl_foldNames members combinators (requiredNames members, false)).2.2
      (Or.inr ⟨key, hkey, lists, hfolds⟩)
    rw [hbranches] at hsetting
    rw [← Option.some.inj hsetting, allows_foldsInto hkey hfolds]
    exact (hasNames_foldedNames.1 (hnames hflag)).2 key hkey lists hfolds
  · by_cases hrequired : key = "required" ∧ (foldedNames members).2 = true
    · obtain ⟨rfl, hfolded⟩ := hrequired
      rw [h.names setting hsetting, allows_requiredNames]
      exact (hasNames_foldedNames.1 (hnames hfolded)).1
    · apply hkeys
      rw [h.member, if_neg hgone, if_neg hrequired, hsetting]

end Folded

/-! ### The rules -/

/-- The corrections by which a rule edits a schema do the edits at the place of the schema. -/
theorem at?_correct {own : List MemberEdit} (hown : ∀ e ∈ own, e ∈ schemaEdits members)
    {made : List Correction} {place : List String}
    (hmade : made.map Correction.patch = own.map (MemberEdit.patch place))
    (hformed : document.WellFormed) (hat : document.at? place = some (.obj members)) :
    (correct document made).at? place = some (.obj (own.foldl MemberEdit.onMembers members)) := by
  have hschema : ∀ e ∈ own, e ∈ edits .schema members := by
    intro e he
    rw [edits, if_pos rfl]
    exact hown e he
  have hplaced : made.map Correction.patch =
      (own.map (PlacedEdit.mk place)).map (PlacedEdit.patch []) := by
    rw [hmade, List.map_map]
    rfl
  rw [correct_of_edits hplaced ?_ ?_ hformed, at?_onValueAll hat]
  · intro e he
    obtain ⟨edit, hedit, rfl⟩ := List.mem_map.1 he
    exact edits_rule.names .schema members edit (hschema edit hedit)
  · intro e he put hput
    obtain ⟨edit, hedit, rfl⟩ := List.mem_map.1 he
    exact (edits_rule.puts .schema members (hformed.at? hat) edit (hschema edit hedit) put hput).1

/-- Splitting the type of a schema leaves what it accepts, and folding leaves it too, or adds to it
where alternatives are dropped. -/
theorem rewriting_keeps_meaning (reading : Reading) (hformed : document.WellFormed)
    (hindexable : document.Indexable) {c : Cursor} (hc : c ∈ Cursor.places subject document)
    {members : Members} (hmembers : c.value = .obj members) :
    (∀ names : List String, Keyed.get? "type" members = some (Json.strings names) →
      splitsType members = true →
        ∃ after, (correct document (normalizeTypeArrays c)).at? c.trail.tokens =
            some (.obj after) ∧ Keyed.get? "type" after = none ∧
          (∀ name ∈ names, ∀ key ∈ typeKeywords name, Keyed.get? key after = none) ∧
          ∀ value, reading.Accepts value (.obj after) ↔ reading.Accepts value (.obj members)) ∧
    ((Keyed.get? "required" members = none ∨
        ∃ names, Keyed.get? "required" members = some (Json.strings names)) →
      ∃ after, (correct document (collapseRequiredCombinators c)).at? c.trail.tokens =
          some (.obj after) ∧
        (∀ key ∈ ["oneOf", "anyOf", "allOf"], ∀ branches,
          Keyed.get? key members = some (.arr branches) → RequiresOnly branches →
            Keyed.get? key after = none) ∧
        (∀ value, reading.Accepts value (.obj members) → reading.Accepts value (.obj after)) ∧
        ((∀ key ∈ ["oneOf", "anyOf", "allOf"], ∀ branches,
          Keyed.get? key members = some (.arr branches) → RequiresOnly branches →
            key = "allOf" ∨ branches.length = 1) →
          ∀ value, reading.Accepts value (.obj after) ↔ reading.Accepts value (.obj members))) := by
  have hat := at?_of_mem_places hformed hindexable hc
  rw [hmembers] at hat
  have hascending := (Json.wellFormed_obj.1 (hformed.at? hat)).1
  constructor
  · intro names htypes hsplit
    have harray : arrayAt? members "type" = some (names.map .str) := by
      rw [arrayAt?_eq_some_iff, htypes, Json.strings]
    have hedits := typeEdits_of_splitsType hsplit harray
    have hafter := at?_correct (fun e he => by simp [schemaEdits, he])
      (asksFor_type c members hmembers) hformed hat
    rw [hedits] at hafter
    have hsplits : Split names members _ :=
      ⟨hascending, MemberEdit.ascending_foldl_onMembers hascending _, htypes,
        not_contains_anyOf hsplit, get?_foldl_splitEdits members _ hascending⟩
    exact ⟨_, hafter, hsplits.type_gone, fun name hname key => hsplits.gone hname,
      fun value => hsplits.accepts_iff⟩
  · intro hrequired
    have hafter := at?_correct (fun e he => by simp [schemaEdits, he])
      (asksFor_fold c members hmembers) hformed hat
    have hnames : ∀ setting, Keyed.get? "required" members = some setting →
        setting = Json.strings (requiredNames members) := by
      intro setting hsetting
      rcases hrequired with hnone | ⟨names, hsome⟩
      · rw [hnone] at hsetting
        cases hsetting
      · rw [hsome] at hsetting
        rw [requiredNames, hsome, Option.bind_some, asStrings?_strings, Option.getD_some,
          Option.some.inj hsetting]
    have hfolded : Folded members _ :=
      ⟨hascending, MemberEdit.ascending_foldl_onMembers hascending _, hnames,
        get?_foldl_foldEdits hascending⟩
    refine ⟨_, hafter, fun key hkey branches => hfolded.gone hkey, fun value => hfolded.accepts,
      fun hall value => ⟨hfolded.accepts_of_folds hall, hfolded.accepts⟩⟩

/-- The reading to which all numbers are integers and what it can choose allows everything. -/
def lenient : Reading := ⟨fun _ => True, fun _ _ _ => True, fun _ _ _ => True, fun _ _ => True⟩

/-- A schema that requires names in two ways. -/
def twiceRequiring : Members :=
  [("allOf", .arr [requiring ["id"], requiring ["name"]]), ("required", Json.strings ["name"])]

theorem accepts_nullableLists : lenient.Accepts .null (nullableLists 1) ∧
    ¬ lenient.Accepts (.str "text") (nullableLists 1) := by
  have hascending := (Json.wellFormed_obj.1 (wellFormed_nullableLists 1)).1
  have htypes : ∀ value, lenient.Accepts value (nullableLists 1) ↔
      ∃ name ∈ ["array", "null"], lenient.HasType name value := by
    intro value
    rw [nullableLists, accepts_obj hascending]
    constructor
    · intro hall
      exact allows_typeNames.1 (hall.2 "type" _ rfl)
    · intro htype
      refine ⟨fun _ _ _ _ => trivial, fun key setting hsetting => ?_⟩
      rw [Keyed.get?, Keyed.get?, Keyed.get?] at hsetting
      split at hsetting
      · next hkey =>
        have hown : "items" ∈ typeKeywords "array" := by decide
        exact hkey ▸ allows_own hown (by decide) setting
      · split at hsetting
        · next hkey =>
          rw [← hkey, ← Option.some.inj hsetting]
          exact allows_typeNames.2 htype
        · cases hsetting
  rw [htypes, htypes]
  simp [HasType]

/-- A list that may be null is split, and required names are folded. -/
theorem rewriting_keeps_meaning_nullableLists :
    (∃ after, (correct (nullableLists 1)
        (normalizeTypeArrays (Cursor.root "Test" (nullableLists 1)))).at? [] = some (.obj after) ∧
      lenient.Accepts .null (.obj after) ∧ ¬ lenient.Accepts (.str "text") (.obj after)) ∧
    ∃ after, (correct (.obj twiceRequiring)
        (collapseRequiredCombinators (Cursor.root "Test" (.obj twiceRequiring)))).at? [] =
          some (.obj after) ∧
      ∀ value, lenient.Accepts value (.obj after) ↔
        lenient.Accepts value (.obj twiceRequiring) := by
  have hlists : Cursor.root "Test" (nullableLists 1) ∈ Cursor.places "Test" (nullableLists 1) :=
    List.mem_cons_self
  have hsplit := (rewriting_keeps_meaning lenient (wellFormed_nullableLists 1)
    (indexable_nullableLists 1) hlists rfl).1 ["array", "null"] rfl rfl
  have hkeys : ["allOf", "required"].Pairwise (· < ·) := by decide
  have hformed : (Json.obj twiceRequiring).WellFormed := by
    refine ⟨Keyed.ascending_iff_keys.2 hkeys, ?_⟩
    simp [twiceRequiring, requiring, Json.strings, Json.MembersWellFormed, Json.WellFormed,
      Json.ItemsWellFormed, Keyed.Ascending]
  have hindexable : (Json.obj twiceRequiring).Indexable := by
    simp [twiceRequiring, requiring, Json.strings, Json.Indexable, Json.MembersIndexable,
      Json.ItemsIndexable, UInt64.size]
  have hroot : Cursor.root "Test" (.obj twiceRequiring) ∈
      Cursor.places "Test" (.obj twiceRequiring) := List.mem_cons_self
  have hfold := (rewriting_keeps_meaning lenient hformed hindexable hroot rfl).2
    (Or.inr ⟨["name"], rfl⟩)
  obtain ⟨after, hafter, _, _, hsame⟩ := hsplit
  obtain ⟨folded, hfolded, _, _, hexact⟩ := hfold
  refine ⟨⟨after, hafter, ?_, ?_⟩, folded, hfolded, hexact ?_⟩
  · exact (hsame _).2 accepts_nullableLists.1
  · exact fun haccepts => accepts_nullableLists.2 ((hsame _).1 haccepts)
  · intro key hkey branches hbranches _
    rw [List.mem_cons, List.mem_cons, List.mem_singleton] at hkey
    rcases hkey with rfl | rfl | rfl
    · simp [twiceRequiring, Keyed.get?] at hbranches
    · simp [twiceRequiring, Keyed.get?] at hbranches
    · exact Or.inl rfl

end Standard

end ResourceCatalog
