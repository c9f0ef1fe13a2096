import Mathlib
import ResourceCatalog.Proofs.Patch.Compatibility
import ResourceCatalog.Proofs.Patch.Settling
import ResourceCatalog.Proofs.Patch.Walk

/-!
# The standard rules do not get in each other's way

Five rules look at the same schema in the same pass. Those that could edit the same member wait for
each other, so of what they ask for together no two edits are about one member, and every member
that is removed or replaced is there. The corrections of a pass can therefore be applied in any
order.
-/

namespace ResourceCatalog.Standard

variable {members : Members} {subject : String} {document : Json}

/-! ### Different members -/

/-- The edits are about different members, and these are among some names. -/
structure DistinctAmong (names : List String) (own : List MemberEdit) : Prop where
  nodup : (own.map MemberEdit.key).Nodup
  among : ∀ e ∈ own, e.key ∈ names

theorem DistinctAmong.append {names others : List String} {own more : List MemberEdit}
    (h : DistinctAmong names own) (h' : DistinctAmong others more)
    (hapart : ∀ name ∈ names, name ∉ others) :
    DistinctAmong (names ++ others) (own ++ more) where
  nodup := by
    rw [List.map_append]
    apply h.nodup.append h'.nodup
    intro key hkey hkey'
    obtain ⟨e, he, rfl⟩ := List.mem_map.1 hkey
    obtain ⟨f, hf, hsame⟩ := List.mem_map.1 hkey'
    exact hapart e.key (h.among e he) (hsame ▸ h'.among f hf)
  among e he := by
    rcases List.mem_append.1 he with he | he
    · exact List.mem_append_left _ (h.among e he)
    · exact List.mem_append_right _ (h'.among e he)

theorem distinctAmong_remove {names wider : List String} (h : names.Nodup)
    (hamong : names ⊆ wider) : DistinctAmong wider (names.map .remove) where
  nodup := by simpa [Function.comp_def, MemberEdit.key] using h
  among e he := by
    obtain ⟨name, hname, rfl⟩ := List.mem_map.1 he
    exact hamong hname

theorem distinctAmong_of_length_le_one {names : List String} {own : List MemberEdit}
    (h : own.length ≤ 1) (hamong : ∀ e ∈ own, e.key ∈ names) : DistinctAmong names own where
  nodup := by
    rcases own with _ | ⟨e, _ | ⟨f, rest⟩⟩
    · exact List.nodup_nil
    · exact List.nodup_singleton _
    · simp at h
  among := hamong

theorem length_requiredEdits_le_one (members : Members) : (requiredEdits members).length ≤ 1 := by
  rw [requiredEdits]
  split <;> simp

theorem length_typeEdits_le_one (hsplit : splitsType members = false) :
    (typeEdits members).length ≤ 1 := by
  rw [typeEdits, hsplit]
  split <;> simp

theorem length_defaultEdits_le_one (members : Members) : (defaultEdits members).length ≤ 1 := by
  rw [defaultEdits]
  split
  · split <;> simp
  · simp

/-- An empty `required` lists nothing that is undeclared. -/
theorem length_tidyEdits_le_one (members : Members) :
    (emptyRequiredEdits members ++ undeclaredEdits members).length ≤ 1 := by
  rw [emptyRequiredEdits, undeclaredEdits]
  split
  · simp
  · split
    · next hempty =>
      rw [hempty]
      cases (Keyed.get? "properties" members).bind Json.asObject? <;>
        simp [Json.asStrings?]
    · split
      · dsimp only
        split
        · simp
        · split <;> simp
      · simp

theorem nodup_addNames {names : List String} (h : names.Nodup) (new : List String) :
    (addNames names new).Nodup := by
  induction new generalizing names with
  | nil => exact h
  | cons name rest ih =>
    rw [addNames, List.foldl_cons]
    apply ih
    split
    · exact h
    · next hnew =>
      have hapart : ∀ other ∈ names, other ≠ name := by
        rintro other hother rfl
        exact hnew (List.contains_iff_mem.2 hother)
      simpa [List.nodup_append, h] using hapart

theorem nodup_movedKeywords (members : Members) (types : List Json) :
    (movedKeywords members types).Nodup := by
  have hfold : ∀ names : List String, names.Nodup → (types.foldl
      (fun names type => addNames names (branchKeywords members type)) names).Nodup := by
    induction types with
    | nil => exact fun _ h => h
    | cons type rest ih => exact fun names h => ih _ (nodup_addNames h _)
  exact hfold [] List.nodup_nil

theorem distinctAmong_foldEdits (members : Members) :
    DistinctAmong (combinators ++ ["required"]) (foldEdits members) := by
  have hcombinators : combinators.Nodup := by decide
  have hremoved := distinctAmong_remove (hcombinators.filter (isFolded members))
    (List.filter_subset_self _)
  have hrequired := distinctAmong_of_length_le_one (length_requiredEdits_le_one members)
    (keys_requiredEdits members)
  exact hremoved.append hrequired (by decide)

/-- A split removes the type and what moves, and adds the branches. -/
theorem distinctAmong_splitEdits (members : Members) (types : List Json) :
    DistinctAmong ("type" :: movedKeywords members types ++ ["anyOf"])
      (splitEdits members types) := by
  have htype : "type" ∉ movedKeywords members types := fun hmoved =>
    absurd (movable_of_mem_movedKeywords hmoved) (by decide)
  have hanyOf : "anyOf" ∉ "type" :: movedKeywords members types :=
    not_mem_splitKeywords (by decide) (by decide)
  have hremoved := distinctAmong_remove
    (List.nodup_cons.2 ⟨htype, nodup_movedKeywords members types⟩) (List.Subset.refl _)
  have hbranches : DistinctAmong ["anyOf"]
      [.add "anyOf" (.arr (types.map (typeBranch members)))] :=
    distinctAmong_of_length_le_one le_rfl (by simp [MemberEdit.key])
  apply hremoved.append hbranches
  intro name hname hsame
  exact hanyOf (List.mem_singleton.1 hsame ▸ hname)

/-- The edits of a schema are about different members. -/
theorem nodup_keys_schemaEdits (members : Members) :
    ((schemaEdits members).map MemberEdit.key).Nodup := by
  cases hsplit : splitsType members with
  | true =>
    obtain ⟨types, htypes, _⟩ := exists_types hsplit
    rw [schemaEdits_of_splitsType hsplit htypes]
    exact (distinctAmong_splitEdits members types).nodup
  | false =>
    have htype := distinctAmong_of_length_le_one (length_typeEdits_le_one hsplit)
      (keys_typeEdits hsplit)
    have hdefault := distinctAmong_of_length_le_one (length_defaultEdits_le_one members)
      (keys_defaultEdits members)
    cases hfolds : foldsRequired members with
    | true =>
      -- `required` is left to the first rule
      have hempty : emptyRequiredEdits members = [] := by rw [emptyRequiredEdits, hfolds]; rfl
      have hundeclared : undeclaredEdits members = [] := by rw [undeclaredEdits, hfolds]; rfl
      have hfold := distinctAmong_foldEdits members
      rw [schemaEdits, hempty, hundeclared, List.append_nil, List.append_nil]
      exact ((hfold.append htype (by decide)).append hdefault (by decide)).nodup
    | false =>
      have htidy := distinctAmong_of_length_le_one (length_tidyEdits_le_one members)
        (List.forall_mem_append.2
          ⟨keys_emptyRequiredEdits members, keys_undeclaredEdits members⟩)
      rw [schemaEdits, foldEdits_eq_nil hfolds, List.nil_append,
        List.append_assoc (typeEdits members)]
      exact ((htype.append htidy (by decide)).append hdefault (by decide)).nodup

/-! ### Members that are there -/

theorem isSome_of_arrayAt? {key : String} {items : List Json}
    (h : arrayAt? members key = some items) : (Keyed.get? key members).isSome := by
  simp [get?_of_arrayAt? h]

theorem fits_foldEdits {e : MemberEdit} (he : e ∈ foldEdits members) : e.Fits members := by
  rcases List.mem_append.1 he with he | he
  · obtain ⟨key, hkey, rfl⟩ := List.mem_map.1 he
    obtain ⟨items, hitems⟩ := Option.isSome_iff_exists.1
      (isSome_of_isFolded (List.mem_filter.1 hkey).2)
    exact isSome_of_arrayAt? hitems
  · rw [requiredEdits] at he
    split at he
    · rw [List.mem_singleton.1 he, putRequired]
      split
      · next hthere => exact hthere
      · trivial
    · exact absurd he List.not_mem_nil

theorem fits_typeEdits {e : MemberEdit} (he : e ∈ typeEdits members) : e.Fits members := by
  rw [typeEdits] at he
  split at he
  · exact absurd he List.not_mem_nil
  · next htypes =>
    rw [List.mem_singleton.1 he]
    exact isSome_of_arrayAt? htypes
  · next single htypes =>
    rw [List.mem_singleton.1 he]
    exact isSome_of_arrayAt? htypes
  · next types _ _ htypes =>
    split at he
    · simp only [List.mem_append, List.mem_cons, List.mem_map, List.not_mem_nil, or_false] at he
      rcases he with (rfl | ⟨key, hkey, rfl⟩) | rfl
      · exact isSome_of_arrayAt? htypes
      · obtain ⟨type, _, hbranch⟩ := mem_movedKeywords.1 hkey
        obtain ⟨_, _, _, hthere⟩ := mem_branchKeywords.1 hbranch
        exact hthere
      · trivial
    · exact absurd he List.not_mem_nil

theorem fits_emptyRequiredEdits {e : MemberEdit} (he : e ∈ emptyRequiredEdits members) :
    e.Fits members := by
  rw [emptyRequiredEdits] at he
  split at he
  · exact absurd he List.not_mem_nil
  · split at he
    · next hrequired =>
      rw [List.mem_singleton.1 he]
      simp [MemberEdit.Fits, hrequired]
    · exact absurd he List.not_mem_nil

theorem fits_undeclaredEdits {e : MemberEdit} (he : e ∈ undeclaredEdits members) :
    e.Fits members := by
  rw [undeclaredEdits] at he
  split at he
  · exact absurd he List.not_mem_nil
  · split at he
    · next properties required _ hrequired =>
      obtain ⟨value, hvalue, _⟩ := Option.bind_eq_some_iff.1 hrequired
      dsimp only at he
      split at he
      · exact absurd he List.not_mem_nil
      · split at he
        · rw [List.mem_singleton.1 he]
          simp [MemberEdit.Fits, hvalue]
        · rw [List.mem_singleton.1 he]
          simp [MemberEdit.Fits, hvalue]
    · exact absurd he List.not_mem_nil

theorem fits_defaultEdits {e : MemberEdit} (he : e ∈ defaultEdits members) : e.Fits members := by
  rw [defaultEdits] at he
  split at he
  · next text _ hdefault =>
    split at he
    · rw [List.mem_singleton.1 he]
      simp [MemberEdit.Fits, hdefault]
    · exact absurd he List.not_mem_nil
  · exact absurd he List.not_mem_nil

/-- What the edits of a schema remove or replace is there. -/
theorem fits_of_mem_schemaEdits {e : MemberEdit} (he : e ∈ schemaEdits members) :
    e.Fits members := by
  simp only [schemaEdits, List.mem_append] at he
  rcases he with (((he | he) | he) | he) | he
  · exact fits_foldEdits he
  · exact fits_typeEdits he
  · exact fits_emptyRequiredEdits he
  · exact fits_undeclaredEdits he
  · exact fits_defaultEdits he

theorem distinct_edits : edits.Distinct where
  keys role members := by
    rw [edits]
    split
    · exact nodup_keys_schemaEdits members
    · exact List.nodup_nil
  fits role members e he := by
    rw [edits] at he
    split at he
    · exact fits_of_mem_schemaEdits he
    · exact absurd he List.not_mem_nil

/-- Every correction is about a member of a schema. -/
theorem exists_schema_of_mem_pass {x : Correction} (h : x ∈ pass rule subject document) :
    ∃ c ∈ Cursor.places subject document, c.role = .schema ∧ c.value.isObject = true ∧
      ∃ edit : MemberEdit, x.patch = edit.patch c.trail.tokens := by
  obtain ⟨c, hc, hx⟩ := exists_place_of_mem_pass h
  cases hvalue : c.value.isObject with
  | false =>
    rw [rule_elsewhere c hvalue] at hx
    exact absurd hx List.not_mem_nil
  | true =>
    obtain ⟨members, hmembers⟩ := exists_members_of_isObject hvalue
    have hpatch := List.mem_map_of_mem (f := Correction.patch) hx
    rw [patches_rule c members hmembers] at hpatch
    obtain ⟨edit, hedit, hsame⟩ := List.mem_map.1 hpatch
    rw [edits] at hedit
    split at hedit
    · next hrole => exact ⟨c, hc, hrole, hvalue, edit, hsame.symm⟩
    · exact absurd hedit List.not_mem_nil

/-- The corrections of a pass are about members of schemas, no two of which are the same or one
inside of the other. They are applied as they were asked for, none is refused, and in any other
order they come to the same document. -/
theorem standard_corrections_together (subject : String) (hformed : document.WellFormed)
    (hindexable : document.Indexable) :
    let made := pass rule subject document
    (∀ x ∈ made, ∃ c ∈ Cursor.places subject document, c.role = .schema ∧ c.value.isObject = true ∧
        ∃ edit : MemberEdit, x.patch = edit.patch c.trail.tokens) ∧
      made.Pairwise (fun x y => x.patch.ApartFrom y.patch) ∧
      applicationOrder document made = made.map Correction.patch ∧
      ∀ patches : List Patch, patches.Perm (made.map Correction.patch) →
        AllApply document patches ∧
          applyAll document patches = passStep rule subject document := by
  refine ⟨fun x hx => exists_schema_of_mem_pass hx, ?_, ?_, fun patches hperm => ?_⟩
  · exact apartFrom_pass edits_rule distinct_edits subject hformed
  · exact applicationOrder_pass edits_rule subject hformed
  · exact applyAll_perm_pass edits_rule distinct_edits subject hformed hindexable hperm

/-- A schema that two rules correct, with a property that a third one does. -/
def crowded : Json :=
  .obj [("allOf", .arr [.obj [("required", .arr [.str "name"])]]),
    ("properties", .obj [("name", .obj [("type", .arr [.str "string"])])]),
    ("type", .arr [.str "object"])]

/-- Four patches in the reverse order. -/
theorem standard_corrections_together_crowded :
    let patches : List Patch := [.replace "/properties/name/type" (.str "string"),
      .replace "/type" (.str "object"), .add "/required" (.arr [.str "name"]), .remove "/allOf"]
    crowded.WellFormed ∧ crowded.Indexable ∧
      patches.Perm ((pass rule "Test" crowded).map Correction.patch) ∧
      AllApply crowded patches ∧
      applyAll crowded patches =
        .obj [("properties", .obj [("name", .obj [("type", .str "string")])]),
          ("required", .arr [.str "name"]), ("type", .str "object")] := by
  intro patches
  have hkeys : ["allOf", "properties", "type"].Pairwise (· < ·) := by decide
  have hformed : crowded.WellFormed := by
    refine ⟨Keyed.ascending_iff_keys.2 hkeys, ?_⟩
    simp [Json.MembersWellFormed, Json.WellFormed, Json.ItemsWellFormed, Keyed.Ascending]
  have hindexable : crowded.Indexable := by
    simp [crowded, Json.Indexable, Json.MembersIndexable, Json.ItemsIndexable, UInt64.size]
  have hpatches : (pass rule "Test" crowded).map Correction.patch = patches.reverse := by
    rw [patches_pass edits_rule "Test" hformed]
    rfl
  have hperm : patches.Perm ((pass rule "Test" crowded).map Correction.patch) := by
    rw [hpatches]
    exact (List.reverse_perm patches).symm
  obtain ⟨_, _, _, hany⟩ := standard_corrections_together "Test" hformed hindexable
  obtain ⟨hall, happly⟩ := hany patches hperm
  refine ⟨hformed, hindexable, hperm, hall, happly.trans ?_⟩
  have hsound : Sound crowded := ⟨hformed, everywhere_of_indexable hindexable .schema⟩
  rw [hsound.passStep_eq]
  rfl

end ResourceCatalog.Standard
