import Mathlib
import ResourceCatalog.Schema.Resolution

/-!
# Resolution and unfolding

What resolution goes through does not depend on what it has followed before: a schema leads to what
its reference refers to, else to its branches, else to its items, and from there on in the same way.
This is the unfolding of the schema, and it may be infinite. `resolve_exact` says that resolution
gives the unfolding wherever that is finite and all references on it refer to something. The
references that may still be followed are only there to make it end elsewhere: each reference on the
unfolding is among them in the beginning, and one that has been followed on the way before leads to
itself again.
-/

namespace ResourceCatalog.Schema

/-! ### The unfolding of a schema -/

/-- The schemas that resolution goes on to. -/
def parts (document schema : Json) : List Json :=
  match schema.member? "$ref" with
  | some (.str reference) => (target? document reference).toList
  | some _ => []
  | none =>
    match combinator? schema with
    | some (_, branches) => branches
    | none => if isArraySchema schema then (itemsSchema? schema).toList else []

def Leads (document schema part : Json) : Prop := part ∈ parts document schema

/-- A schema is somewhere on the unfolding of another. -/
def Reaches (document : Json) : Json → Json → Prop := Relation.ReflTransGen (Leads document)

/-- The ways down from a schema. The unfolding is finite if these are finitely many. -/
def ways (document schema : Json) : Set (List Json) :=
  {way | (schema :: way).IsChain (Leads document)}

/-- Each reference on the unfolding is a text and refers to a part of the document. -/
def Sound (document schema : Json) : Prop :=
  ∀ node, Reaches document schema node → ∀ value, node.member? "$ref" = some value →
    ∃ reference target, value = .str reference ∧ target? document reference = some target

mutual

/-- The unfolding of a schema that was reached through a reference of some name, if through any. -/
inductive Unfolds (document : Json) : Option String → Json → Resolved → Prop
  | reference {name : Option String} {schema target : Json} {text : String} {resolved : Resolved}
      (href : schema.member? "$ref" = some (.str text))
      (htarget : target? document text = some target)
      (h : Unfolds document (referenceName? text) target resolved) :
      Unfolds document name schema resolved
  | combined {name : Option String} {schema : Json} {op : Combinator} {branches : List Json}
      {resolved : List Resolved} (href : schema.member? "$ref" = none)
      (hbranches : combinator? schema = some (op, branches))
      (h : UnfoldAll document branches resolved) :
      Unfolds document name schema (.combined schema name op resolved)
  | items {name : Option String} {schema items : Json} {resolved : Resolved}
      (href : schema.member? "$ref" = none) (hbranches : combinator? schema = none)
      (harray : isArraySchema schema = true) (hitems : itemsSchema? schema = some items)
      (h : Unfolds document none items resolved) :
      Unfolds document name schema (.array schema name (some resolved))
  | array {name : Option String} {schema : Json} (href : schema.member? "$ref" = none)
      (hbranches : combinator? schema = none) (harray : isArraySchema schema = true)
      (hitems : itemsSchema? schema = none) : Unfolds document name schema (.array schema name none)
  | concrete {name : Option String} {schema : Json} (href : schema.member? "$ref" = none)
      (hbranches : combinator? schema = none) (harray : isArraySchema schema = false) :
      Unfolds document name schema (.concrete schema name)

inductive UnfoldAll (document : Json) : List Json → List Resolved → Prop
  | nil : UnfoldAll document [] []
  | cons {schema : Json} {rest : List Json} {resolved : Resolved} {others : List Resolved}
      (h : Unfolds document none schema resolved) (hrest : UnfoldAll document rest others) :
      UnfoldAll document (schema :: rest) (resolved :: others)

end

variable {document schema part node : Json}

/-! ### Parts -/

theorem parts_reference {reference : String} (h : schema.member? "$ref" = some (.str reference)) :
    parts document schema = (target? document reference).toList := by
  rw [parts, h]

theorem parts_combined {op : Combinator} {branches : List Json}
    (h : schema.member? "$ref" = none) (hbranches : combinator? schema = some (op, branches)) :
    parts document schema = branches := by
  rw [parts, h, hbranches]

theorem parts_array (h : schema.member? "$ref" = none) (hbranches : combinator? schema = none)
    (harray : isArraySchema schema = true) :
    parts document schema = (itemsSchema? schema).toList := by
  rw [parts, h, hbranches, if_pos harray]

theorem parts_concrete (h : schema.member? "$ref" = none) (hbranches : combinator? schema = none)
    (harray : isArraySchema schema = false) : parts document schema = [] := by
  rw [parts, h, hbranches, harray, if_neg Bool.false_ne_true]

theorem Leads.target {reference : String} {target : Json}
    (h : schema.member? "$ref" = some (.str reference))
    (htarget : target? document reference = some target) : Leads document schema target := by
  rw [Leads, parts_reference h, htarget]
  exact List.mem_singleton_self target

theorem Leads.branch {op : Combinator} {branches : List Json} (h : schema.member? "$ref" = none)
    (hbranches : combinator? schema = some (op, branches)) (hpart : part ∈ branches) :
    Leads document schema part := by
  rw [Leads, parts_combined h hbranches]
  exact hpart

theorem Leads.items (h : schema.member? "$ref" = none) (hbranches : combinator? schema = none)
    (harray : isArraySchema schema = true) (hitems : itemsSchema? schema = some part) :
    Leads document schema part := by
  rw [Leads, parts_array h hbranches harray, hitems]
  exact List.mem_singleton_self part

/-! ### References on the unfolding -/

theorem referencesOfMembers_cons (key : String) (value : Json) (rest : Members) :
    referencesOfMembers ((key, value) :: rest) =
      (match value with
        | .str text => if key = "$ref" then [text] else []
        | other => references other) ++ referencesOfMembers rest := by
  cases value with
  | str text => by_cases h : key = "$ref" <;> simp [referencesOfMembers, h]
  | _ => rfl

theorem references_subset_of_get? {key : String} {members : Members} {value : Json}
    (h : Keyed.get? key members = some value) :
    references value ⊆ referencesOfMembers members := by
  induction members with
  | nil => cases h
  | cons entry rest ih =>
    obtain ⟨other, first⟩ := entry
    rw [referencesOfMembers_cons]
    rw [Keyed.get?] at h
    split at h
    · cases h
      cases value with
      | str text => exact List.nil_subset _
      | _ => exact List.subset_append_left _ _
    · exact List.subset_append_of_subset_right _ (ih h)

theorem mem_references_of_get? {members : Members} {reference : String}
    (h : Keyed.get? "$ref" members = some (.str reference)) :
    reference ∈ referencesOfMembers members := by
  induction members with
  | nil => cases h
  | cons entry rest ih =>
    obtain ⟨key, first⟩ := entry
    rw [referencesOfMembers_cons]
    rw [Keyed.get?] at h
    split at h
    · next hkey =>
      cases h
      simp [hkey]
    · exact List.mem_append_right _ (ih h)

theorem references_subset_of_mem {items : List Json} {item : Json} (h : item ∈ items) :
    references item ⊆ referencesOfItems items := by
  induction items with
  | nil => cases h
  | cons first rest ih =>
    rw [referencesOfItems]
    rcases List.mem_cons.1 h with rfl | h
    · exact List.subset_append_left _ _
    · exact List.subset_append_of_subset_right _ (ih h)

theorem references_subset_of_member? {value member : Json} {key : String}
    (h : value.member? key = some member) : references member ⊆ references value := by
  cases value with
  | obj members => exact references_subset_of_get? h
  | _ => cases h

theorem mem_references {reference : String}
    (h : schema.member? "$ref" = some (.str reference)) : reference ∈ references schema := by
  cases schema with
  | obj members => exact mem_references_of_get? h
  | _ => cases h

theorem references_subset_of_child? {value child : Json} {token : String}
    (h : value.child? token = some child) : references child ⊆ references value := by
  cases value with
  | obj members => exact references_subset_of_get? h
  | arr items =>
    obtain ⟨i, -, hi⟩ := Option.bind_eq_some_iff.1 h
    exact references_subset_of_mem (List.mem_of_getElem? hi)
  | _ => cases h

theorem references_subset_of_at? {value found : Json} {tokens : List String}
    (h : value.at? tokens = some found) : references found ⊆ references value :=
  Json.holds_at? (fun part => references part ⊆ references value)
    (fun hpart hchild => List.Subset.trans (references_subset_of_child? hchild) hpart)
    (List.Subset.refl _) h

theorem references_subset_of_target? {reference : String} {target : Json}
    (h : target? document reference = some target) : references target ⊆ references document := by
  rw [target?] at h
  split at h
  · obtain ⟨tokens, -, hfound⟩ := Option.bind_eq_some_iff.1 h
    exact references_subset_of_at? hfound
  · cases h

theorem references_subset_of_branches? {op found : Combinator} {branches : List Json}
    (h : branches? schema op = some (found, branches)) :
    referencesOfItems branches ⊆ references schema := by
  rw [branches?] at h
  split at h
  · next hmember =>
    cases h
    exact references_subset_of_member? hmember
  · cases h

theorem references_subset_of_combinator? {op : Combinator} {branches : List Json}
    (h : combinator? schema = some (op, branches)) :
    referencesOfItems branches ⊆ references schema := by
  rw [combinator?] at h
  simp only [Option.or_eq_some_iff] at h
  rcases h with h | ⟨_, h | ⟨_, h⟩⟩ <;> exact references_subset_of_branches? h

theorem references_subset_of_itemsSchema? {items : Json}
    (h : itemsSchema? schema = some items) : references items ⊆ references schema := by
  rw [itemsSchema?] at h
  split at h
  · next hmember =>
    cases h
    exact references_subset_of_member? hmember
  · cases h

/-- A part is in the document or in the schema itself. -/
theorem Leads.references_subset (h : Leads document schema part) :
    references part ⊆ references document ++ references schema := by
  rw [Leads, parts] at h
  split at h
  · exact List.subset_append_of_subset_left _
      (references_subset_of_target? (Option.mem_toList.1 h))
  · cases h
  · refine List.subset_append_of_subset_right _ ?_
    split at h
    · next hbranches =>
      exact List.Subset.trans (references_subset_of_mem h)
        (references_subset_of_combinator? hbranches)
    · split at h
      · exact references_subset_of_itemsSchema? (Option.mem_toList.1 h)
      · cases h

theorem Reaches.references_subset (h : Reaches document schema node) :
    references node ⊆ references document ++ references schema := by
  induction h with
  | refl => exact List.subset_append_right _ _
  | tail _ hlast ih =>
    intro reference hmem
    rcases List.mem_append.1 (hlast.references_subset hmem) with hmem | hmem
    · exact List.mem_append_left _ hmem
    · exact ih hmem

/-! ### Steps of resolution -/

section Steps

variable (document : Json) {remaining : List String} (name : Option String) {reference : String}

theorem resolveAmong_reference {target : Json}
    (h : schema.member? "$ref" = some (.str reference)) (hmem : reference ∈ remaining)
    (htarget : target? document reference = some target) :
    resolveAmong document remaining name schema =
      resolveAmong document (remaining.filter (· != reference)) (referenceName? reference)
        target := by
  rw [resolveAmong, h]
  dsimp only
  rw [dif_pos hmem]
  split
  · next hfound =>
    rw [htarget] at hfound
    cases hfound
    rfl
  · next hfound =>
    rw [htarget] at hfound
    cases hfound

theorem resolveAmong_broken (h : schema.member? "$ref" = some (.str reference))
    (hmem : reference ∈ remaining) (htarget : target? document reference = none) :
    resolveAmong document remaining name schema = .error (.broken reference) := by
  rw [resolveAmong, h]
  dsimp only
  rw [dif_pos hmem]
  split
  · next hfound =>
    rw [htarget] at hfound
    cases hfound
  · rfl

theorem resolveAmong_cyclic (h : schema.member? "$ref" = some (.str reference))
    (hmem : reference ∉ remaining) :
    resolveAmong document remaining name schema = .error (.cyclic reference) := by
  rw [resolveAmong, h]
  exact dif_neg hmem

theorem resolveAmong_malformed (remaining : List String) {value : Json}
    (h : schema.member? "$ref" = some value) (hvalue : ∀ reference, value ≠ .str reference) :
    resolveAmong document remaining name schema = .error (.malformed value) := by
  rw [resolveAmong, h]
  cases value with
  | str reference => exact absurd rfl (hvalue reference)
  | _ => rfl

variable (remaining : List String) (h : schema.member? "$ref" = none)

include h

theorem resolveAmong_combined {op : Combinator} {branches : List Json}
    (hbranches : combinator? schema = some (op, branches)) :
    resolveAmong document remaining name schema =
      (resolveBranches document remaining branches).map (.combined schema name op) := by
  rw [resolveAmong, h]
  dsimp only
  split
  · next hfound =>
    rw [hbranches] at hfound
    cases hfound
    rfl
  · next hfound =>
    rw [hbranches] at hfound
    cases hfound

variable (hbranches : combinator? schema = none)

include hbranches

theorem resolveAmong_concrete (harray : isArraySchema schema = false) :
    resolveAmong document remaining name schema = .ok (.concrete schema name) := by
  rw [resolveAmong, h]
  dsimp only
  split
  · next hfound =>
    rw [hbranches] at hfound
    cases hfound
  · rw [if_neg (by rw [harray]; decide)]

theorem resolveAmong_items (harray : isArraySchema schema = true) {items : Json}
    (hitems : itemsSchema? schema = some items) :
    resolveAmong document remaining name schema =
      (resolveAmong document remaining none items).map fun resolved =>
        .array schema name (some resolved) := by
  rw [resolveAmong, h]
  dsimp only
  split
  · next hfound =>
    rw [hbranches] at hfound
    cases hfound
  · rw [if_pos harray]
    split
    · next hfound =>
      rw [hitems] at hfound
      cases hfound
      rfl
    · next hfound =>
      rw [hitems] at hfound
      cases hfound

theorem resolveAmong_array (harray : isArraySchema schema = true)
    (hitems : itemsSchema? schema = none) :
    resolveAmong document remaining name schema = .ok (.array schema name none) := by
  rw [resolveAmong, h]
  dsimp only
  split
  · next hfound =>
    rw [hbranches] at hfound
    cases hfound
  · rw [if_pos harray]
    split
    · next hfound =>
      rw [hitems] at hfound
      cases hfound
    · rfl

end Steps

/-! ### What a resolution comes to -/

/-- Why resolution cannot go on from a schema, when only some references may still be followed. -/
inductive Faulty (document : Json) (remaining : List String) : Json → ReferenceError → Prop
  | broken {node : Json} {reference : String} (h : node.member? "$ref" = some (.str reference))
      (htarget : target? document reference = none) :
      Faulty document remaining node (.broken reference)
  | malformed {node value : Json} (h : node.member? "$ref" = some value)
      (hvalue : ∀ reference, value ≠ .str reference) :
      Faulty document remaining node (.malformed value)
  | spent {node : Json} {reference : String} (h : node.member? "$ref" = some (.str reference))
      (hspent : reference ∉ remaining) : Faulty document remaining node (.cyclic reference)
  | loop {node : Json} {reference : String} (h : node.member? "$ref" = some (.str reference))
      (hloop : Relation.TransGen (Leads document) node node) :
      Faulty document remaining node (.cyclic reference)

/-- The error names what is wrong somewhere on the unfolding. -/
def Blames (document : Json) (remaining : List String) (schema : Json)
    (e : ReferenceError) : Prop :=
  ∃ node, Reaches document schema node ∧ Faulty document remaining node e

/-- The result of resolution is the unfolding, or it names what is wrong with it. -/
def Explains (document : Json) (remaining : List String) (name : Option String) (schema : Json) :
    Except ReferenceError Resolved → Prop
  | .ok resolved => Unfolds document name schema resolved
  | .error e => Blames document remaining schema e

def ExplainsAll (document : Json) (remaining : List String) (branches : List Json) :
    Except ReferenceError (List Resolved) → Prop
  | .ok resolved => UnfoldAll document branches resolved
  | .error e => ∃ branch ∈ branches, Blames document remaining branch e

variable {remaining : List String} {e : ReferenceError}

theorem Faulty.blames (h : Faulty document remaining schema e) :
    Blames document remaining schema e :=
  ⟨schema, .refl, h⟩

theorem Blames.head (hpart : Leads document schema part) (h : Blames document remaining part e) :
    Blames document remaining schema e := by
  obtain ⟨node, hreach, hfaulty⟩ := h
  exact ⟨node, hreach.head hpart, hfaulty⟩

/-- A reference that is met again below what it refers to leads to itself. -/
theorem Blames.reference {reference : String} {target : Json}
    (h : schema.member? "$ref" = some (.str reference))
    (htarget : target? document reference = some target)
    (hblames : Blames document (remaining.filter (· != reference)) target e) :
    Blames document remaining schema e := by
  obtain ⟨node, hreach, hfaulty⟩ := hblames
  refine ⟨node, hreach.head (.target h htarget), ?_⟩
  cases hfaulty with
  | broken hnode hnone => exact .broken hnode hnone
  | malformed hnode hvalue => exact .malformed hnode hvalue
  | loop hnode hloop => exact .loop hnode hloop
  | spent hnode hspent =>
    rename_i other
    by_cases hsame : other = reference
    · subst hsame
      exact .loop hnode (.head' (.target hnode htarget) hreach)
    · refine .spent hnode fun hmem => hspent ?_
      simp [hmem, hsame]

theorem explains_resolveAmong (document : Json) (remaining : List String) (name : Option String)
    (schema : Json) :
    Explains document remaining name schema (resolveAmong document remaining name schema) := by
  induction remaining, name, schema using resolveAmong.induct document _
    (fun remaining branches =>
      ExplainsAll document remaining branches (resolveBranches document remaining branches)) with
  | case1 remaining name schema reference href hmem target htarget _ ih =>
    rw [resolveAmong_reference document name href hmem htarget]
    generalize resolveAmong _ _ _ target = result at ih ⊢
    cases result with
    | ok resolved => exact .reference href htarget ih
    | error e => exact .reference href htarget ih
  | case2 remaining name schema reference href hmem htarget =>
    rw [resolveAmong_broken document name href hmem htarget]
    exact Faulty.blames (.broken href htarget)
  | case3 remaining name schema reference href hmem =>
    rw [resolveAmong_cyclic document name href hmem]
    exact Faulty.blames (.spent href hmem)
  | case4 remaining name schema value hvalue href =>
    rw [resolveAmong_malformed document name remaining href hvalue]
    exact Faulty.blames (.malformed href hvalue)
  | case5 remaining name schema href op branches hbranches _ ih =>
    rw [resolveAmong_combined document name remaining href hbranches]
    generalize resolveBranches document remaining branches = result at ih ⊢
    cases result with
    | ok resolved => exact .combined href hbranches ih
    | error e =>
      obtain ⟨branch, hmem, hblames⟩ := ih
      exact hblames.head (by rwa [Leads, parts_combined href hbranches])
  | case6 remaining name schema href hbranches harray items hitems _ ih =>
    rw [resolveAmong_items document name remaining href hbranches harray hitems]
    generalize resolveAmong _ _ _ items = result at ih ⊢
    cases result with
    | ok resolved => exact .items href hbranches harray hitems ih
    | error e =>
      refine Blames.head ?_ ih
      rw [Leads, parts_array href hbranches harray, hitems]
      exact List.mem_singleton_self items
  | case7 remaining name schema href hbranches harray hitems =>
    rw [resolveAmong_array document name remaining href hbranches harray hitems]
    exact .array href hbranches harray hitems
  | case8 remaining name schema href hbranches harray =>
    rw [Bool.not_eq_true] at harray
    rw [resolveAmong_concrete document name remaining href hbranches harray]
    exact .concrete href hbranches harray
  | case9 remaining =>
    rw [resolveBranches]
    exact .nil
  | case10 remaining branch rest e he ih =>
    rw [resolveBranches, he]
    rw [he] at ih
    exact ⟨branch, List.mem_cons_self, ih⟩
  | case11 remaining branch rest resolved hresolved ih ihrest =>
    rw [resolveBranches, hresolved]
    rw [hresolved] at ih
    generalize resolveBranches document remaining rest = result at ihrest ⊢
    cases result with
    | ok others => exact .cons ih ihrest
    | error e =>
      obtain ⟨branch, hmem, hblames⟩ := ihrest
      exact ⟨branch, List.mem_cons_of_mem _ hmem, hblames⟩

/-! ### Unfoldings are finite -/

/-- Every way down from the schema ends. -/
def Founded (document : Json) : Json → Prop := Acc (Function.swap (Leads document))

theorem Founded.of_reaches (h : Founded document schema) (hreach : Reaches document schema node) :
    Founded document node := by
  induction hreach with
  | refl => exact h
  | tail _ hlast ih => exact Acc.inv ih hlast

theorem Founded.not_loop (h : Founded document schema) :
    ¬Relation.TransGen (Leads document) schema schema := by
  intro hloop
  have hround : Relation.TransGen (Function.swap (Leads document)) schema schema :=
    Relation.transGen_swap.2 hloop
  refine not_acc_iff_exists_descending_chain.2 ?_ (Acc.transGen h)
  exact ⟨fun _ => schema, rfl, fun _ => hround⟩

/-- A schema has finitely many parts, so that there are finitely many ways down if each one ends. -/
theorem ways_finite_iff : (ways document schema).Finite ↔ Founded document schema := by
  constructor
  · intro hfinite
    by_contra hendless
    obtain ⟨path, hstart, hpath⟩ := not_acc_iff_exists_descending_chain.1 hendless
    refine Set.infinite_of_injective_forall_mem (f := fun n => ((List.range (n + 1)).map path).tail)
      ?_ ?_ hfinite
    · intro m n h
      have hlength := congrArg List.length h
      simpa using hlength
    · intro n
      have hchain : ((List.range (n + 1)).map path).IsChain (Leads document) :=
        (List.isChain_map path).2 ((List.isChain_range_succ _ n).2 fun m _ => hpath m)
      rw [List.range_succ_eq_map, List.map_cons, hstart] at hchain
      rw [List.range_succ_eq_map, List.map_cons]
      exact hchain
  · intro hfounded
    induction hfounded with
    | intro schema _ ih =>
      have hparts : (⋃ part ∈ {part | part ∈ parts document schema},
          (part :: ·) '' ways document part).Finite :=
        (parts document schema).finite_toSet.biUnion fun part hpart => (ih part hpart).image _
      refine (hparts.insert []).subset fun way hway => ?_
      cases way with
      | nil => exact Set.mem_insert _ _
      | cons part rest =>
        obtain ⟨hpart, hrest⟩ := List.isChain_cons_cons.1 hway
        refine Set.mem_insert_of_mem _ (Set.mem_biUnion hpart ?_)
        exact Set.mem_image_of_mem _ hrest

theorem founded_iff : Founded document schema ↔ ∀ part ∈ parts document schema,
    Founded document part :=
  acc_def

theorem sound_iff : Sound document schema ↔
    (∀ value, schema.member? "$ref" = some value →
      ∃ reference target, value = .str reference ∧ target? document reference = some target) ∧
    ∀ part ∈ parts document schema, Sound document part := by
  constructor
  · intro h
    refine ⟨h schema .refl, fun part hpart node hnode => ?_⟩
    exact h node (hnode.head hpart)
  · rintro ⟨hown, hparts⟩ node hnode
    rcases hnode.cases_head with rfl | ⟨part, hpart, hrest⟩
    · exact hown
    · exact hparts part hpart node hrest

theorem Unfolds.founded_sound {name : Option String} {resolved : Resolved}
    (h : Unfolds document name schema resolved) :
    Founded document schema ∧ Sound document schema := by
  induction h using @Unfolds.rec document _ (fun branches _ _ =>
    ∀ branch ∈ branches, Founded document branch ∧ Sound document branch) with
  | reference href htarget _ ih =>
    rw [founded_iff, sound_iff, parts_reference href, htarget, href]
    simp [htarget, ih.1, ih.2]
  | combined href hbranches _ ih =>
    rw [founded_iff, sound_iff, parts_combined href hbranches, href]
    simp only [reduceCtorEq, false_implies, implies_true, true_and]
    exact ⟨fun part hpart => (ih part hpart).1, fun part hpart => (ih part hpart).2⟩
  | items href hbranches harray hitems _ ih =>
    rw [founded_iff, sound_iff, parts_array href hbranches harray, hitems, href]
    simp [ih.1, ih.2]
  | array href hbranches harray hitems =>
    rw [founded_iff, sound_iff, parts_array href hbranches harray, hitems, href]
    simp
  | concrete href hbranches harray =>
    rw [founded_iff, sound_iff, parts_concrete href hbranches harray, href]
    simp
  | nil branch hmem => exact absurd hmem List.not_mem_nil
  | cons _ _ ih ihrest branch hmem =>
    rcases List.mem_cons.1 hmem with rfl | hmem
    · exact ih
    · exact ihrest branch hmem

/-- A schema has one unfolding. -/
theorem Unfolds.unique {name : Option String} {resolved other : Resolved}
    (h : Unfolds document name schema resolved) (h' : Unfolds document name schema other) :
    resolved = other := by
  induction h using @Unfolds.rec document _ (fun branches resolved _ =>
    ∀ others, UnfoldAll document branches others → resolved = others) generalizing other with
  | reference href htarget _ ih =>
    cases h' with
    | reference href' htarget' h' =>
      rw [href] at href'
      cases href'
      rw [htarget] at htarget'
      cases htarget'
      exact ih h'
    | _ => simp_all
  | combined href hbranches _ ih =>
    cases h' with
    | combined _ hbranches' h' =>
      rw [hbranches] at hbranches'
      cases hbranches'
      rw [ih _ h']
    | _ => simp_all
  | items href hbranches harray hitems _ ih =>
    cases h' with
    | items _ _ _ hitems' h' =>
      rw [hitems] at hitems'
      cases hitems'
      rw [ih h']
    | _ => simp_all
  | array href hbranches harray hitems => cases h' <;> simp_all
  | concrete href hbranches harray => cases h' <;> simp_all
  | nil others h' =>
    cases h'
    rfl
  | cons _ _ ih ihrest others h' =>
    cases h' with
    | cons h' hrest' => rw [ih h', ihrest _ hrest']

/-! ### Resolution is exact -/

theorem explains_resolve (document schema : Json) :
    Explains document (references document ++ references schema) none schema
      (resolve document schema) :=
  explains_resolveAmong document _ none schema

/-- A cycle is reported only if there is one. -/
theorem Blames.not_founded {reference : String}
    (h : Blames document (references document ++ references schema) schema (.cyclic reference)) :
    ¬Founded document schema := by
  intro hfounded
  obtain ⟨node, hreach, hfaulty⟩ := h
  cases hfaulty with
  | spent href hspent => exact hspent (hreach.references_subset (mem_references href))
  | loop href hloop => exact (hfounded.of_reaches hreach).not_loop hloop

theorem Blames.not_sound (h : Blames document remaining schema e)
    (he : ∀ reference, e ≠ .cyclic reference) : ¬Sound document schema := by
  intro hsound
  obtain ⟨node, hreach, hfaulty⟩ := h
  cases hfaulty with
  | broken href hnone =>
    obtain ⟨reference, target, heq, htarget⟩ := hsound node hreach _ href
    cases heq
    rw [hnone] at htarget
    cases htarget
  | malformed href hvalue =>
    obtain ⟨reference, target, heq, htarget⟩ := hsound node hreach _ href
    exact hvalue reference heq
  | spent => exact he _ rfl
  | loop => exact he _ rfl

theorem exists_resolve_iff :
    (∃ resolved, resolve document schema = .ok resolved) ↔
      Founded document schema ∧ Sound document schema := by
  have h := explains_resolve document schema
  constructor
  · rintro ⟨resolved, hresolved⟩
    rw [hresolved] at h
    exact h.founded_sound
  · rintro ⟨hfounded, hsound⟩
    cases hresult : resolve document schema with
    | ok resolved => exact ⟨resolved, rfl⟩
    | error e =>
      rw [hresult] at h
      cases e with
      | cyclic reference => exact absurd hfounded h.not_founded
      | _ => exact absurd hsound (h.not_sound (by simp))

theorem resolve_eq_ok_iff {resolved : Resolved} :
    resolve document schema = .ok resolved ↔ Unfolds document none schema resolved := by
  have h := explains_resolve document schema
  constructor
  · intro hresolved
    rwa [hresolved] at h
  · intro hunfolds
    obtain ⟨other, hother⟩ := exists_resolve_iff.2 hunfolds.founded_sound
    rw [hother] at h ⊢
    rw [hunfolds.unique h]

theorem UnfoldAll.forall₂ {schemas : List Json} {resolved : List Resolved}
    (h : UnfoldAll document schemas resolved) :
    List.Forall₂ (fun schema r => resolve document schema = .ok r) schemas resolved := by
  induction schemas generalizing resolved with
  | nil =>
    cases h
    exact .nil
  | cons schema rest ih =>
    cases h with
    | cons hfirst hrest => exact .cons (resolve_eq_ok_iff.2 hfirst) (ih hrest)

/-- Resolution gives the unfolding of a schema wherever that is finite and all references on it
refer to something, and it reports a cycle only where the unfolding is infinite. Branches do not get
into the way of each other, whatever references they share. -/
theorem resolve_exact (document schema : Json) :
    ((∃ resolved, resolve document schema = .ok resolved) ↔
      (ways document schema).Finite ∧ Sound document schema) ∧
    (∀ resolved, resolve document schema = .ok resolved ↔
      Unfolds document none schema resolved) ∧
    (∀ reference, resolve document schema = .error (.cyclic reference) →
      (ways document schema).Infinite) ∧
    ∀ op branches, schema.member? "$ref" = none → combinator? schema = some (op, branches) →
      ((∃ resolved, resolve document schema = .ok resolved) ↔
        ∀ branch ∈ branches, ∃ resolved, resolve document branch = .ok resolved) := by
  refine ⟨?_, fun resolved => resolve_eq_ok_iff, fun reference h => ?_,
    fun op branches href hbranches => ?_⟩
  · rw [ways_finite_iff]
    exact exists_resolve_iff
  · have hblames := explains_resolve document schema
    rw [h] at hblames
    rw [Set.Infinite, ways_finite_iff]
    exact hblames.not_founded
  · simp only [exists_resolve_iff]
    rw [founded_iff, sound_iff, parts_combined href hbranches, href]
    simp only [reduceCtorEq, false_implies, implies_true, true_and]
    exact ⟨fun h branch hbranch => ⟨h.1 branch hbranch, h.2 branch hbranch⟩,
      fun h => ⟨fun branch hbranch => (h branch hbranch).1,
        fun branch hbranch => (h branch hbranch).2⟩⟩

end ResourceCatalog.Schema
