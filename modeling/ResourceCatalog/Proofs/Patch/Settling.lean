import Mathlib
import ResourceCatalog.Patch.RuleBook
import ResourceCatalog.Proofs.Patch.Passes
import ResourceCatalog.Proofs.Patch.Pending

/-!
# Settling under the standard rules

Whatever the document, the standard rules come to an end: every pass that asks for something leaves
fewer passes pending. The passes allowed are another matter. A document settles when the passes that
change it are fewer than those allowed, and is refused otherwise, although it would settle in the
end. Lists of lists that may be null need one pass for each list, so ten of them are refused.
-/

namespace ResourceCatalog.Standard

/-! ### Documents that the standard rules can address -/

variable {role : Role} {members : Members} {document : Json} {subject : String}

/-- Every list of schemas can be addressed, and so can the lists that the types of a schema become. -/
structure Bounded (role : Role) (value : Json) : Prop where
  addressable : Addressable role value
  types : role = .schema → ∀ types, value.member? "type" = some types → types.Indexable

theorem bounded_scalar {value : Json} (harr : value.isArray = false)
    (hobj : value.isObject = false) : Bounded role value := by
  refine ⟨fun items heq => ?_, fun _ types htypes => ?_⟩
  · rw [heq] at harr
    cases harr
  · cases value with
    | obj members => cases hobj
    | _ => cases htypes

theorem bounded_arr {items : List Json} (h : role = .schemaList → items.length ≤ UInt64.size) :
    Bounded role (.arr items) :=
  ⟨fun _ heq hrole => Json.arr.inj heq ▸ h hrole, fun _ _ htypes => (by cases htypes)⟩

theorem bounded_obj (h : role = .schema → ∀ types, Keyed.get? "type" members = some types →
    types.Indexable) : Bounded role (.obj members) :=
  ⟨fun _ heq => (by cases heq), h⟩

theorem everywhere_data (value : Json) : Role.data.Everywhere Bounded value := by
  have hhere : ∀ value, Bounded .data value := fun value =>
    ⟨fun _ _ hrole => (by cases hrole), fun hrole => (by cases hrole)⟩
  induction value using Json.partsInduction with
  | scalar value harr hobj => exact (Role.everywhere_scalar harr hobj).2 (hhere value)
  | arr items ih =>
    refine Role.everywhere_arr.2 ⟨hhere _, fun item hitem => ?_⟩
    rw [Role.below_data]
    exact ih item hitem
  | obj members ih =>
    refine Role.everywhere_obj.2 ⟨hhere _, fun entry hentry => ?_⟩
    rw [Role.below_data]
    exact ih entry hentry

theorem everywhere_of_indexable {value : Json} (h : value.Indexable) (role : Role) :
    role.Everywhere Bounded value := by
  induction value using Json.partsInduction generalizing role with
  | scalar value harr hobj =>
    exact (Role.everywhere_scalar harr hobj).2 (bounded_scalar harr hobj)
  | arr items ih =>
    obtain ⟨hlength, hitems⟩ := Json.indexable_arr.1 h
    exact Role.everywhere_arr.2 ⟨bounded_arr fun _ => hlength, fun item hitem =>
      ih item hitem (hitems item hitem) _⟩
  | obj members ih =>
    have hmembers := Json.indexable_obj.1 h
    exact Role.everywhere_obj.2 ⟨bounded_obj fun _ types htypes =>
      hmembers ("type", types) (Keyed.mem_of_get? htypes), fun entry hentry =>
        ih entry hentry (hmembers entry hentry) _⟩

theorem everywhere_typeBranch (h : Role.schema.Everywhere Bounded (.obj members)) {type : Json}
    (htype : type.Indexable) : Role.schema.Everywhere Bounded (typeBranch members type) := by
  obtain ⟨branch, hbranch, hascending, hget⟩ := typeBranch_eq members type
  obtain ⟨_, hmembers⟩ := Role.everywhere_obj.1 h
  rw [hbranch]
  refine Role.everywhere_obj.2 ⟨bounded_obj fun _ types hfound => ?_, fun entry hentry => ?_⟩
  · have hnot : "type" ∉ branchKeywords members type := by
      intro hmem
      obtain ⟨name, _, hname, _⟩ := mem_branchKeywords.1 hmem
      exact absurd (mem_movableKeywords hname) (by decide)
    rw [hget, if_neg hnot, if_pos rfl] at hfound
    exact Option.some.inj hfound ▸ htype
  · have hfound := hascending.get?_of_mem hentry
    rw [hget] at hfound
    split at hfound
    · exact hmembers entry (Keyed.mem_of_get? hfound)
    · split at hfound
      · next hkey =>
        rw [hkey, below_dataKeyword (by decide)]
        exact everywhere_data _
      · cases hfound

/-- What an edit of a schema puts can be addressed. -/
theorem everywhere_put (h : Role.schema.Everywhere Bounded (.obj members)) {e : MemberEdit}
    (he : e ∈ schemaEdits members) {put : Json} (hput : e.value? = some put) :
    (Role.schema.below (.property e.key) put).Everywhere Bounded put ∧
      (e.key = "type" → put.Indexable) := by
  have htypesOf : ∀ types, arrayAt? members "type" = some types →
      types.length ≤ UInt64.size ∧ ∀ type ∈ types, type.Indexable := fun types htypes =>
    Json.indexable_arr.1 ((Role.everywhere_obj.1 h).1.types rfl _ (get?_of_arrayAt? htypes))
  have hdata : ∀ key ∈ ["type", "required", "default"],
      (Role.schema.below (.property key) put).Everywhere Bounded put := by
    intro key hkey
    rw [below_dataKeyword hkey]
    exact everywhere_data put
  cases possible_of_mem he with
  | fold | dropType | splitType | move | dropRequired => cases hput
  | unwrapType single htypes =>
    refine ⟨hdata "type" (by decide), fun _ => ?_⟩
    exact Option.some.inj hput ▸ (htypesOf _ htypes).2 single List.mem_cons_self
  | addRequired | replaceRequired =>
    exact ⟨hdata "required" (by decide), fun hkey =>
      absurd (show "required" = "type" from hkey) (by decide)⟩
  | replaceDefault =>
    exact ⟨hdata "default" (by decide), fun hkey =>
      absurd (show "default" = "type" from hkey) (by decide)⟩
  | branch types htypes hsplit =>
    refine ⟨?_, fun hkey => absurd (show "anyOf" = "type" from hkey) (by decide)⟩
    obtain rfl := Option.some.inj hput
    obtain ⟨hlength, hindexable⟩ := htypesOf types htypes
    rw [MemberEdit.key, below_anyOf]
    refine Role.everywhere_arr.2 ⟨bounded_arr fun _ => ?_, fun item hitem => ?_⟩
    · rw [List.length_map]
      exact hlength
    · obtain ⟨type, htype, rfl⟩ := List.mem_map.1 hitem
      exact everywhere_typeBranch h (hindexable type htype)

/-- The edits of a schema keep what can be addressed. -/
theorem everywhere_edited (hascending : Keyed.Ascending members)
    (h : Role.schema.Everywhere Bounded (.obj members))
    (hmembers : ∀ entry ∈ rewrittenMembers edits .schema members,
      (Role.schema.below (.property entry.1) entry.2).Everywhere Bounded entry.2) :
    Role.schema.Everywhere Bounded (.obj (edited members)) := by
  have hput : ∀ entry ∈ edited members, entry ∈ rewrittenMembers edits .schema members ∨
      (Role.schema.below (.property entry.1) entry.2).Everywhere Bounded entry.2 ∧
        (entry.1 = "type" → entry.2.Indexable) := by
    intro entry hentry
    refine (MemberEdit.mem_foldl_onMembers hentry).imp_right ?_
    rintro ⟨e, he, hkey, hput⟩
    exact hkey ▸ everywhere_put h he hput
  refine Role.everywhere_obj.2 ⟨bounded_obj fun _ types hfound => ?_, fun entry hentry => ?_⟩
  · rcases hput _ (Keyed.mem_of_get? hfound) with hmem | ⟨_, hindexable⟩
    · have hget : Keyed.get? "type" (rewrittenMembers edits .schema members) = some types :=
        (ascending_rewrittenMembers edits hascending .schema).get?_of_mem hmem
      rw [get?_rewrittenMembers, map_rewrittenMember_dataKeyword (by decide)] at hget
      exact (Role.everywhere_obj.1 h).1.types rfl types hget
    · exact hindexable rfl
  · rcases hput entry hentry with hmem | ⟨heverywhere, _⟩
    · exact hmembers entry hmem
    · exact heverywhere

/-- A pass keeps what can be addressed so. -/
theorem everywhere_rewritten {value : Json} (hformed : value.WellFormed)
    (h : role.Everywhere Bounded value) : role.Everywhere Bounded (rewritten edits role value) := by
  induction value using Json.partsInduction generalizing role with
  | scalar value harr hobj =>
    rw [rewritten_scalar edits harr hobj]
    exact h
  | arr items ih =>
    obtain ⟨hhere, hitems⟩ := Role.everywhere_arr.1 h
    rw [rewritten, rewrittenItems_eq_map]
    refine Role.everywhere_arr.2 ⟨bounded_arr fun hrole => ?_, fun item hitem => ?_⟩
    · rw [List.length_map]
      exact hhere.addressable items rfl hrole
    · obtain ⟨old, hold, rfl⟩ := List.mem_map.1 hitem
      rw [below_rewritten]
      exact ih old hold (Json.wellFormed_arr.1 hformed old hold) (hitems old hold)
  | obj members ih =>
    obtain ⟨hascending, hformedMembers⟩ := Json.wellFormed_obj.1 hformed
    have hmembers := (Role.everywhere_obj.1 h).2
    have hold : ∀ entry ∈ rewrittenMembers edits role members,
        (role.below (.property entry.1) entry.2).Everywhere Bounded entry.2 := by
      intro entry hentry
      rw [rewrittenMembers_eq_map] at hentry
      obtain ⟨old, hold, rfl⟩ := List.mem_map.1 hentry
      rw [rewrittenMember, below_rewritten]
      exact ih old hold (hformedMembers old hold) (hmembers old hold)
    rw [rewritten]
    by_cases hrole : role = .schema
    · subst hrole
      exact everywhere_edited hascending h hold
    · rw [show edits role members = [] from if_neg hrole]
      exact Role.everywhere_obj.2 ⟨bounded_obj fun hschema => absurd hschema hrole, hold⟩

/-- A document of which every pass can be said what it does. -/
structure Sound (document : Json) : Prop where
  formed : document.WellFormed
  bounded : Role.schema.Everywhere Bounded document

theorem Sound.addressable (h : Sound document) : Role.schema.Everywhere Addressable document :=
  h.bounded.mono fun _ _ hhere => hhere.addressable

theorem Sound.passStep_eq (h : Sound document) (subject : String) :
    passStep rule subject document = rewritten edits .schema document :=
  passStep_eq_rewritten edits_rule subject h.formed h.addressable

theorem Sound.passStep (h : Sound document) (subject : String) :
    Sound (passStep rule subject document) := by
  rw [h.passStep_eq]
  exact ⟨wellFormed_rewritten edits_rule h.formed, everywhere_rewritten h.formed h.bounded⟩

theorem Sound.iterate (h : Sound document) (subject : String) (n : Nat) :
    Sound ((ResourceCatalog.passStep rule subject)^[n] document) := by
  induction n generalizing document with
  | zero => exact h
  | succ n ih => exact ih (h.passStep subject)

theorem Sound.iterate_passStep_eq (h : Sound document) (subject : String) (n : Nat) :
    (ResourceCatalog.passStep rule subject)^[n] document =
      (rewritten edits .schema)^[n] document := by
  induction n generalizing document with
  | zero => rfl
  | succ n ih =>
    rw [Function.iterate_succ_apply, ih (h.passStep subject), h.passStep_eq,
      ← Function.iterate_succ_apply]

theorem Sound.pending_passStep_lt (h : Sound document)
    (hasked : pass rule subject document ≠ []) :
    pending .schema (ResourceCatalog.passStep rule subject document) < pending .schema document := by
  have hpos : pending .schema document ≠ 0 := fun hzero =>
    hasked ((pass_eq_nil_iff edits_rule subject h.formed).2 (requests_eq_nil h.formed hzero))
  have hle := pending_rewritten_le h.formed h.addressable
  rw [h.passStep_eq]
  omega

/-! ### Lists that may be null -/

/-- Lists of lists of texts, each of which may be null. -/
def nullableLists : Nat → Json
  | 0 => .obj [("type", .str "string")]
  | depth + 1 =>
    .obj [("items", nullableLists depth), ("type", .arr [.str "array", .str "null"])]

theorem wellFormed_nullableLists (depth : Nat) : (nullableLists depth).WellFormed := by
  induction depth with
  | zero => exact ⟨List.pairwise_singleton _ _, trivial, trivial⟩
  | succ depth ih =>
    have hkeys : ["items", "type"].Pairwise (· < ·) := by decide
    exact ⟨Keyed.ascending_iff_keys.2 hkeys, ih, ⟨trivial, trivial, trivial⟩, trivial⟩

theorem indexable_nullableLists (depth : Nat) : (nullableLists depth).Indexable := by
  induction depth with
  | zero => exact ⟨trivial, trivial⟩
  | succ depth ih => exact ⟨ih, ⟨by decide, trivial, trivial, trivial⟩, trivial⟩

/-! ### Termination -/

/-- There is a first pass that asks for nothing. -/
theorem Sound.exists_first_settled (h : Sound document) (subject : String) :
    ∃ n ≤ pending .schema document,
      (∀ m < n, pass rule subject ((ResourceCatalog.passStep rule subject)^[m] document) ≠ []) ∧
        pass rule subject ((ResourceCatalog.passStep rule subject)^[n] document) = [] := by
  -- by induction on what is pending: unless it is the first one, the next pass starts with less
  induction hpending : pending .schema document using Nat.strong_induction_on
    generalizing document with
  | _ left ih =>
    subst hpending
    by_cases hasked : pass rule subject document = []
    · exact ⟨0, Nat.zero_le _, fun m hm => absurd hm (Nat.not_lt_zero m), hasked⟩
    · have hless := h.pending_passStep_lt hasked
      obtain ⟨n, hn, hchanging, hsettled⟩ := ih _ hless (h.passStep subject) rfl
      refine ⟨n + 1, hn.trans_lt hless, fun m hm => ?_, hsettled⟩
      cases m with
      | zero => exact hasked
      | succ m => exact hchanging m (Nat.lt_of_succ_lt_succ hm)

/-- The standard rules never oscillate: a pass that asks for something leaves less pending, so after
finitely many passes one asks for nothing. -/
theorem exists_settled (subject : String) (hformed : document.WellFormed)
    (hindexable : document.Indexable) :
    (∀ n, pass rule subject ((passStep rule subject)^[n] document) ≠ [] →
      pending .schema ((passStep rule subject)^[n + 1] document) <
        pending .schema ((passStep rule subject)^[n] document)) ∧
      ∃ n ≤ pending .schema document,
        pass rule subject ((passStep rule subject)^[n] document) = [] := by
  have hsound : Sound document := ⟨hformed, everywhere_of_indexable hindexable .schema⟩
  refine ⟨fun n hasked => ?_, ?_⟩
  · rw [Function.iterate_succ_apply']
    exact (hsound.iterate subject n).pending_passStep_lt hasked
  · obtain ⟨n, hn, _, hsettled⟩ := hsound.exists_first_settled subject
    exact ⟨n, hn, hsettled⟩

theorem exists_settled_nullableLists :
    (nullableLists 2).WellFormed ∧ (nullableLists 2).Indexable ∧
      ∃ n ≤ 6, pass rule "Test" ((passStep rule "Test")^[n] (nullableLists 2)) = [] :=
  ⟨wellFormed_nullableLists 2, indexable_nullableLists 2,
    (exists_settled "Test" (wellFormed_nullableLists 2) (indexable_nullableLists 2)).2⟩

/-! ### The passes allowed -/

theorem ruleFor_provider (subject : String) :
    (RuleBook.empty.install provider).ruleFor subject = rule := rfl

/-- With the standard rules alone a document settles, and the first of its passes that asks for
nothing tells how: if it is among the passes allowed, the document is the one that further passes
would not change any more. Otherwise the last two passes allowed are reported. -/
theorem settle_provider (subject : String) (hformed : document.WellFormed)
    (hindexable : document.Indexable) :
    ∃ n ≤ pending .schema document,
      (∀ m < n, pass rule subject ((passStep rule subject)^[m] document) ≠ []) ∧
      (∀ m, n ≤ m → (passStep rule subject)^[m] document = (passStep rule subject)^[n] document) ∧
      pass rule subject ((passStep rule subject)^[n] document) = [] ∧
      settle ((RuleBook.empty.install provider).ruleFor subject) subject document =
        if n < maxPasses then
          .ok ⟨(passStep rule subject)^[n] document, pass rule subject document, n + 1⟩
        else
          .error ⟨subject, pass rule subject ((passStep rule subject)^[maxPasses - 1] document),
            pass rule subject ((passStep rule subject)^[maxPasses - 2] document)⟩ := by
  have hsound : Sound document := ⟨hformed, everywhere_of_indexable hindexable .schema⟩
  obtain ⟨n, hn, hchanging, hsettled⟩ := hsound.exists_first_settled subject
  refine ⟨n, hn, hchanging, fun m hm => iterate_passStep_of_settled hsettled hm, hsettled, ?_⟩
  rw [ruleFor_provider]
  exact settle_eq_of_first hchanging hsettled

theorem settle_provider_nullableLists :
    (nullableLists 2).WellFormed ∧ (nullableLists 2).Indexable ∧
      ∃ s, settle ((RuleBook.empty.install provider).ruleFor "Test") "Test" (nullableLists 2) =
          .ok s ∧ pass rule "Test" s.document = [] := by
  refine ⟨wellFormed_nullableLists 2, indexable_nullableLists 2, ?_⟩
  obtain ⟨n, hn, _, _, hsettled, hsettle⟩ :=
    settle_provider "Test" (wellFormed_nullableLists 2) (indexable_nullableLists 2)
  have hpending : pending .schema (nullableLists 2) = 6 := by decide
  have hallowed : n < maxPasses := lt_of_le_of_lt hn (by rw [hpending]; decide)
  exact ⟨_, hsettle.trans (if_pos hallowed), hsettled⟩

/-! ### Lists that may be null, one pass for each -/

/-- A list or null, as the rules write it. -/
def listOrNull (items : Json) : Json :=
  .obj [("anyOf", .arr [.obj [("items", items), ("type", .str "array")],
    .obj [("type", .str "null")]])]

theorem isObject_nullableLists (depth : Nat) : (nullableLists depth).isObject = true := by
  cases depth <;> rfl

theorem sound_nullableLists (depth : Nat) : Sound (nullableLists depth) :=
  ⟨wellFormed_nullableLists depth, everywhere_of_indexable (indexable_nullableLists depth) .schema⟩

theorem listOrNull_injective : Function.Injective listOrNull := by
  intro items others h
  simpa [listOrNull] using h

/-- The outer list is split, and the list inside of it is left for the next pass. -/
theorem rewritten_nullableLists (depth : Nat) :
    rewritten edits .schema (nullableLists (depth + 1)) = listOrNull (nullableLists depth) := rfl

theorem rewritten_listOrNull {items : Json} (h : items.isObject = true) :
    rewritten edits .schema (listOrNull items) = listOrNull (rewritten edits .schema items) := by
  cases items with
  | obj members => rfl
  | _ => cases h

theorem edits_listOrNull (items : Json) : edits .schema
    [("anyOf", .arr [.obj [("items", items), ("type", .str "array")], .obj [("type", .str "null")]])] =
      [] := rfl

theorem requests_listOrNull {items : Json} (h : items.isObject = true)
    (hnone : requests edits .schema items = []) :
    requests edits .schema (listOrNull items) = [] := by
  have hitems : Role.schema.below (.property "items") items = .schema := by
    cases items with
    | obj members => rfl
    | _ => cases h
  have hlist : requests edits .schema (.obj [("items", items), ("type", .str "array")]) = [] := by
    rw [requests, show edits .schema [("items", items), ("type", .str "array")] = [] from rfl]
    simp [requestsOfMembers, hitems, hnone, requests]
  rw [listOrNull, requests, edits_listOrNull, List.map_nil, List.nil_append]
  refine requestsOfMembers_eq_nil (fun entry hentry => ?_) []
  obtain rfl := List.mem_singleton.1 hentry
  rw [requests]
  refine requestsOfItems_eq_nil (fun item hitem => ?_) 0
  rcases List.mem_cons.1 hitem with rfl | hitem
  · exact hlist
  · obtain rfl := List.mem_singleton.1 hitem
    rfl

theorem isObject_rewritten (role : Role) (value : Json) :
    (rewritten edits role value).isObject = value.isObject := by
  cases value <;> rfl

theorem iterate_rewritten_listOrNull (n : Nat) {items : Json} (h : items.isObject = true) :
    (rewritten edits .schema)^[n] (listOrNull items) =
      listOrNull ((rewritten edits .schema)^[n] items) := by
  induction n generalizing items with
  | zero => rfl
  | succ n ih =>
    rw [Function.iterate_succ_apply, rewritten_listOrNull h,
      ih ((isObject_rewritten .schema items).trans h), ← Function.iterate_succ_apply]

/-- Every pass splits one list more. -/
theorem iterate_passStep_nullableLists (subject : String) (n depth : Nat) :
    (passStep rule subject)^[n] (nullableLists (n + depth)) =
      listOrNull^[n] (nullableLists depth) := by
  rw [(sound_nullableLists _).iterate_passStep_eq]
  induction n with
  | zero => rw [Nat.zero_add]; rfl
  | succ n ih =>
    rw [Nat.add_right_comm, Function.iterate_succ_apply, rewritten_nullableLists,
      iterate_rewritten_listOrNull n (isObject_nullableLists _), ih, Function.iterate_succ_apply']

theorem iterate_passStep_nullableLists_self (subject : String) (depth : Nat) :
    (passStep rule subject)^[depth] (nullableLists depth) =
      listOrNull^[depth] (nullableLists 0) :=
  iterate_passStep_nullableLists subject depth 0

theorem requests_iterate_listOrNull (n : Nat) {items : Json} (h : items.isObject = true)
    (hnone : requests edits .schema items = []) :
    requests edits .schema (listOrNull^[n] items) = [] := by
  induction n generalizing items with
  | zero => exact hnone
  | succ n ih => exact ih rfl (requests_listOrNull h hnone)

/-- Lists that may be null take one pass for each list. -/
theorem pass_nullableLists_eq_nil_iff (subject : String) (depth n : Nat) :
    pass rule subject ((passStep rule subject)^[n] (nullableLists depth)) = [] ↔ depth ≤ n := by
  have hsettled : pass rule subject ((passStep rule subject)^[depth] (nullableLists depth)) = [] := by
    rw [pass_eq_nil_iff edits_rule subject ((sound_nullableLists depth).iterate subject depth).formed,
      iterate_passStep_nullableLists_self]
    exact requests_iterate_listOrNull depth rfl rfl
  constructor
  · intro hnone
    by_contra hless
    obtain ⟨more, rfl⟩ := Nat.exists_eq_add_of_lt (not_le.1 hless)
    rw [Nat.add_assoc] at hnone
    -- if nothing were asked for, the list at hand would be split already
    have hsame := iterate_passStep_of_settled hnone (Nat.le_succ n)
    have hsplit := iterate_passStep_nullableLists subject (n + 1) more
    rw [Nat.add_right_comm, Nat.add_assoc, hsame, iterate_passStep_nullableLists,
      Function.iterate_succ_apply] at hsplit
    exact absurd (listOrNull_injective.iterate n hsplit) (by simp [listOrNull, nullableLists])
  · intro hle
    rw [iterate_passStep_of_settled hsettled hle]
    exact hsettled

/-- Ten lists are refused, and every smaller number of them is not. -/
theorem settle_nullableLists (subject : String) (depth : Nat) :
    settle rule subject (nullableLists depth) =
      if depth < maxPasses then
        .ok ⟨listOrNull^[depth] (nullableLists 0), pass rule subject (nullableLists depth),
          depth + 1⟩
      else
        .error ⟨subject,
          pass rule subject ((passStep rule subject)^[maxPasses - 1] (nullableLists depth)),
          pass rule subject ((passStep rule subject)^[maxPasses - 2] (nullableLists depth))⟩ := by
  rw [← iterate_passStep_nullableLists_self subject]
  exact settle_eq_of_first
    (fun m hm => mt (pass_nullableLists_eq_nil_iff subject depth m).1 (not_le.2 hm))
    ((pass_nullableLists_eq_nil_iff subject depth depth).2 le_rfl)

/-- Ten lists are refused, although they are settled after ten passes. -/
theorem not_settles_nullableLists :
    (nullableLists 10).WellFormed ∧ (nullableLists 10).Indexable ∧
      pass rule "Test" ((passStep rule "Test")^[10] (nullableLists 10)) = [] ∧
      ¬ ∃ s, settle ((RuleBook.empty.install provider).ruleFor "Test") "Test" (nullableLists 10) =
        .ok s := by
  refine ⟨wellFormed_nullableLists 10, indexable_nullableLists 10,
    (pass_nullableLists_eq_nil_iff "Test" 10 10).2 le_rfl, ?_⟩
  rintro ⟨s, hs⟩
  rw [ruleFor_provider, settle_nullableLists, if_neg (by decide)] at hs
  cases hs

end ResourceCatalog.Standard
