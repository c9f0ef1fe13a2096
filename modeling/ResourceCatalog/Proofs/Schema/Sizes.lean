import Mathlib
import ResourceCatalog.Proofs.Schema.Emptiness

/-!
# The sizes of unified schemas

What two schemas unify to is no larger than both together. Each rule charges what it writes under a
keyword to what the sides have under the keywords that it handles, and the keywords on which both
sides agree to the left side.
-/

namespace ResourceCatalog.Schema

variable {a b unified : Json} {left right out : Members} {key : String}
  {inner : Json → Json → Except UnifyError Json}

/-! ### Settings -/

/-- The size of what is found under a key, and zero if there is nothing. -/
def sizeAt (members : Members) (key : String) : Nat :=
  ((Keyed.get? key members).map Json.size).getD 0

theorem sizeAt_of_get? {setting : Json} (h : Keyed.get? key out = some setting) :
    sizeAt out key = setting.size := by
  rw [sizeAt, h]
  rfl

theorem sizeAt_cons_le (entry : String × Json) (rest : Members) (key : String) :
    sizeAt (entry :: rest) key ≤ (if key = entry.1 then entry.2.size else 0) + sizeAt rest key := by
  rw [sizeAt, Keyed.get?]
  by_cases heq : entry.1 = key
  · rw [if_pos heq, if_pos heq.symm]
    exact Nat.le_add_right _ _
  · rw [if_neg heq, if_neg (Ne.symm heq), Nat.zero_add]
    rfl

theorem sizeMembers_cons (entry : String × Json) (rest : Members) :
    Json.sizeMembers (entry :: rest) = entry.2.size + Json.sizeMembers rest := rfl

/-- What is left without some keys, together with what was there under them. -/
theorem sizeMembers_filter_add_le {keys : List String} (hkeys : keys.Nodup)
    (test : String × Json → Bool) (htest : ∀ entry, test entry = true → entry.1 ∉ keys)
    (members : Members) :
    Json.sizeMembers (members.filter test) + (keys.map (sizeAt members)).sum ≤
      Json.sizeMembers members := by
  induction members with
  | nil =>
    have hzero : (keys.map (sizeAt [])).sum = 0 := List.sum_eq_zero fun n hn => by
      obtain ⟨key, _, rfl⟩ := List.mem_map.1 hn
      rfl
    rw [hzero]
    exact le_rfl
  | cons entry rest ih =>
    have hindicator : (keys.map fun key => if key = entry.1 then entry.2.size else 0).sum =
        if entry.1 ∈ keys then entry.2.size else 0 := by
      rw [← List.sum_toFinset _ hkeys, Finset.sum_ite_eq']
      simp only [List.mem_toFinset]
    have hsum : (keys.map (sizeAt (entry :: rest))).sum ≤
        (if entry.1 ∈ keys then entry.2.size else 0) + (keys.map (sizeAt rest)).sum := by
      have hle := List.sum_le_sum fun key (_ : key ∈ keys) => sizeAt_cons_le entry rest key
      rwa [List.sum_map_add, hindicator] at hle
    rw [List.filter_cons, sizeMembers_cons]
    split
    · next hkept =>
      rw [if_neg (htest entry hkept)] at hsum
      rw [sizeMembers_cons]
      omega
    · split at hsum
      · omega
      · omega

theorem sizeMembers_agreed_add_le (left right : Members) {handled : List String}
    (hhandled : handled.Nodup) :
    Json.sizeMembers (agreed (.obj left) (.obj right) handled) +
      (handled.map (sizeAt left)).sum ≤ Json.sizeMembers left := by
  refine sizeMembers_filter_add_le hhandled _ (fun entry hentry => ?_) left
  have hnot := (Bool.and_eq_true_iff.1 hentry).1
  simpa using hnot

theorem sum_sizeAt_le {keys : List String} (hkeys : keys.Nodup) (members : Members) :
    (keys.map (sizeAt members)).sum ≤ Json.sizeMembers members := by
  have hle := sizeMembers_filter_add_le hkeys (fun _ => false)
    (fun _ h => absurd h Bool.false_ne_true) members
  omega

/-! ### What is written under a keyword -/

theorem sizeMembers_insert_le (key : String) (setting : Json) (members : Members) :
    Json.sizeMembers (Keyed.insert key setting members) ≤
      setting.size + Json.sizeMembers members := by
  induction members with
  | nil => exact le_rfl
  | cons entry rest ih =>
    obtain ⟨k, v⟩ := entry
    rw [Keyed.insert, Json.sizeMembers]
    split
    · rw [Json.sizeMembers]
      omega
    · split
      · exact le_rfl
      · rw [Json.sizeMembers]
        omega

theorem sizeItems_append (xs ys : List Json) :
    Json.sizeItems (xs ++ ys) = Json.sizeItems xs + Json.sizeItems ys := by
  rw [Json.sizeItems_eq, Json.sizeItems_eq, Json.sizeItems_eq, List.map_append, List.sum_append]

theorem sizeItems_joinValues_le (xs ys : List Json) :
    Json.sizeItems (joinValues xs ys) ≤ Json.sizeItems xs + Json.sizeItems ys := by
  rw [joinValues]
  induction ys generalizing xs with
  | nil => exact le_rfl
  | cons y ys ih =>
    rw [List.foldl_cons, Json.sizeItems]
    split
    · have hle := ih xs
      omega
    · have hle := ih (xs ++ [y])
      rw [sizeItems_append, Json.sizeItems, Json.sizeItems] at hle
      omega

theorem sizeMembers_joinEnums_le (left right out : Members) :
    Json.sizeMembers (joinEnums (.obj left) (.obj right) out) ≤
      sizeAt left "enum" + sizeAt right "enum" + Json.sizeMembers out := by
  rw [joinEnums.eq_def]
  split
  · next xs ys hxs hys =>
    have hinsert := sizeMembers_insert_le "enum" (.arr (joinValues xs ys)) out
    have hjoined := sizeItems_joinValues_le xs ys
    rw [sizeAt_of_get? hxs, sizeAt_of_get? hys]
    rw [Json.size] at hinsert ⊢
    rw [Json.size]
    omega
  · exact Nat.le_add_left _ _

theorem sizeMembers_widen_le (left right out : Members) (key : String) (bound : Bound) :
    Json.sizeMembers (widen (.obj left) (.obj right) key bound out) ≤
      sizeAt left key + Json.sizeMembers out := by
  rw [widen.eq_def]
  split
  · next x y hx _ =>
    rw [sizeAt_of_get? hx]
    exact sizeMembers_insert_le key _ out
  · exact Nat.le_add_left _ _

theorem sizeMembers_joinPatterns_le (left right out : Members) :
    Json.sizeMembers (joinPatterns (.obj left) (.obj right) out) ≤
      sizeAt left "pattern" + Json.sizeMembers out := by
  rw [joinPatterns.eq_def]
  split
  · next x y hx _ =>
    rw [sizeAt_of_get? hx]
    exact sizeMembers_insert_le "pattern" _ out
  · exact Nat.le_add_left _ _

theorem size_str (text : String) : (Json.str text).size = 1 := rfl

theorem length_le_sizeItems (items : List Json) : items.length ≤ Json.sizeItems items := by
  induction items with
  | nil => exact le_rfl
  | cons item rest ih =>
    have hpos := Json.size_pos item
    rw [Json.sizeItems, List.length_cons]
    omega

theorem size_strings (texts : List String) : (Json.strings texts).size = 1 + texts.length := by
  have hall : texts.map (Json.size ∘ Json.str) = List.replicate texts.length 1 := List.map_const'
  rw [Json.strings, Json.size_arr, List.map_map, hall, List.sum_replicate, smul_eq_mul, mul_one]

theorem sizeMembers_withRequired_le {required : List String}
    (h : required.Sublist (requiredNames (.obj left))) (out : Members) :
    Json.sizeMembers (withRequired required out) ≤
      sizeAt left "required" + Json.sizeMembers out := by
  rw [withRequired]
  split
  · exact Nat.le_add_left _ _
  · next hne =>
    obtain ⟨name, hname⟩ := List.exists_mem_of_ne_nil required fun heq => hne (heq ▸ rfl)
    obtain ⟨items, hitems, _⟩ := mem_requiredNames (h.subset hname)
    have hnames : (requiredNames (.obj left)).length ≤ items.length := by
      rw [requiredNames, hitems]
      exact List.length_filterMap_le _ _
    have hinsert := sizeMembers_insert_le "required" (Json.strings required) out
    have hlength := h.length_le
    have hsize := length_le_sizeItems items
    rw [size_strings] at hinsert
    rw [sizeAt_of_get? hitems, Json.size]
    omega

/-! ### Parts that are unified -/

/-- A unification makes nothing larger than its sides together, if these have a property. -/
def NoLarger (P : Json → Prop) (inner : Json → Json → Except UnifyError Json) : Prop :=
  ∀ {x y z : Json}, P x → P y → inner x y = .ok z → P z ∧ z.size ≤ x.size + y.size

section NoLarger

variable {P : Json → Prop}

theorem NoLarger.foldlM (h : NoLarger P inner) {first unified : Json} {rest : List Json}
    (hfirst : P first) (hrest : ∀ schema ∈ rest, P schema)
    (hunified : rest.foldlM inner first = .ok unified) :
    unified.size ≤ first.size + (rest.map Json.size).sum := by
  induction rest generalizing first with
  | nil =>
    obtain rfl := Except.ok.inj hunified
    exact le_rfl
  | cons next rest ih =>
    rw [List.foldlM_cons] at hunified
    obtain ⟨hnext, hrest⟩ := List.forall_mem_cons.1 hrest
    cases hjoined : inner first next with
    | error e =>
      rw [hjoined] at hunified
      cases hunified
    | ok joined =>
      rw [hjoined] at hunified
      obtain ⟨hP, hsize⟩ := h hfirst hnext hjoined
      have hle := ih hP hrest hunified
      rw [List.map_cons, List.sum_cons]
      omega

theorem NoLarger.unifyAllWith (h : NoLarger P inner) {schemas : List Json} {unified : Json}
    (hall : ∀ schema ∈ schemas, P schema) (hunified : unifyAllWith inner schemas = .ok unified) :
    unified.size ≤ (schemas.map Json.size).sum := by
  cases schemas with
  | nil => cases hunified
  | cons first rest =>
    obtain ⟨hfirst, hrest⟩ := List.forall_mem_cons.1 hall
    rw [List.map_cons, List.sum_cons]
    exact h.foldlM hfirst hrest hunified

/-- Each shared property is charged to both sides, and each of the others to its own. -/
theorem NoLarger.unifyShared (h : NoLarger P inner) {others merged : Members}
    (hleft : ∀ entry ∈ left, P entry.2) (hothers : ∀ entry ∈ others, P entry.2)
    (hmerged : unifyShared inner others left = .ok merged) :
    Json.sizeMembers merged ≤
      Json.sizeMembers left + ((Keyed.keys left).map (sizeAt others)).sum := by
  have hpairs := unifyShared_eq_ok hmerged
  clear hmerged
  induction hpairs with
  | nil => exact Nat.zero_le _
  | @cons old new olds news hfirst hrest ih =>
    obtain ⟨hold, holds⟩ := List.forall_mem_cons.1 hleft
    have hle := ih holds
    have hentry : new.2.size ≤ old.2.size + sizeAt others old.1 := by
      cases hother : Keyed.get? old.1 others with
      | none =>
        rw [hother] at hfirst
        rw [show new.2 = old.2 from hfirst.2]
        exact Nat.le_add_right _ _
      | some other =>
        rw [hother] at hfirst
        rw [sizeAt_of_get? hother]
        exact (h hold (hothers _ (Keyed.mem_of_get? hother)) hfirst.2).2
    rw [sizeMembers_cons, sizeMembers_cons, Keyed.keys, List.map_cons, List.map_cons, List.sum_cons]
    rw [Keyed.keys] at hle
    omega

end NoLarger

theorem sizeMembers_addMissing_le (properties new : Members) :
    Json.sizeMembers (addMissing properties new) ≤ Json.sizeMembers properties +
      Json.sizeMembers (new.filter fun entry => !properties.contains entry.1) := by
  rw [addMissing]
  induction new generalizing properties with
  | nil => exact le_rfl
  | cons entry rest ih =>
    rw [List.foldl_cons, List.filter_cons]
    cases hthere : properties.contains entry.1 with
    | true =>
      rw [if_pos rfl, Bool.not_true, if_neg Bool.false_ne_true]
      exact ih properties
    | false =>
      rw [if_neg Bool.false_ne_true, Bool.not_false, if_pos rfl, sizeMembers_cons]
      have hle := ih (properties.insert entry.1 entry.2)
      have hinsert := sizeMembers_insert_le entry.1 entry.2 properties
      -- what is there stays there, so no more is missing than before
      have hmissing : Json.sizeMembers (rest.filter fun other =>
          !(properties.insert entry.1 entry.2).contains other.1) ≤
          Json.sizeMembers (rest.filter fun other => !properties.contains other.1) := by
        rw [Json.sizeMembers_eq, Json.sizeMembers_eq]
        refine ((List.monotone_filter_right rest fun other hother => ?_).map _).sum_le_sum
          fun _ _ => Nat.zero_le _
        rw [Bool.not_eq_true'] at hother ⊢
        rw [← Bool.not_eq_true, Keyed.contains_iff_mem_keys] at hother ⊢
        exact fun hmem => hother (Keyed.mem_keys_insert.2 (Or.inr hmem))
      omega

theorem NoLarger.unifiedProperties {P : Json → Prop} (h : NoLarger P inner)
    {others merged : Members} (hnodup : (Keyed.keys left).Nodup)
    (hleft : ∀ entry ∈ left, P entry.2) (hothers : ∀ entry ∈ others, P entry.2)
    (hmerged : Schema.unifyShared inner others left = .ok merged) :
    Json.sizeMembers (addMissing merged others) ≤
      Json.sizeMembers left + Json.sizeMembers others := by
  have hkeys : Keyed.keys merged = Keyed.keys left :=
    keys_eq_of_sameKeys (unifyShared_eq_ok hmerged)
  have hshared := h.unifyShared hleft hothers hmerged
  have hmissing := sizeMembers_addMissing_le merged others
  have hothersSize := sizeMembers_filter_add_le hnodup
    (fun entry => !merged.contains entry.1) (fun entry hentry hmem => ?_) others
  · omega
  · rw [← hkeys, ← Keyed.contains_iff_mem_keys] at hmem
    rw [hmem] at hentry
    exact Bool.false_ne_true hentry

theorem ascending_properties {schema : Json} (h : schema.WellFormed) :
    Keyed.Ascending (properties schema) := by
  rw [properties]
  cases hmember : schema.member? "properties" with
  | none => exact List.Pairwise.nil
  | some setting =>
    have hsetting := wellFormed_of_encloses h
      (.single (child_of_mem_settings (mem_settings_of_member? hmember)))
    cases setting with
    | obj members => exact (Json.wellFormed_obj.1 hsetting).1
    | _ => exact List.Pairwise.nil

/-! ### The rules -/

theorem size_unifyStrings_le (left right : Members) :
    (unifyStrings (.obj left) (.obj right)).size ≤
      (Json.obj left).size + (Json.obj right).size := by
  have hagreed := sizeMembers_agreed_add_le left right (show textKeys.Nodup by decide)
  have hright := sum_sizeAt_le (List.nodup_singleton _ : ["enum"].Nodup) right
  rw [textKeys] at hagreed
  simp only [List.map_cons, List.map_nil, List.sum_cons, List.sum_nil] at hagreed hright
  rw [unifyStrings, Json.size, Json.size, Json.size]
  grw [sizeMembers_joinPatterns_le, sizeMembers_widen_le, sizeMembers_widen_le,
    sizeMembers_joinEnums_le]
  omega

theorem size_unifyNumbers_le (left right : Members) :
    (unifyNumbers (.obj left) (.obj right)).size ≤
      (Json.obj left).size + (Json.obj right).size := by
  have hagreed := sizeMembers_agreed_add_le left right (show numberKeys.Nodup by decide)
  have hright := sum_sizeAt_le (List.nodup_singleton _ : ["enum"].Nodup) right
  rw [numberKeys] at hagreed
  simp only [List.map_cons, List.map_nil, List.sum_cons, List.sum_nil] at hagreed hright
  rw [unifyNumbers, Json.size, Json.size, Json.size]
  grw [sizeMembers_widen_le, sizeMembers_widen_le, sizeMembers_joinEnums_le, sizeMembers_insert_le]
  rw [size_str]
  omega

theorem size_unifyOpenObjects_le (left right : Members) :
    (unifyOpenObjects (.obj left) (.obj right)).size ≤
      (Json.obj left).size + (Json.obj right).size := by
  have hagreed := sizeMembers_agreed_add_le left right (show
    ["properties", "additionalProperties", "patternProperties", "required"].Nodup by decide)
  rw [unifyOpenObjects, Json.size, Json.size, Json.size]
  grw [sizeMembers_insert_le]
  rw [size_str]
  omega

theorem size_agreed_le (left right : Members) :
    (Json.obj (agreed (.obj left) (.obj right) [])).size ≤
      (Json.obj left).size + (Json.obj right).size := by
  have hagreed := sizeMembers_agreed_add_le left right List.nodup_nil
  rw [Json.size, Json.size, Json.size]
  omega

section NoLarger

variable {P : Json → Prop} (h : NoLarger P inner)

include h

theorem NoLarger.arrays {unified : Json}
    (hleft : ∀ {item}, Keyed.get? "items" left = some item → P item)
    (hright : ∀ {item}, Keyed.get? "items" right = some item → P item)
    (hunified : unifyArrays inner (.obj left) (.obj right) = .ok unified) :
    unified.size ≤ (Json.obj left).size + (Json.obj right).size := by
  have hagreed := sizeMembers_agreed_add_le left right (show arrayKeys.Nodup by decide)
  have hrightSize := sum_sizeAt_le (List.nodup_singleton _ : ["items"].Nodup) right
  have hkeys : arrayKeys = ["items", "minItems", "maxItems"] := rfl
  simp only [hkeys, List.map_cons, List.map_nil, List.sum_cons, List.sum_nil] at hagreed hrightSize
  rcases unifyArrays_eq_ok hunified with ⟨_, rfl⟩ | ⟨x, y, z, hx, hy, hz, rfl⟩
  · rw [Json.size, Json.size, Json.size, hkeys]
    grw [sizeMembers_widen_le, sizeMembers_widen_le]
    omega
  · have hsize := (h (hleft hx) (hright hy) hz).2
    rw [← sizeAt_of_get? hx, ← sizeAt_of_get? hy] at hsize
    rw [Json.size, Json.size, Json.size, hkeys]
    grw [sizeMembers_insert_le, sizeMembers_widen_le, sizeMembers_widen_le]
    omega

omit h in
theorem sizeMembers_properties_le (members : Members) :
    Json.sizeMembers (properties (.obj members)) ≤ sizeAt members "properties" := by
  rw [properties, sizeAt, Json.member?]
  cases Keyed.get? "properties" members with
  | none => exact le_rfl
  | some setting =>
    cases setting with
    | obj entries => exact Nat.le_add_left _ _
    | _ => exact Nat.zero_le _

theorem NoLarger.records {unified : Json} (hnodup : (Keyed.keys (properties (.obj left))).Nodup)
    (hleft : ∀ entry ∈ properties (.obj left), P entry.2)
    (hright : ∀ entry ∈ properties (.obj right), P entry.2)
    (hunified : unifyRecords inner (.obj left) (.obj right) = .ok unified) :
    unified.size ≤ (Json.obj left).size + (Json.obj right).size := by
  obtain ⟨merged, hmerged, rfl⟩ := unifyRecords_eq_ok hunified
  have hagreed := sizeMembers_agreed_add_le left right (show recordKeys.Nodup by decide)
  have hrightSize := sum_sizeAt_le (List.nodup_singleton _ : ["properties"].Nodup) right
  have hproperties := h.unifiedProperties hnodup hleft hright hmerged
  have hleftOwn := sizeMembers_properties_le left
  have hrightOwn := sizeMembers_properties_le right
  have hkeys : recordKeys = ["properties", "required"] := rfl
  simp only [hkeys, List.map_cons, List.map_nil, List.sum_cons, List.sum_nil] at hagreed hrightSize
  rw [Json.size, Json.size, Json.size, hkeys]
  grw [sizeMembers_withRequired_le List.filter_sublist, sizeMembers_insert_le]
  rw [Json.size]
  omega

omit h in
theorem sum_mapValues_le (members : Members) : ((mapValues (.obj members)).map Json.size).sum ≤
    sizeAt members "additionalProperties" + sizeAt members "patternProperties" := by
  rw [mapValues, List.map_append, List.sum_append]
  refine Nat.add_le_add ?_ ?_
  · split
    · next hsetting =>
      rw [sizeAt_of_get? hsetting]
      exact le_rfl
    · next hsetting =>
      rw [sizeAt_of_get? hsetting]
      exact le_rfl
    · exact Nat.zero_le _
  · split
    · next patterns hsetting =>
      rw [sizeAt_of_get? hsetting, Json.size_obj, Keyed.values, List.map_map]
      exact Nat.le_add_left _ _
    · exact Nat.zero_le _

theorem NoLarger.maps {unified : Json} (hleft : ∀ value ∈ mapValues (.obj left), P value)
    (hright : ∀ value ∈ mapValues (.obj right), P value)
    (hunified : unifyMaps inner (.obj left) (.obj right) = .ok unified) :
    unified.size ≤ (Json.obj left).size + (Json.obj right).size := by
  obtain ⟨values, hvalues, rfl⟩ := unifyMaps_eq_ok hunified
  have hagreed := sizeMembers_agreed_add_le left right (show mapKeys.Nodup by decide)
  have hrightSize := sum_sizeAt_le (show mapKeys.Nodup by decide) right
  have hsize := h.unifyAllWith
    (fun value hvalue => (List.mem_append.1 hvalue).elim (hleft value) (hright value)) hvalues
  have hleftOwn := sum_mapValues_le left
  have hrightOwn := sum_mapValues_le right
  have hkeys : mapKeys = ["additionalProperties", "patternProperties"] := rfl
  simp only [hkeys, List.map_cons, List.map_nil, List.sum_cons, List.sum_nil] at hagreed hrightSize
  rw [List.map_append, List.sum_append] at hsize
  rw [Json.size, Json.size, Json.size, hkeys]
  grw [sizeMembers_insert_le]
  omega

theorem NoLarger.unifyKinds {unified : Json} (ha : a.WellFormed) (hb : b.WellFormed)
    (hleft : ∀ part, Part a part ∨ part ∈ mapValues a → P part)
    (hright : ∀ part, Part b part ∨ part ∈ mapValues b → P part)
    (hunified : unifyKinds inner a b = .ok unified) : unified.size ≤ a.size + b.size := by
  cases byRule_of_unifyKinds ha hb hunified with
  | references => exact size_agreed_le _ _
  | any =>
    have hpos := a.size_pos
    rw [Json.size_obj, List.map_nil, List.sum_nil]
    omega
  | strings => exact size_unifyStrings_le _ _
  | numbers => exact size_unifyNumbers_le _ _
  | agreed => exact size_agreed_le _ _
  | arrays _ hunified =>
    exact h.arrays (fun hitem => hleft _ (Or.inl (.of_items hitem)))
      (fun hitem => hright _ (Or.inl (.of_items hitem))) hunified
  | records _ hunified =>
    exact h.records (ascending_properties ha).nodup_keys
      (fun entry hentry => hleft _ (Or.inl (.of_property hentry)))
      (fun entry hentry => hright _ (Or.inl (.of_property hentry))) hunified
  | maps _ hunified =>
    exact h.maps (fun value hvalue => hleft value (Or.inr hvalue))
      (fun value hvalue => hright value (Or.inr hvalue)) hunified
  | openObjects => exact size_unifyOpenObjects_le _ _

end NoLarger

/-! ### Unification -/

theorem size_unify_le (ha : a.WellFormed) (hb : b.WellFormed) (h : unify a b = .ok unified) :
    unified.size ≤ a.size + b.size := by
  -- on the depth: the values of maps are unified one after the other and need not get smaller
  induction hn : max a.depth b.depth using Nat.strong_induction_on generalizing a b unified with
  | _ n ih =>
    subst hn
    rw [unify_eq, unifyWith] at h
    split at h
    · obtain rfl := Except.ok.inj h
      exact Nat.le_add_right _ _
    have hinner : NoLarger (fun value => value.WellFormed ∧ value.depth < max a.depth b.depth)
        unify := by
      intro x y z hx hy hz
      refine ⟨⟨wellFormed_unify hx.1 hy.1 hz, ?_⟩, ih _ (max_lt hx.2 hy.2) hx.1 hy.1 hz rfl⟩
      exact NoDeeper.lt (noDeeper_unify _) le_rfl hx.2 hy.2 hz
    have hparts : ∀ {side}, side.WellFormed → ∀ part, Part side part ∨ part ∈ mapValues side →
        part.WellFormed ∧ part.depth < side.depth := by
      rintro side hside part (hpart | hvalue)
      · exact ⟨wellFormed_of_encloses hside hpart.encloses, hpart.depth_lt⟩
      · refine ⟨?_, depth_lt_of_mem_mapValues hvalue⟩
        rcases Part.of_mapValues hvalue with hpart | rfl
        · exact wellFormed_of_encloses hside hpart.encloses
        · exact filled_any.wellFormed
    refine hinner.unifyKinds ha hb (fun part hpart => ?_) (fun part hpart => ?_) h
    · exact ⟨(hparts ha part hpart).1, lt_max_of_lt_left (hparts ha part hpart).2⟩
    · exact ⟨(hparts hb part hpart).1, lt_max_of_lt_right (hparts hb part hpart).2⟩

theorem size_unifyAll_le {schemas : List Json} (hall : ∀ schema ∈ schemas, schema.WellFormed)
    (h : unifyAll schemas = .ok unified) : unified.size ≤ (schemas.map Json.size).sum := by
  have hinner : NoLarger Json.WellFormed unify := fun hx hy hz =>
    ⟨wellFormed_unify hx hy hz, size_unify_le hx hy hz⟩
  exact hinner.unifyAllWith hall h

end ResourceCatalog.Schema
