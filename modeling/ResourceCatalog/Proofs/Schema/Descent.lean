import Mathlib
import ResourceCatalog.Proofs.Schema.Unification

/-!
# Unification comes to an end

The recursion of unification is bounded by the depth of the two sides, and here the bound is shown
to be idle: `unify` obeys the rules with itself for what they come to. Each unification that they
come to is of schemas nested less deeply, also where a map unifies what another unification has
made, since what the rules write is nested no deeper than the sides. `Written` says where all of
that comes from, once for all rules.
-/

namespace ResourceCatalog.Schema

variable {a b : Json} {inner outer : Json → Json → Except UnifyError Json}

/-! ### Parts are nested less deeply -/

/-- The keywords of a schema with their settings. -/
def settings (schema : Json) : Members := schema.asObject?.getD []

section Parts

variable {schema setting : Json} {entry : String × Json}

theorem mem_settings_of_member? {key : String} (h : schema.member? key = some setting) :
    (key, setting) ∈ settings schema := by
  cases schema with
  | obj members => exact Keyed.mem_of_get? h
  | _ => cases h

theorem exists_mem_settings (h : (kind schema).isTyped = true) :
    ∃ entry, entry ∈ settings schema := by
  obtain ⟨members, rfl, _⟩ := exists_plain h
  exact List.exists_mem_of_ne_nil _ (ne_nil_of_isTyped h)

theorem depth_lt_of_mem_settings (h : entry ∈ settings schema) : entry.2.depth < schema.depth := by
  cases schema with
  | obj members => exact depthMembers_le.1 le_rfl entry h
  | _ => exact absurd h List.not_mem_nil

theorem depth_lt_of_member? {key : String} (h : schema.member? key = some setting) :
    setting.depth < schema.depth := depth_lt_of_mem_settings (mem_settings_of_member? h)

theorem depth_lt_of_mem_properties (h : entry ∈ properties schema) :
    entry.2.depth + 1 < schema.depth := by
  rw [properties] at h
  cases hsetting : schema.member? "properties" with
  | none =>
    rw [hsetting] at h
    exact absurd h List.not_mem_nil
  | some setting =>
    rw [hsetting] at h
    have hdepth := depth_lt_of_member? hsetting
    cases setting with
    | obj members =>
      have hentry : entry.2.depth < (Json.obj members).depth := depthMembers_le.1 le_rfl entry h
      omega
    | _ => exact absurd h List.not_mem_nil

theorem depth_lt_of_mem_mapValues {value : Json} (h : value ∈ mapValues schema) :
    value.depth < schema.depth := by
  rw [mapValues, List.mem_append] at h
  rcases h with h | h
  · split at h
    · next hsetting =>
      obtain rfl := List.mem_singleton.1 h
      exact Nat.zero_lt_of_lt (depth_lt_of_member? hsetting)
    · next members hsetting =>
      obtain rfl := List.mem_singleton.1 h
      exact depth_lt_of_member? hsetting
    · exact absurd h List.not_mem_nil
  · split at h
    · next patterns hsetting =>
      obtain ⟨entry, hentry, rfl⟩ := List.mem_map.1 h
      have hvalue : entry.2.depth < (Json.obj patterns).depth :=
        depthMembers_le.1 le_rfl entry hentry
      exact lt_trans hvalue (depth_lt_of_member? hsetting)
    · exact absurd h List.not_mem_nil

end Parts

/-! ### What the rules write -/

/-- The keywords under which the rules join or widen the settings of both sides. -/
def joinedKeys : List String :=
  ["type", "enum", "minLength", "maxLength", "pattern", "minimum", "maximum", "minItems",
    "maxItems", "required"]

/-- The keywords that the rules for two schemas write, with their settings: those of either side,
and what is made of them. -/
inductive Written (inner : Json → Json → Except UnifyError Json) (a b : Json) : String × Json → Prop
  | kept {entry : String × Json} (h : entry ∈ settings a) : Written inner a b entry
  | scalar {key : String} {entry : String × Json} {value : Json} (hkey : key ∈ joinedKeys)
      (h : entry ∈ settings a) (harray : value.isArray = false) (hobject : value.isObject = false) :
      Written inner a b (key, value)
  | array {key : String} {xs values : List Json} (hkey : key ∈ joinedKeys)
      (h : (key, .arr xs) ∈ settings a)
      (hvalues : ∀ value ∈ values, value ∈ xs ∨ ∃ ys, (key, .arr ys) ∈ settings b ∧ value ∈ ys) :
      Written inner a b (key, .arr values)
  | items {x y z : Json} (hx : ("items", x) ∈ settings a) (hy : ("items", y) ∈ settings b)
      (h : inner x y = .ok z) : Written inner a b ("items", z)
  | declared {entry : String × Json} {members : Members} (h : entry ∈ settings a)
      (hmembers : ∀ new ∈ members, new ∈ properties a ∨ new ∈ properties b ∨
        ∃ x ∈ properties a, ∃ y ∈ properties b, inner x.2 y.2 = .ok new.2) :
      Written inner a b ("properties", .obj members)
  | values {value : Json} (h : unifyAllWith inner (mapValues a ++ mapValues b) = .ok value) :
      Written inner a b ("additionalProperties", value)

/-- Keywords whose settings the rules for two schemas have written. -/
def AllWritten (inner : Json → Json → Except UnifyError Json) (a b : Json) (out : Members) : Prop :=
  ∀ entry ∈ out, Written inner a b entry

section AllWritten

variable {out : Members}

theorem allWritten_agreed (inner : Json → Json → Except UnifyError Json) (a b : Json)
    (handled : List String) : AllWritten inner a b (agreed a b handled) := by
  intro entry hentry
  rw [agreed.eq_def] at hentry
  split at hentry
  · exact .kept (List.mem_filter.1 hentry).1
  · exact absurd hentry List.not_mem_nil

theorem AllWritten.insert (h : AllWritten inner a b out) {key : String} {setting : Json}
    (hsetting : Written inner a b (key, setting)) :
    AllWritten inner a b (Keyed.insert key setting out) := by
  intro entry hentry
  rcases Keyed.mem_insert hentry with rfl | hentry
  · exact hsetting
  · exact h entry hentry

theorem AllWritten.joinEnums (h : AllWritten inner a b out) :
    AllWritten inner a b (joinEnums a b out) := by
  rw [Schema.joinEnums.eq_def]
  split
  · next xs ys hxs hys =>
    refine h.insert (.array (by decide) (mem_settings_of_member? hxs) fun value hvalue => ?_)
    exact (mem_joinValues hvalue).imp_right fun hmem => ⟨ys, mem_settings_of_member? hys, hmem⟩
  · exact h

theorem AllWritten.widen (h : AllWritten inner a b out) {key : String} (hkey : key ∈ joinedKeys)
    (bound : Bound) : AllWritten inner a b (widen a b key bound out) := by
  rw [Schema.widen.eq_def]
  split
  · next x y hx hy => exact h.insert (.scalar hkey (mem_settings_of_member? hx) rfl rfl)
  · exact h

theorem AllWritten.joinPatterns (h : AllWritten inner a b out) :
    AllWritten inner a b (joinPatterns a b out) := by
  rw [Schema.joinPatterns.eq_def]
  split
  · next x y hx hy => exact h.insert (.scalar (by decide) (mem_settings_of_member? hx) rfl rfl)
  · exact h

theorem AllWritten.withRequired (h : AllWritten inner a b out) {required : List String}
    (hrequired : ∀ name ∈ required, name ∈ requiredNames a) :
    AllWritten inner a b (withRequired required out) := by
  rw [Schema.withRequired]
  split
  · exact h
  · next hne =>
    obtain ⟨name, hname⟩ := List.exists_mem_of_ne_nil required fun heq => hne (heq ▸ rfl)
    obtain ⟨items, hitems, _⟩ := mem_requiredNames (hrequired name hname)
    refine h.insert (.array (by decide) (mem_settings_of_member? hitems)
      fun value hvalue => Or.inl ?_)
    obtain ⟨other, hother, rfl⟩ := List.mem_map.1 hvalue
    obtain ⟨items', hitems', hmem⟩ := mem_requiredNames (hrequired other hother)
    obtain rfl := Json.arr.inj (Option.some.inj (hitems.symm.trans hitems'))
    exact hmem

end AllWritten

/-! ### Schemas and properties one after the other -/

/-- What is unified from the left has what the schemas have, if the results of unification do. -/
theorem foldlM_preserves {P : Json → Prop}
    (hinner : ∀ {x y z}, P x → P y → inner x y = .ok z → P z) {first unified : Json}
    {rest : List Json} (hfirst : P first) (hrest : ∀ schema ∈ rest, P schema)
    (h : rest.foldlM inner first = .ok unified) : P unified := by
  induction rest generalizing first with
  | nil =>
    obtain rfl := Except.ok.inj h
    exact hfirst
  | cons next rest ih =>
    rw [List.foldlM_cons] at h
    obtain ⟨hnext, hrest⟩ := List.forall_mem_cons.1 hrest
    cases hjoined : inner first next with
    | error e =>
      rw [hjoined] at h
      cases h
    | ok joined =>
      rw [hjoined] at h
      exact ih (hinner hfirst hnext hjoined) hrest h

theorem unifyAllWith_preserves {P : Json → Prop}
    (hinner : ∀ {x y z}, P x → P y → inner x y = .ok z → P z) {unified : Json}
    {schemas : List Json} (hall : ∀ schema ∈ schemas, P schema)
    (h : unifyAllWith inner schemas = .ok unified) : P unified := by
  cases schemas with
  | nil => cases h
  | cons first rest =>
    obtain ⟨hfirst, hrest⟩ := List.forall_mem_cons.1 hall
    exact foldlM_preserves hinner hfirst hrest h

/-- The properties of two records, unified. -/
theorem mem_unifiedProperties {left others merged : Members}
    (h : unifyShared inner others left = .ok merged) {new : String × Json}
    (hnew : new ∈ addMissing merged others) : new ∈ left ∨ new ∈ others ∨
      ∃ x ∈ left, ∃ y ∈ others, inner x.2 y.2 = .ok new.2 := by
  rcases mem_addMissing hnew with hmerged | hother
  · obtain ⟨old, hold, hname, hpart⟩ :=
      Json.exists_mem_of_forall₂ (unifyShared_eq_ok h).flip hmerged
    cases hother : Keyed.get? old.1 others with
    | none =>
      rw [hother] at hpart
      exact Or.inl (Prod.ext hname hpart.symm ▸ hold)
    | some other =>
      rw [hother] at hpart
      exact Or.inr (Or.inr ⟨old, hold, _, Keyed.mem_of_get? hother, hpart⟩)
  · exact Or.inr (Or.inl hother)

theorem written_unifyKinds {unified : Json} (h : unifyKinds inner a b = .ok unified) :
    ∃ out, unified = .obj out ∧ AllWritten inner a b out := by
  have hopen : ∀ {k}, kind a = k → k.isTyped = true →
      ∃ out, unifyOpenObjects a b = .obj out ∧ AllWritten inner a b out := by
    intro k hk htyped
    obtain ⟨entry, hentry⟩ := exists_mem_settings (hk ▸ htyped)
    exact ⟨_, rfl, (allWritten_agreed _ _ _ _).insert (.scalar (by decide) hentry rfl rfl)⟩
  rw [unifyKinds.eq_def] at h
  split at h
  case h_3 =>
    split at h
    · exact ⟨_, (Except.ok.inj h).symm, allWritten_agreed _ _ _ _⟩
    · cases h
  case h_6 | h_7 => exact ⟨[], (Except.ok.inj h).symm, fun _ hmem => absurd hmem List.not_mem_nil⟩
  case h_8 =>
    refine ⟨_, (Except.ok.inj h).symm, AllWritten.joinPatterns ?_⟩
    exact ((allWritten_agreed _ _ _ _).joinEnums.widen (by decide) _).widen (by decide) _
  case h_9 hk _ =>
    have htyped : (kind a).isTyped = true := hk ▸ rfl
    obtain ⟨entry, hentry⟩ := exists_mem_settings htyped
    refine ⟨_, (Except.ok.inj h).symm,
      AllWritten.widen (AllWritten.widen ?_ (by decide) _) (by decide) _⟩
    exact ((allWritten_agreed _ _ _ _).insert (.scalar (by decide) hentry rfl rfl)).joinEnums
  case h_10 | h_11 => exact ⟨_, (Except.ok.inj h).symm, allWritten_agreed _ _ _ _⟩
  case h_12 =>
    have hbounds : AllWritten inner a b (widen a b "maxItems" .upper (widen a b "minItems" .lower
        (agreed a b arrayKeys))) :=
      ((allWritten_agreed _ _ _ _).widen (by decide) _).widen (by decide) _
    rcases unifyArrays_eq_ok h with ⟨_, rfl⟩ | ⟨x, y, z, hx, hy, hz, rfl⟩
    · exact ⟨_, rfl, hbounds⟩
    · exact ⟨_, rfl, hbounds.insert (.items (mem_settings_of_member? hx)
        (mem_settings_of_member? hy) hz)⟩
  case h_13 hk _ =>
    have htyped : (kind a).isTyped = true := hk ▸ rfl
    obtain ⟨entry, hentry⟩ := exists_mem_settings htyped
    obtain ⟨merged, hmerged, rfl⟩ := unifyRecords_eq_ok h
    refine ⟨_, rfl, AllWritten.withRequired ?_ fun name hname => (List.mem_filter.1 hname).1⟩
    exact (allWritten_agreed _ _ _ _).insert
      (.declared hentry fun new hnew => mem_unifiedProperties hmerged hnew)
  case h_14 =>
    obtain ⟨values, hvalues, rfl⟩ := unifyMaps_eq_ok h
    exact ⟨_, rfl, (allWritten_agreed _ _ _ _).insert (.values hvalues)⟩
  case h_17 | h_18 | h_19 | h_20 | h_21 =>
    obtain rfl := Except.ok.inj h
    exact hopen ‹_› rfl
  all_goals cases h

/-! ### Results are nested no deeper -/

/-- A unification does not nest deeper than its sides, if these are nested less deeply than a
bound. -/
def NoDeeper (bound : Nat) (inner : Json → Json → Except UnifyError Json) : Prop :=
  ∀ {x y z : Json}, max x.depth y.depth < bound → inner x y = .ok z →
    z.depth ≤ max x.depth y.depth

section NoDeeper

variable {bound : Nat}

theorem NoDeeper.lt (h : NoDeeper bound inner) {x y z : Json} {limit : Nat} (hlimit : limit ≤ bound)
    (hx : x.depth < limit) (hy : y.depth < limit) (hz : inner x y = .ok z) : z.depth < limit :=
  lt_of_le_of_lt (h (lt_of_lt_of_le (max_lt hx hy) hlimit) hz) (max_lt hx hy)

theorem Written.depth_lt (h : NoDeeper bound inner) (hbound : max a.depth b.depth ≤ bound)
    {entry : String × Json} (hentry : Written inner a b entry) :
    entry.2.depth < max a.depth b.depth := by
  have hleft : ∀ {entry}, entry ∈ settings a → entry.2.depth < max a.depth b.depth :=
    fun hentry => lt_max_of_lt_left (depth_lt_of_mem_settings hentry)
  have hright : ∀ {entry}, entry ∈ settings b → entry.2.depth < max a.depth b.depth :=
    fun hentry => lt_max_of_lt_right (depth_lt_of_mem_settings hentry)
  cases hentry with
  | kept hentry => exact hleft hentry
  | @scalar _ _ value _ hentry harray hobject =>
    have hpos := Nat.zero_lt_of_lt (hleft hentry)
    cases value with
    | arr _ => cases harray
    | obj _ => cases hobject
    | _ => exact hpos
  | @array key xs values _ hentry hvalues =>
    refine lt_of_le_of_lt (depthItems_le.2 fun value hvalue => ?_)
      (Nat.sub_one_lt_of_lt (hleft hentry))
    have hitem : ∀ {xs}, value ∈ xs → value.depth < (Json.arr xs).depth :=
      fun hmem => depthItems_le.1 le_rfl value hmem
    rcases hvalues value hvalue with hmem | ⟨ys, hys, hmem⟩
    · exact lt_of_lt_of_le (hitem hmem) (Nat.le_sub_one_of_lt (hleft hentry))
    · exact lt_of_lt_of_le (hitem hmem) (Nat.le_sub_one_of_lt (hright hys))
  | items hx hy hz => exact h.lt hbound (hleft hx) (hright hy) hz
  | @declared entry members hentry hmembers =>
    refine lt_of_le_of_lt (depthMembers_le.2 fun new hnew => ?_)
      (Nat.sub_one_lt_of_lt (hleft hentry))
    have hof : ∀ {entry}, entry ∈ properties a ∨ entry ∈ properties b →
        entry.2.depth < max a.depth b.depth - 1 := by
      rintro entry (hmem | hmem)
      · have hdepth := depth_lt_of_mem_properties hmem
        omega
      · have hdepth := depth_lt_of_mem_properties hmem
        omega
    rcases hmembers new hnew with hmem | hmem | ⟨x, hx, y, hy, hz⟩
    · exact hof (Or.inl hmem)
    · exact hof (Or.inr hmem)
    · exact h.lt (by omega) (hof (Or.inl hx)) (hof (Or.inr hy)) hz
  | values hvalues =>
    refine unifyAllWith_preserves (P := fun value => value.depth < max a.depth b.depth)
      (fun hx hy hz => h.lt hbound hx hy hz) (fun value hvalue => ?_) hvalues
    rcases List.mem_append.1 hvalue with hmem | hmem
    · exact lt_max_of_lt_left (depth_lt_of_mem_mapValues hmem)
    · exact lt_max_of_lt_right (depth_lt_of_mem_mapValues hmem)

theorem NoDeeper.unifyWith (h : NoDeeper bound inner) : NoDeeper (bound + 1) (unifyWith inner) := by
  intro a b unified hbound hunified
  rw [Schema.unifyWith] at hunified
  split at hunified
  · obtain rfl := Except.ok.inj hunified
    exact le_max_left _ _
  · obtain ⟨out, rfl, hout⟩ := written_unifyKinds hunified
    exact depthMembers_le.2 fun entry hentry =>
      (hout entry hentry).depth_lt h (Nat.lt_succ_iff.1 hbound)

theorem noDeeper_iterate (answer : Json → Json → Except UnifyError Json) (levels : Nat) :
    NoDeeper levels (unifyWith^[levels] answer) := by
  induction levels with
  | zero => exact fun hlt => absurd hlt (Nat.not_lt_zero _)
  | succ levels ih =>
    rw [Function.iterate_succ_apply']
    exact ih.unifyWith

end NoDeeper

/-! ### What a unification comes to -/

/-- The unifications that the unification of two schemas comes to, as it goes on: the properties of
records and the values of maps are unified in turn, as long as there is a result. -/
inductive Calls (inner : Json → Json → Except UnifyError Json) (a b : Json) : Json → Json → Prop
  | items {x y : Json} (hne : a.same b = false) (ha : kind a = .array) (hb : kind b = .array)
      (hx : a.member? "items" = some x) (hy : b.member? "items" = some y) : Calls inner a b x y
  | property {before after merged : Members} {name : String} {x y : Json} (hne : a.same b = false)
      (ha : kind a = .record) (hb : kind b = .record)
      (hx : properties a = before ++ (name, x) :: after)
      (hbefore : unifyShared inner (properties b) before = .ok merged)
      (hy : Keyed.get? name (properties b) = some y) : Calls inner a b x y
  | value {first acc next : Json} {before after : List Json} (hne : a.same b = false)
      (ha : kind a = .map) (hb : kind b = .map)
      (hvalues : mapValues a ++ mapValues b = first :: (before ++ next :: after))
      (hbefore : before.foldlM inner first = .ok acc) : Calls inner a b acc next

theorem Calls.depth_lt {bound : Nat} (h : NoDeeper bound inner)
    (hbound : max a.depth b.depth ≤ bound) {x y : Json} (hcalls : Calls inner a b x y) :
    max x.depth y.depth < max a.depth b.depth := by
  cases hcalls with
  | items _ _ _ hx hy =>
    exact max_lt_max (depth_lt_of_member? hx) (depth_lt_of_member? hy)
  | @property before after _ name _ _ _ _ _ hx _ hy =>
    have hmem : (name, x) ∈ properties a := hx ▸ List.mem_append_right _ List.mem_cons_self
    have hxDepth : x.depth + 1 < a.depth := depth_lt_of_mem_properties hmem
    have hyDepth : y.depth + 1 < b.depth := depth_lt_of_mem_properties (Keyed.mem_of_get? hy)
    exact max_lt_max (by omega) (by omega)
  | @value first _ _ before after _ _ _ hvalues hbefore =>
    have hall : ∀ value ∈ first :: (before ++ y :: after), value.depth < max a.depth b.depth := by
      intro value hvalue
      rcases List.mem_append.1 (hvalues ▸ hvalue) with hmem | hmem
      · exact lt_max_of_lt_left (depth_lt_of_mem_mapValues hmem)
      · exact lt_max_of_lt_right (depth_lt_of_mem_mapValues hmem)
    obtain ⟨hfirst, hrest⟩ := List.forall_mem_cons.1 hall
    obtain ⟨hfront, hback⟩ := List.forall_mem_append.1 hrest
    refine max_lt ?_ (hback y List.mem_cons_self)
    exact foldlM_preserves (P := fun value => value.depth < max a.depth b.depth)
      (fun hx hy hz => h.lt hbound hx hy hz) hfirst hfront hbefore

/-! ### The rules depend on what they come to -/

section Shared

variable {others rest : Members} {name : String} {schema other : Json}

theorem unifyShared_cons_of_none (h : Keyed.get? name others = none) :
    unifyShared inner others ((name, schema) :: rest) =
      (unifyShared inner others rest).map ((name, schema) :: ·) := by
  rw [unifyShared, h]
  rfl

theorem unifyShared_cons_of_error (h : Keyed.get? name others = some other) {e : UnifyError}
    (he : inner schema other = .error e) :
    unifyShared inner others ((name, schema) :: rest) = .error (.property name e) := by
  rw [unifyShared, h]
  dsimp only
  rw [he]
  rfl

theorem unifyShared_cons_of_ok (h : Keyed.get? name others = some other) {z : Json}
    (hz : inner schema other = .ok z) :
    unifyShared inner others ((name, schema) :: rest) =
      (unifyShared inner others rest).map ((name, z) :: ·) := by
  rw [unifyShared, h]
  dsimp only
  rw [hz]
  rfl

theorem unifyShared_congr {left : Members}
    (h : ∀ {before after merged : Members} {name : String} {x y : Json},
      left = before ++ (name, x) :: after → unifyShared inner others before = .ok merged →
        Keyed.get? name others = some y → inner x y = outer x y) :
    unifyShared inner others left = unifyShared outer others left := by
  induction left with
  | nil => rfl
  | cons entry rest ih =>
    obtain ⟨name, schema⟩ := entry
    have hrest : ∀ {z}, (∀ {before merged : Members}, unifyShared inner others before = .ok merged →
        unifyShared inner others ((name, schema) :: before) = .ok ((name, z) :: merged)) →
        unifyShared inner others rest = unifyShared outer others rest := by
      intro z hcons
      refine ih fun {before after merged other x y} hsplit hbefore hy => ?_
      exact h (congrArg ((name, schema) :: ·) hsplit) (hcons hbefore) hy
    cases hother : Keyed.get? name others with
    | none =>
      rw [unifyShared_cons_of_none hother, unifyShared_cons_of_none hother]
      refine congrArg (Except.map _) (hrest (z := schema) fun hbefore => ?_)
      rw [unifyShared_cons_of_none hother, hbefore]
      rfl
    | some other =>
      have hsame : inner schema other = outer schema other := h (List.nil_append _).symm rfl hother
      cases hz : inner schema other with
      | error e =>
        rw [unifyShared_cons_of_error hother hz, unifyShared_cons_of_error hother (hsame ▸ hz)]
      | ok z =>
        rw [unifyShared_cons_of_ok hother hz, unifyShared_cons_of_ok hother (hsame ▸ hz)]
        refine congrArg (Except.map _) (hrest (z := z) fun hbefore => ?_)
        rw [unifyShared_cons_of_ok hother hz, hbefore]
        rfl

end Shared

theorem foldlM_congr {first : Json} {rest : List Json}
    (h : ∀ {before after : List Json} {acc next : Json}, rest = before ++ next :: after →
      before.foldlM inner first = .ok acc → inner acc next = outer acc next) :
    rest.foldlM inner first = rest.foldlM outer first := by
  induction rest generalizing first with
  | nil => rfl
  | cons next rest ih =>
    rw [List.foldlM_cons, List.foldlM_cons, ← h (List.nil_append (next :: rest)).symm rfl]
    cases hjoined : inner first next with
    | error e => rfl
    | ok joined =>
      refine ih fun {before after acc later} hrest hbefore => ?_
      have hsplit : next :: rest = (next :: before) ++ later :: after :=
        congrArg (next :: ·) hrest
      refine h hsplit ?_
      rw [List.foldlM_cons, hjoined]
      exact hbefore

/-- What two schemas unify to depends on the unifications that they come to, and on no others. -/
theorem unifyWith_congr (h : ∀ {x y}, Calls inner a b x y → inner x y = outer x y) :
    unifyWith inner a b = unifyWith outer a b := by
  rw [unifyWith, unifyWith]
  split
  · rfl
  next hne =>
    rw [Bool.not_eq_true] at hne
    rw [unifyKinds.eq_def, unifyKinds.eq_def]
    split
    case h_12 ha hb =>
      rw [unifyArrays.eq_def, unifyArrays.eq_def]
      dsimp only
      split
      · next x y hx hy => rw [h (.items hne ha hb hx hy)]
      · rfl
    case h_13 ha hb =>
      have hshared : unifyShared inner (properties b) (properties a) =
          unifyShared outer (properties b) (properties a) :=
        unifyShared_congr fun hx hbefore hy => h (.property hne ha hb hx hbefore hy)
      rw [unifyRecords, unifyRecords, hshared]
    case h_14 ha hb =>
      have hvalues : unifyAllWith inner (mapValues a ++ mapValues b) =
          unifyAllWith outer (mapValues a ++ mapValues b) := by
        cases hall : mapValues a ++ mapValues b with
        | nil => rfl
        | cons first rest =>
          refine foldlM_congr fun {before after acc next} hrest hbefore => ?_
          exact h (.value hne ha hb (hall.trans (congrArg (first :: ·) hrest)) hbefore)
      rw [unifyMaps, unifyMaps, hvalues]
    all_goals rfl

/-! ### Unification without a bound -/

/-- Unification that goes down a number of levels does not depend on what is answered below them, on
schemas with less of them. -/
theorem iterate_unifyWith_eq (answer answer' : Json → Json → Except UnifyError Json) {levels : Nat}
    (h : max a.depth b.depth < levels) :
    unifyWith^[levels] answer a b = unifyWith^[levels] answer' a b := by
  induction levels generalizing a b with
  | zero => exact absurd h (Nat.not_lt_zero _)
  | succ levels ih =>
    rw [Function.iterate_succ_apply', Function.iterate_succ_apply']
    have hlevels := Nat.lt_succ_iff.1 h
    exact unifyWith_congr fun hcalls =>
      ih (lt_of_lt_of_le (hcalls.depth_lt (noDeeper_iterate answer levels) hlevels) hlevels)

theorem unifyAt_eq_iterate (bound : Nat) :
    unifyAt bound = unifyWith^[bound + 1] fun a _ => .ok a := by
  induction bound with
  | zero => rfl
  | succ bound ih => rw [Function.iterate_succ_apply', ← ih, unifyAt]

theorem iterate_unifyWith_eq_unify (answer : Json → Json → Except UnifyError Json) {levels : Nat}
    (h : max a.depth b.depth < levels) : unifyWith^[levels] answer a b = unify a b := by
  obtain ⟨more, rfl⟩ := Nat.exists_eq_add_of_le (Nat.succ_le_of_lt h)
  rw [Function.iterate_add_apply, unify, unifyAt_eq_iterate]
  exact iterate_unifyWith_eq _ _ (Nat.lt_succ_self _)

theorem noDeeper_unify (bound : Nat) : NoDeeper bound unify := by
  intro x y z hlt hz
  rw [← iterate_unifyWith_eq_unify unify hlt] at hz
  exact noDeeper_iterate unify bound hlt hz

/-- Unification by the rules, which unify what they come to in the same way. -/
theorem unify_eq (a b : Json) : unify a b = unifyWith unify a b := by
  have hlevels := Nat.lt_succ_self (max a.depth b.depth)
  rw [← iterate_unifyWith_eq_unify unify (Nat.lt_succ_of_lt hlevels), Function.iterate_succ_apply']
  refine unifyWith_congr fun hcalls => iterate_unifyWith_eq_unify unify ?_
  exact lt_trans (hcalls.depth_lt (noDeeper_iterate unify _) hlevels.le) hlevels

theorem Calls.depth_lt_unify {x y : Json} (h : Calls unify a b x y) :
    max x.depth y.depth < max a.depth b.depth := h.depth_lt (noDeeper_unify _) le_rfl

/-- A pair of schemas comes to another. -/
def ComesTo (pair later : Json × Json) : Prop := Calls unify pair.1 pair.2 later.1 later.2

theorem wellFounded_comesTo : WellFounded fun later pair => ComesTo pair later :=
  Subrelation.wf (fun h => h.depth_lt_unify)
    (measure fun pair : Json × Json => max pair.1.depth pair.2.depth).wf

/-- Unification ends. It obeys the rules with nothing in them to bound it: there is no endless way
down from any two schemas through what they come to, and below as many levels as they are nested
deep it does not matter what is answered. What they unify to is nested no deeper than they are. -/
theorem unify_terminates (a b : Json) :
    unify a b = unifyWith unify a b ∧
    Acc (fun later pair => ComesTo pair later) (a, b) ∧
    (∀ answer levels, max a.depth b.depth < levels →
      unifyWith^[levels] answer a b = unify a b) ∧
    ∀ unified, unify a b = .ok unified → unified.depth ≤ max a.depth b.depth :=
  ⟨unify_eq a b, wellFounded_comesTo.apply (a, b),
    fun answer _ h => iterate_unifyWith_eq_unify answer h,
    fun _ h => noDeeper_unify _ (Nat.lt_succ_self _) h⟩

end ResourceCatalog.Schema
