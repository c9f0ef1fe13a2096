import Mathlib
import ResourceCatalog.Proofs.Schema.Rules

/-!
# Unified schemas accept what either side accepts

Records and maps are unified part by part. What the rules write is nested no deeper than the two
sides, so the bound on the recursion is never reached, also where a map unifies the result of another
unification, and the soundness of the rules carries over to schemas of any depth.

The one keyword that stops short of it is `additionalProperties` with a setting that is no schema for
further keys: a map can end up with it when it is the only value schema of both sides. The schema is
then one for open objects, where the setting means what the interpretation says.
-/

namespace ResourceCatalog.Schema

variable {I : Interpretation} {left right out : Members} {depth : Nat} {value : Json} {k : Kind}
  {inner : Json → Json → Except UnifyError Json}

/-! ### Records -/

/-- The properties of one record after unification with those of another: for each of them, in its
place, what accepts the same values, and those of the other record under the same name. -/
theorem unifyShared_eq_ok {others merged : Members} (h : unifyShared inner others left = .ok merged) :
    List.Forall₂ (fun entry new => entry.1 = new.1 ∧
      match Keyed.get? entry.1 others with
      | some other => inner entry.2 other = .ok new.2
      | none => new.2 = entry.2) left merged := by
  induction left generalizing merged with
  | nil =>
    obtain rfl := Except.ok.inj h
    exact .nil
  | cons entry rest ih =>
    obtain ⟨name, schema⟩ := entry
    rw [unifyShared] at h
    cases hother : Keyed.get? name others with
    | none =>
      rw [hother] at h
      cases htail : unifyShared inner others rest with
      | error e =>
        rw [htail] at h
        cases h
      | ok tail =>
        rw [htail] at h
        obtain rfl := Except.ok.inj h
        refine .cons ⟨rfl, ?_⟩ (ih htail)
        rw [hother]
    | some other =>
      rw [hother] at h
      dsimp only at h
      cases hnew : inner schema other with
      | error e =>
        rw [hnew] at h
        cases h
      | ok new =>
        cases htail : unifyShared inner others rest with
        | error e =>
          rw [hnew, htail] at h
          cases h
        | ok tail =>
          rw [hnew, htail] at h
          obtain rfl := Except.ok.inj h
          refine .cons ⟨rfl, ?_⟩ (ih htail)
          rw [hother]
          exact hnew

theorem get?_addMissing (properties new : Members) (name : String) :
    Keyed.get? name (addMissing properties new) =
      (Keyed.get? name properties).or (Keyed.get? name new) := by
  rw [addMissing]
  induction new generalizing properties with
  | nil => exact (Option.or_none).symm
  | cons entry rest ih =>
    rw [List.foldl_cons, ih, Keyed.get?]
    split
    · next hcontains =>
      split
      · next heq =>
        subst heq
        obtain ⟨found, hfound⟩ := Option.isSome_iff_exists.1 hcontains
        rw [hfound]
        rfl
      · rfl
    · next hcontains =>
      split
      · next heq =>
        subst heq
        rw [Bool.not_eq_true, contains_eq_false] at hcontains
        rw [Keyed.get?_insert_self, hcontains]
        rfl
      · next hne => rw [Keyed.get?_insert_of_ne (Ne.symm hne)]

theorem mem_addMissing {properties new : Members} {entry : String × Json}
    (h : entry ∈ addMissing properties new) : entry ∈ properties ∨ entry ∈ new := by
  rw [addMissing] at h
  induction new generalizing properties with
  | nil => exact Or.inl h
  | cons first rest ih =>
    rw [List.foldl_cons] at h
    rcases ih h with hold | hrest
    · split at hold
      · exact Or.inl hold
      · rcases Keyed.mem_insert hold with rfl | hold
        · exact Or.inr List.mem_cons_self
        · exact Or.inl hold
    · exact Or.inr (List.mem_cons_of_mem _ hrest)

theorem ascending_addMissing {properties : Members} (h : Keyed.Ascending properties)
    (new : Members) : Keyed.Ascending (addMissing properties new) := by
  rw [addMissing]
  induction new generalizing properties with
  | nil => exact h
  | cons entry rest ih =>
    rw [List.foldl_cons]
    split
    · exact ih h
    · exact ih (Keyed.ascending_insert h _ _)

section SameKeys

variable {R : String × Json → String × Json → Prop} {old new : Members}
  (h : List.Forall₂ (fun x y => x.1 = y.1 ∧ R x y) old new)

include h

theorem keys_eq_of_sameKeys : Keyed.keys new = Keyed.keys old := by
  rw [Keyed.keys, Keyed.keys, ← List.forall₂_eq_eq_eq, List.forall₂_map_left_iff,
    List.forall₂_map_right_iff]
  exact h.flip.imp fun _ _ hboth => hboth.1.symm

theorem exists_get?_of_sameKeys {name : String} {x : Json} (hx : Keyed.get? name old = some x) :
    ∃ y, Keyed.get? name new = some y ∧ R (name, x) (name, y) := by
  induction h with
  | nil => cases hx
  | @cons first first' _ _ hfirst _ ih =>
    obtain ⟨key, value⟩ := first
    obtain ⟨key', value'⟩ := first'
    obtain ⟨rfl, hrelated⟩ := hfirst
    rw [Keyed.get?] at hx ⊢
    split at hx
    · next heq =>
      obtain rfl := Option.some.inj hx
      subst heq
      exact ⟨value', if_pos rfl, hrelated⟩
    · next hne =>
      rw [if_neg hne]
      exact ih hx

theorem get?_eq_none_of_sameKeys {name : String} (hnone : Keyed.get? name old = none) :
    Keyed.get? name new = none := by
  rw [Keyed.get?_eq_none_iff] at hnone ⊢
  rw [keys_eq_of_sameKeys h]
  exact hnone

end SameKeys

/-- What becomes of the properties of one name. -/
theorem get?_unifyShared {others merged : Members} (h : unifyShared inner others left = .ok merged)
    (name : String) :
    match Keyed.get? name left, Keyed.get? name others with
    | some x, some y => ∃ z, inner x y = .ok z ∧
        Keyed.get? name (addMissing merged others) = some z
    | some x, none => Keyed.get? name (addMissing merged others) = some x
    | none, other => Keyed.get? name (addMissing merged others) = other := by
  have hmerged := unifyShared_eq_ok h
  rw [get?_addMissing]
  cases hx : Keyed.get? name left with
  | none =>
    rw [get?_eq_none_of_sameKeys hmerged hx, Option.none_or]
  | some x =>
    obtain ⟨z, hz, hpart⟩ := exists_get?_of_sameKeys hmerged hx
    rw [hz, Option.some_or]
    cases hy : Keyed.get? name others with
    | none =>
      rw [hy] at hpart
      exact congrArg some hpart
    | some y =>
      rw [hy] at hpart
      exact ⟨z, hpart, rfl⟩

section Shared

variable {others merged : Members} (hsound : SoundBelow I depth inner) (hleft : Fits depth left)
  (hothers : Fits depth others) (h : unifyShared inner others left = .ok merged)

include hsound hleft hothers h

theorem fits_unifyShared : Fits depth merged := by
  have hmerged := unifyShared_eq_ok h
  have hparts : ∀ entry ∈ merged, entry.2.WellFormed ∧ entry.2.depth < depth := by
    intro entry hentry
    obtain ⟨old, hold, _, hpart⟩ := Json.exists_mem_of_forall₂ hmerged.flip hentry
    have holdFits := And.intro (hleft.wellFormed old hold) (hleft.depth_lt old hold)
    cases hother : Keyed.get? old.1 others with
    | none =>
      rw [hother] at hpart
      rw [show entry.2 = old.2 from hpart]
      exact holdFits
    | some other =>
      rw [hother] at hpart
      obtain ⟨hformed, hdepth, _⟩ := hsound.unifies holdFits (hothers.get? hother) hpart
      exact ⟨hformed, hdepth⟩
  exact ⟨Keyed.ascending_of_keys_eq (keys_eq_of_sameKeys hmerged) hleft.ascending,
    fun entry hentry => (hparts entry hentry).1, fun entry hentry => (hparts entry hentry).2⟩

theorem fits_unifiedProperties : Fits depth (addMissing merged others) := by
  have hmerged := fits_unifyShared hsound hleft hothers h
  refine ⟨ascending_addMissing hmerged.ascending _, fun entry hentry => ?_, fun entry hentry => ?_⟩
  · exact (mem_addMissing hentry).elim (hmerged.wellFormed entry) (hothers.wellFormed entry)
  · exact (mem_addMissing hentry).elim (hmerged.depth_lt entry) (hothers.depth_lt entry)

/-- The properties of the unified record accept what the properties of either side accept. -/
theorem accepts_unifiedProperties {side : Members} (hside : side = left ∨ side = others)
    {name : String} {x : Json} (hx : Keyed.get? name side = some x) :
    ∃ z, Keyed.get? name (addMissing merged others) = some z ∧
      ∀ {value}, Accepts I x value → Accepts I z value := by
  have hname := get?_unifyShared h name
  rcases hside with rfl | rfl
  · rw [hx] at hname
    cases hother : Keyed.get? name others with
    | none =>
      rw [hother] at hname
      exact ⟨x, hname, id⟩
    | some other =>
      rw [hother] at hname
      obtain ⟨z, hz, hget⟩ := hname
      obtain ⟨_, _, haccepts⟩ := hsound.unifies (hleft.get? hx) (hothers.get? hother) hz
      exact ⟨z, hget, haccepts (Or.inl rfl)⟩
  · rw [hx] at hname
    cases hother : Keyed.get? name left with
    | none =>
      rw [hother] at hname
      exact ⟨x, hname, id⟩
    | some other =>
      rw [hother] at hname
      obtain ⟨z, hz, hget⟩ := hname
      obtain ⟨_, _, haccepts⟩ := hsound.unifies (hleft.get? hother) (hothers.get? hx) hz
      exact ⟨z, hget, haccepts (Or.inr rfl)⟩

end Shared

/-- The keywords that the rule for records handles. -/
def recordKeys : List String := ["properties", "required"]

theorem exists_properties (h : isRecord (.obj left) = true) :
    Keyed.get? "properties" left = some (.obj (properties (.obj left))) := by
  rw [isRecord_eq] at h
  obtain ⟨setting, hsetting, hobject⟩ := (Option.any_eq_true _ _).1 h
  cases setting with
  | obj ps =>
    rw [properties, hsetting]
    exact hsetting
  | _ => cases hobject

theorem mem_requiredNames {schema : Json} {name : String} (h : name ∈ requiredNames schema) :
    ∃ items, schema.member? "required" = some (.arr items) ∧ Json.str name ∈ items := by
  rw [requiredNames] at h
  obtain ⟨item, hitem, hname⟩ := List.mem_filterMap.1 h
  cases hrequired : schema.member? "required" with
  | none =>
    rw [hrequired] at hitem
    exact absurd hitem List.not_mem_nil
  | some setting =>
    rw [hrequired] at hitem
    cases setting with
    | arr items =>
      refine ⟨items, rfl, ?_⟩
      cases item with
      | str text =>
        rw [← show text = name from Option.some.inj hname]
        exact hitem
      | _ => cases hname
    | _ => exact absurd hitem List.not_mem_nil

/-- A record with the names that it requires, if there are any. -/
def withRequired (required : List String) (out : Members) : Members :=
  if required.isEmpty then out else Keyed.insert "required" (Json.strings required) out

theorem get?_withRequired_of_ne (required : List String) {key : String} (h : key ≠ "required") :
    Keyed.get? key (withRequired required out) = Keyed.get? key out := by
  rw [withRequired]
  split
  · rfl
  · exact Keyed.get?_insert_of_ne h _ _

theorem mem_of_mem_requiredNames {required : List String}
    (hout : Keyed.get? "required" out = none) {name : String}
    (h : name ∈ requiredNames (.obj (withRequired required out))) : name ∈ required := by
  obtain ⟨items, hitems, hname⟩ := mem_requiredNames h
  rw [withRequired] at hitems
  split at hitems
  · cases hout.symm.trans hitems
  · have hstrings := (Keyed.get?_insert_self _ _ _).symm.trans hitems
    rw [← Json.arr.inj (Option.some.inj hstrings)] at hname
    obtain ⟨name', hmem, heq⟩ := List.mem_map.1 hname
    rw [← Json.str.inj heq]
    exact hmem

theorem fits_withRequired {required : List String} (h : Fits depth out)
    (hleft : Fits depth left) (hrequired : ∀ name ∈ required, name ∈ requiredNames (.obj left)) :
    Fits depth (withRequired required out) := by
  rw [withRequired]
  split
  · exact h
  · next hne =>
    obtain ⟨name, hname⟩ := List.exists_mem_of_ne_nil required fun heq => hne (heq ▸ rfl)
    obtain ⟨items, hitems, hitem⟩ := mem_requiredNames (hrequired name hname)
    have hdepth := (hleft.get? hitems).2
    have hpos : 0 < (Json.arr items).depth := depthItems_le.1 le_rfl _ hitem
    refine h.insert (Json.wellFormed_arr.2 fun item hitem => ?_) ?_
    · obtain ⟨_, _, rfl⟩ := List.mem_map.1 hitem
      trivial
    · have hstrings : (Json.strings required).depth ≤ 1 := by
        refine depthItems_le.2 fun item hitem => ?_
        obtain ⟨_, _, rfl⟩ := List.mem_map.1 hitem
        exact Nat.one_pos
      omega

theorem unifyRecords_eq_ok {a b unified : Json} (h : unifyRecords inner a b = .ok unified) :
    ∃ merged, unifyShared inner (properties b) (properties a) = .ok merged ∧
      unified = .obj (withRequired ((requiredNames a).filter (requiredNames b).contains)
        (Keyed.insert "properties" (.obj (addMissing merged (properties b)))
          (agreed a b recordKeys))) := by
  rw [unifyRecords] at h
  cases hshared : unifyShared inner (properties b) (properties a) with
  | error e =>
    rw [hshared] at h
    cases h
  | ok merged =>
    rw [hshared] at h
    exact ⟨merged, rfl, (Except.ok.inj h).symm⟩

/-- What the rule for records writes apart from the properties and the names that are required. -/
theorem agreesOutside_records (hleft : Keyed.Ascending left) (required : List String)
    (new : Members) : AgreesOutside recordKeys left right (withRequired required
      (Keyed.insert "properties" (.obj new) (agreed (.obj left) (.obj right) recordKeys))) := by
  intro key hkey
  have hne : key ≠ "required" := by
    rintro rfl
    exact hkey (by decide)
  rw [get?_withRequired_of_ne _ hne]
  exact (agreesOutside_agreed hleft fun _ => id).insert (by decide) _ key hkey

theorem properties_withRequired (required : List String) (new out : Members) :
    Keyed.get? "properties" (withRequired required (Keyed.insert "properties" (.obj new) out)) =
      some (.obj new) := by
  rw [get?_withRequired_of_ne _ (by decide), Keyed.get?_insert_self]

theorem exists_records {unified : Json} (hsound : SoundBelow I depth inner)
    (hleft : Fits depth left) (hright : Fits depth right) (hrecord : isRecord (.obj left) = true)
    (hrecord' : isRecord (.obj right) = true)
    (h : unifyRecords inner (.obj left) (.obj right) = .ok unified) :
    ∃ out, unified = .obj out ∧ Fits depth out ∧ AgreesOutside recordKeys left right out ∧
      (∃ ps, Keyed.get? "properties" out = some (.obj ps)) ∧
        ∀ {side : Json}, side = .obj left ∨ side = .obj right →
          (∀ {name x}, Keyed.get? name (properties side) = some x →
            ∃ z, Keyed.get? name (properties (.obj out)) = some z ∧
              ∀ {value}, Accepts I x value → Accepts I z value) ∧
          ∀ name ∈ requiredNames (.obj out), name ∈ requiredNames side := by
  have hps := hleft.get? (exists_properties hrecord)
  have hps' := hright.get? (exists_properties hrecord')
  let bound := max (Json.obj (properties (.obj left))).depth (Json.obj (properties (.obj right))).depth
  have hbound : bound < depth := max_lt hps.2 hps'.2
  have hfits : Fits bound (properties (.obj left)) := fits_iff.2 ⟨hps.1, le_max_left _ _⟩
  have hfits' : Fits bound (properties (.obj right)) := fits_iff.2 ⟨hps'.1, le_max_right _ _⟩
  have hsoundBound : SoundBelow I bound inner := fun ha hb hda hdb hlt =>
    hsound ha hb hda hdb (lt_trans hlt hbound)
  obtain ⟨merged, hshared, rfl⟩ := unifyRecords_eq_ok h
  obtain ⟨hformed, hdepth⟩ :=
    fits_iff.1 (fits_unifiedProperties hsoundBound hfits hfits' hshared)
  let required := (requiredNames (.obj left)).filter (requiredNames (.obj right)).contains
  let properties' := addMissing merged (properties (.obj right))
  let out := Keyed.insert "properties" (.obj properties')
    (agreed (.obj left) (.obj right) recordKeys)
  have hnone : Keyed.get? "required" out = none := by
    rw [Keyed.get?_insert_of_ne (by decide), get?_agreed_of_mem hleft.ascending (by decide)]
  have hproperties : Keyed.get? "properties" (withRequired required out) = some (.obj properties') :=
    properties_withRequired _ _ _
  have hnames : ∀ name ∈ required,
      name ∈ requiredNames (.obj left) ∧ name ∈ requiredNames (.obj right) := by
    intro name hname
    obtain ⟨hname, hname'⟩ := List.mem_filter.1 hname
    exact ⟨hname, List.contains_iff_mem.1 hname'⟩
  have hfitsOut : Fits depth out :=
    (fits_agreed hleft _).insert hformed (lt_of_le_of_lt hdepth hbound)
  refine ⟨withRequired required out, rfl, fits_withRequired hfitsOut hleft fun name hname =>
    (hnames name hname).1, agreesOutside_records hleft.ascending _ _, ⟨properties', hproperties⟩,
    fun {side} hside => ⟨?_, ?_⟩⟩
  · intro name x hx
    have hsame : properties (.obj (withRequired required out)) = properties' := by
      rw [properties, Json.member?, hproperties]
      rfl
    rw [hsame]
    rcases hside with rfl | rfl
    · exact accepts_unifiedProperties hsoundBound hfits hfits' hshared (Or.inl rfl) hx
    · exact accepts_unifiedProperties hsoundBound hfits hfits' hshared (Or.inr rfl) hx
  · intro name hname
    have hboth := hnames name (mem_of_mem_requiredNames hnone hname)
    rcases hside with rfl | rfl
    · exact hboth.1
    · exact hboth.2

theorem relaxes_of_agreesOutside {handled : List String} (hleft : Keyed.Ascending left)
    (hagrees : AgreesOutside handled left right out) {side : Json}
    (hside : side = .obj left ∨ side = .obj right) (hk : k ∈ [Kind.record, .map, .openObject])
    (hhandled : ∀ key ∈ handled, key ∈ k.ownKeys ∧ key ∉ ["type", "enum"]) :
    I.Relaxes k (.obj out) k side := by
  have hbounds : k.bounds = [] ∧ k ≠ .number ∧ k ≠ .string := by
    rcases List.mem_cons.1 hk with rfl | hk
    · decide
    · rcases List.mem_pair.1 hk with rfl | rfl
      · decide
      · decide
  constructor
  · exact (hagrees.kept hleft hside fun hmem => (hhandled _ hmem).2 (by decide)).enum
  · exact fun hnumber => absurd hnumber hbounds.2.1
  · intro key bound hbound
    rw [hbounds.1] at hbound
    exact absurd hbound List.not_mem_nil
  · exact fun hstring => absurd hstring hbounds.2.2
  · intro key hkey setting hsetting
    exact ⟨hkey, hagrees.kept hleft hside (fun hmem => hkey (hhandled _ hmem).1) setting hsetting⟩

theorem AgreesOutside.kind_records (hagrees : AgreesOutside recordKeys left right out)
    (hleft : Keyed.Ascending left) (hplain : Plain left) (hplain' : Plain right)
    (hkind : kind (.obj left) = .record) (hkind' : kind (.obj right) = .record) {ps : Members}
    (hps : Keyed.get? "properties" out = some (.obj ps)) : kind (.obj out) = .record := by
  have htype := hagrees.type hleft hplain hplain' hkind hkind' rfl (by decide) (by decide)
  have hplainOut := hagrees.plain hleft hplain (by decide)
  rw [kind_of_objectKey hplainOut (htype.imp_right And.left) (by decide) hps, objectKind,
    isRecord_eq, Json.member?, hps]
  rfl

theorem unifies_records {unified : Json} (hsound : SoundBelow I depth inner)
    (hleft : Fits depth left) (hright : Fits depth right) (hplain : Plain left)
    (hplain' : Plain right) (hkind : kind (.obj left) = .record) (hkind' : kind (.obj right) = .record)
    (h : unifyRecords inner (.obj left) (.obj right) = .ok unified) :
    Unifies I depth (.obj left) (.obj right) unified := by
  obtain ⟨out, rfl, hfits, hagrees, ⟨ps, hps⟩, hparts⟩ := exists_records hsound hleft hright
    (isRecord_of_kind hplain hkind) (isRecord_of_kind hplain' hkind') h
  obtain ⟨hformed, hdepth⟩ := fits_iff.1 hfits
  refine ⟨hformed, hdepth, fun {side} hside {value} hvalue => ?_⟩
  have hside' : kind side = .record := by
    rcases hside with rfl | rfl
    · exact hkind
    · exact hkind'
  rw [Accepts, hside'] at hvalue
  obtain ⟨hold, members, rfl, hdeclared, hrequired⟩ := hvalue
  obtain ⟨hproperties, hnames⟩ := hparts hside
  have hmeets := (relaxes_of_agreesOutside hleft.ascending hagrees hside
    (k := .record) (by decide) (by decide)).meets hold
  rw [Accepts, hagrees.kind_records hleft.ascending hplain hplain' hkind hkind' hps]
  refine ⟨hmeets, members, rfl, fun entry hentry => ?_, fun name hname =>
    hrequired name (hnames name hname)⟩
  obtain ⟨x, hx, haccepts⟩ := hdeclared entry hentry
  obtain ⟨z, hz, hxz⟩ := hproperties hx
  exact ⟨z, hz, hxz haccepts⟩

/-! ### Maps -/

/-- The keywords that the rule for maps handles. -/
def mapKeys : List String := ["additionalProperties", "patternProperties"]

theorem fits_mapValues (hleft : Fits depth left) {schema : Json}
    (h : schema ∈ mapValues (.obj left)) : schema.WellFormed ∧ schema.depth < depth := by
  rw [mapValues, List.mem_append] at h
  rcases h with h | h
  · split at h
    · next hsetting =>
      obtain rfl := List.mem_singleton.1 h
      exact ⟨Json.wellFormed_obj.2 ⟨List.Pairwise.nil, fun _ hmem => absurd hmem List.not_mem_nil⟩,
        Nat.zero_lt_of_lt (hleft.get? hsetting).2⟩
    · next members hsetting =>
      obtain rfl := List.mem_singleton.1 h
      exact hleft.get? hsetting
    · exact absurd h List.not_mem_nil
  · split at h
    · next patterns hsetting =>
      obtain ⟨entry, hentry, rfl⟩ := List.mem_map.1 h
      obtain ⟨hformed, hdepth⟩ := hleft.get? hsetting
      have hfits : Fits (Json.obj patterns).depth patterns := fits_iff.2 ⟨hformed, le_rfl⟩
      exact ⟨hfits.wellFormed entry hentry, lt_trans (hfits.depth_lt entry hentry) hdepth⟩
    · exact absurd h List.not_mem_nil

/-- The schemas of a list, unified from the left. -/
theorem foldlM_unifies (hsound : SoundBelow I depth inner) {first unified : Json}
    {rest : List Json} (hfirst : first.WellFormed ∧ first.depth < depth)
    (hrest : ∀ schema ∈ rest, schema.WellFormed ∧ schema.depth < depth)
    (h : rest.foldlM inner first = .ok unified) :
    (unified.WellFormed ∧ unified.depth < depth) ∧
      ∀ schema ∈ first :: rest, ∀ {value}, Accepts I schema value → Accepts I unified value := by
  induction rest generalizing first with
  | nil =>
    obtain rfl := Except.ok.inj h
    refine ⟨hfirst, fun schema hschema => ?_⟩
    obtain rfl := List.mem_singleton.1 hschema
    exact id
  | cons next rest ih =>
    rw [List.foldlM_cons] at h
    cases hjoined : inner first next with
    | error e =>
      rw [hjoined] at h
      cases h
    | ok joined =>
      rw [hjoined] at h
      obtain ⟨hnext, hrest⟩ := List.forall_mem_cons.1 hrest
      obtain ⟨hformed, hdepth, haccepts⟩ := hsound.unifies hfirst hnext hjoined
      obtain ⟨hunified, hall⟩ := ih ⟨hformed, hdepth⟩ hrest h
      refine ⟨hunified, fun schema hschema value hvalue => ?_⟩
      have hjoinedAccepts : ∀ {value}, Accepts I joined value → Accepts I unified value :=
        hall joined List.mem_cons_self
      rcases List.mem_cons.1 hschema with rfl | hschema
      · exact hjoinedAccepts (haccepts (Or.inl rfl) hvalue)
      · rcases List.mem_cons.1 hschema with rfl | hschema
        · exact hjoinedAccepts (haccepts (Or.inr rfl) hvalue)
        · exact hall schema (List.mem_cons_of_mem _ hschema) hvalue

theorem unifyMaps_eq_ok {a b unified : Json} (h : unifyMaps inner a b = .ok unified) :
    ∃ values, unifyAllWith inner (mapValues a ++ mapValues b) = .ok values ∧
      unified = .obj (Keyed.insert "additionalProperties" values (agreed a b mapKeys)) := by
  rw [unifyMaps] at h
  cases hvalues : unifyAllWith inner (mapValues a ++ mapValues b) with
  | error e =>
    rw [hvalues] at h
    cases h
  | ok values =>
    rw [hvalues] at h
    exact ⟨values, rfl, (Except.ok.inj h).symm⟩

theorem agreesOutside_maps (hleft : Keyed.Ascending left) (values : Json) :
    AgreesOutside mapKeys left right (Keyed.insert "additionalProperties" values
      (agreed (.obj left) (.obj right) mapKeys)) :=
  (agreesOutside_agreed hleft fun _ => id).insert (by decide) _

theorem patterns_maps (hleft : Keyed.Ascending left) (values : Json) :
    Keyed.get? "patternProperties" (Keyed.insert "additionalProperties" values
      (agreed (.obj left) (.obj right) mapKeys)) = none := by
  rw [Keyed.get?_insert_of_ne (by decide), get?_agreed_of_mem hleft (by decide)]

theorem exists_maps {unified : Json} (hsound : SoundBelow I depth inner)
    (hleft : Fits depth left) (hright : Fits depth right)
    (h : unifyMaps inner (.obj left) (.obj right) = .ok unified) :
    ∃ values out, unified = .obj out ∧ Fits depth out ∧ AgreesOutside mapKeys left right out ∧
      Keyed.get? "additionalProperties" out = some values ∧
        Keyed.get? "patternProperties" out = none ∧
          ∀ {side : Json}, side = .obj left ∨ side = .obj right →
            ∀ schema ∈ mapValues side, ∀ {value}, Accepts I schema value → Accepts I values value := by
  obtain ⟨values, hvalues, rfl⟩ := unifyMaps_eq_ok h
  have hall : ∀ schema ∈ mapValues (.obj left) ++ mapValues (.obj right),
      schema.WellFormed ∧ schema.depth < depth := by
    intro schema hschema
    rcases List.mem_append.1 hschema with hschema | hschema
    · exact fits_mapValues hleft hschema
    · exact fits_mapValues hright hschema
  have hunifies : (values.WellFormed ∧ values.depth < depth) ∧
      ∀ schema ∈ mapValues (.obj left) ++ mapValues (.obj right), ∀ {value},
        Accepts I schema value → Accepts I values value := by
    generalize mapValues (.obj left) ++ mapValues (.obj right) = schemas at hall hvalues
    cases schemas with
    | nil => cases hvalues
    | cons first rest =>
      obtain ⟨hfirst, hrest⟩ := List.forall_mem_cons.1 hall
      exact foldlM_unifies hsound hfirst hrest hvalues
  refine ⟨values, _, rfl, (fits_agreed hleft _).insert hunifies.1.1 hunifies.1.2,
    agreesOutside_maps hleft.ascending values, Keyed.get?_insert_self _ _ _,
    patterns_maps hleft.ascending values, fun {side} hside schema hschema => ?_⟩
  rcases hside with rfl | rfl
  · exact hunifies.2 schema (List.mem_append_left _ hschema)
  · exact hunifies.2 schema (List.mem_append_right _ hschema)

theorem isRecord_of_kept (h : Kept (.obj out) (.obj left) "properties")
    (hleft : isRecord (.obj left) = false) : isRecord (.obj out) = false := by
  cases hout : isRecord (.obj out) with
  | false => rfl
  | true =>
    obtain ⟨other, hother, hsame⟩ := h _ (exists_properties hout)
    obtain ⟨_, rfl, _⟩ := Json.same_obj_iff.1 (Json.same_symm hsame)
    rw [isRecord_eq, hother] at hleft
    cases hleft

theorem AgreesOutside.kind_maps (hagrees : AgreesOutside mapKeys left right out)
    (hleft : Keyed.Ascending left) (hplain : Plain left) (hplain' : Plain right)
    (hkind : kind (.obj left) = .map) (hkind' : kind (.obj right) = .map) {values : Json}
    (hvalues : Keyed.get? "additionalProperties" out = some values)
    (hnone : Keyed.get? "patternProperties" out = none) :
    kind (.obj out) = if describesValues (some values) then .map else .openObject := by
  have htype := hagrees.type hleft hplain hplain' hkind hkind' rfl (by decide) (by decide)
  have hplainOut := hagrees.plain hleft hplain (by decide)
  have hrecord : isRecord (.obj out) = false :=
    isRecord_of_kept (hagrees.kept hleft (Or.inl rfl) (by decide)) (isMap_of_kind hplain hkind).1
  have hmap : isMap (.obj out) = describesValues (some values) := by
    rw [isMap_eq, hrecord, Json.member?, hvalues, Json.member?, hnone]
    exact Bool.or_false _
  rw [kind_of_objectKey hplainOut (htype.imp_right And.left) (by decide) hvalues, objectKind,
    hrecord, hmap]
  rfl

theorem kind_of_undescribed {schema : Json} (h : describesValues (some schema) = false) :
    kind schema = .unsupported s!"schema {schema.compact}" := by
  cases schema with
  | obj _ => cases h
  | bool b =>
    cases b with
    | true => cases h
    | false => rfl
  | _ => rfl

theorem unsupported_of_accepts {schema : Json} (hschema : describesValues (some schema) = false)
    (h : Accepts I schema value) : I.unsupported schema value := by
  rw [Accepts, kind_of_undescribed hschema] at h
  dsimp only at h
  rwa [if_neg (schemaReason_ne _)] at h

/-- What a map becomes whose values have no schema. -/
theorem meets_openObject (hI : I.ReadsFurtherKeys) (hleft : Keyed.Ascending left) {side : Json}
    (hside : side = .obj left ∨ side = .obj right) (hagrees : AgreesOutside mapKeys left right out)
    {values : Json} (hvalues : Keyed.get? "additionalProperties" out = some values)
    (hnone : Keyed.get? "patternProperties" out = none)
    (hdescribes : describesValues (some values) = false) {members : Members}
    (hmembers : ∀ entry ∈ members, Accepts I values entry.2)
    (hmeets : I.Meets .map side (.obj members)) :
    I.Meets .openObject (.obj out) (.obj members) where
  enum := by
    intro found hfound
    obtain ⟨others, hothers, hwider⟩ := (hagrees.kept hleft hside (by decide)).enum hfound
    exact hwider _ (hmeets.enum hothers)
  whole := fun h => by cases h
  bound := fun h => absurd h List.not_mem_nil
  pattern := fun h => by cases h
  keyword := by
    intro key hkey setting hsetting
    by_cases hadditional : key = "additionalProperties"
    · subst hadditional
      obtain rfl := Option.some.inj (hvalues.symm.trans hsetting)
      exact hI hdescribes fun entry hentry =>
        unsupported_of_accepts hdescribes (hmembers entry hentry)
    · have hpatterns : key ≠ "patternProperties" := by
        rintro rfl
        cases hnone.symm.trans hsetting
      have hmap : key ∉ mapKeys := by
        intro hmem
        rcases List.mem_cons.1 hmem with heq | hmem
        · exact hadditional heq
        · exact hpatterns (List.mem_singleton.1 hmem)
      have hown : ∀ key ∈ Kind.map.ownKeys, key ∈ mapKeys ∨ key ∈ Kind.openObject.ownKeys := by
        decide
      obtain ⟨other, hother, hsame⟩ := hagrees.kept hleft hside hmap setting hsetting
      exact I.keyword_same hsame (hmeets.keyword (fun hmem => (hown key hmem).elim hmap hkey) hother)

theorem unifies_maps (hI : I.ReadsFurtherKeys) {unified : Json} (hsound : SoundBelow I depth inner)
    (hleft : Fits depth left) (hright : Fits depth right) (hplain : Plain left)
    (hplain' : Plain right) (hkind : kind (.obj left) = .map) (hkind' : kind (.obj right) = .map)
    (h : unifyMaps inner (.obj left) (.obj right) = .ok unified) :
    Unifies I depth (.obj left) (.obj right) unified := by
  obtain ⟨values, out, rfl, hfits, hagrees, hvalues, hnone, hall⟩ :=
    exists_maps hsound hleft hright h
  obtain ⟨hformed, hdepth⟩ := fits_iff.1 hfits
  refine ⟨hformed, hdepth, fun {side} hside {value} hvalue => ?_⟩
  have hside' : kind side = .map := by
    rcases hside with rfl | rfl
    · exact hkind
    · exact hkind'
  rw [Accepts, hside'] at hvalue
  obtain ⟨hold, members, rfl, hmembers⟩ := hvalue
  have haccepts : ∀ entry ∈ members, Accepts I values entry.2 := by
    intro entry hentry
    obtain ⟨schema, hschema, hpart⟩ := hmembers entry hentry
    exact hall hside schema hschema hpart
  have hkindOut := hagrees.kind_maps hleft.ascending hplain hplain' hkind hkind' hvalues hnone
  cases hdescribes : describesValues (some values) with
  | true =>
    rw [hdescribes] at hkindOut
    have hmeets := (relaxes_of_agreesOutside hleft.ascending hagrees hside
      (k := .map) (by decide) (by decide)).meets hold
    rw [Accepts, hkindOut]
    refine ⟨hmeets, members, rfl, fun entry hentry => ?_⟩
    cases values with
    | obj inner =>
      refine ⟨.obj inner, ?_, haccepts entry hentry⟩
      rw [mapValues, Json.member?, hvalues]
      exact List.mem_append_left _ (List.mem_singleton_self _)
    | bool b =>
      cases b with
      | true =>
        refine ⟨.obj [], ?_, ?_⟩
        · rw [mapValues, Json.member?, hvalues]
          exact List.mem_append_left _ (List.mem_singleton_self _)
        · rw [Accepts, show kind (.obj []) = .any from rfl]
          trivial
      | false => cases hdescribes
    | _ => cases hdescribes
  | false =>
    rw [hdescribes] at hkindOut
    rw [Accepts, hkindOut]
    exact ⟨meets_openObject hI hleft.ascending hside hagrees hvalues hnone hdescribes haccepts hold,
      members, rfl⟩

/-! ### Schemas of any kinds -/

theorem unifies_any (a b : Json) : Unifies I depth a b (.obj []) where
  wellFormed := Json.wellFormed_obj.2 ⟨List.Pairwise.nil, fun _ h => absurd h List.not_mem_nil⟩
  depth_le := Nat.zero_le _
  accepts := by
    intro side _ value _
    rw [Accepts, show kind (.obj []) = .any from rfl]
    trivial

theorem exists_fits {schema : Json} (hformed : schema.WellFormed) (hdepth : schema.depth ≤ depth)
    (hkind : kind schema = k) (htyped : k.isTyped = true) :
    ∃ members, schema = .obj members ∧ Fits depth members ∧ Plain members ∧
      kind (.obj members) = k := by
  obtain ⟨members, rfl, hplain⟩ := exists_plain (hkind ▸ htyped)
  exact ⟨members, rfl, fits_iff.2 ⟨hformed, hdepth⟩, hplain, hkind⟩

theorem exists_fits_reference {schema : Json} {target : String} (hformed : schema.WellFormed)
    (hdepth : schema.depth ≤ depth) (hkind : kind schema = .reference target) :
    ∃ members, schema = .obj members ∧ Fits depth members ∧
      kind (.obj members) = .reference target := by
  cases schema with
  | obj members => exact ⟨members, rfl, fits_iff.2 ⟨hformed, hdepth⟩, hkind⟩
  | bool b => cases b <;> cases hkind
  | _ => cases hkind

theorem unifies_kinds (hI : I.ReadsFurtherKeys) {a b unified : Json}
    (hsound : SoundBelow I depth inner) (ha : a.WellFormed) (hb : b.WellFormed)
    (hdepth : a.depth ≤ depth) (hdepth' : b.depth ≤ depth)
    (h : unifyKinds inner a b = .ok unified) : Unifies I depth a b unified := by
  have hopen : ∀ {k k'}, kind a = k → kind b = k' → k ∈ [Kind.record, .map, .openObject] →
      k' ∈ [Kind.record, .map, .openObject] → Unifies I depth a b (unifyOpenObjects a b) := by
    intro k k' hk hk' hmem hmem'
    have htyped : ∀ k ∈ [Kind.record, .map, .openObject], k.isTyped = true := by decide
    obtain ⟨left, rfl, hleft, hplain, hkind⟩ := exists_fits ha hdepth hk (htyped k hmem)
    obtain ⟨right, rfl, _, _, hkind'⟩ := exists_fits hb hdepth' hk' (htyped k' hmem')
    exact unifies_openObjects hleft hplain (hkind ▸ hmem) (hkind' ▸ hmem')
  rw [unifyKinds.eq_def] at h
  split at h
  case h_3 hk hk' =>
    obtain ⟨left, rfl, hleft, hkind⟩ := exists_fits_reference ha hdepth hk
    obtain ⟨right, rfl, _, hkind'⟩ := exists_fits_reference hb hdepth' hk'
    split at h
    · next heq =>
      subst heq
      obtain rfl := Except.ok.inj h
      exact unifies_references hleft hkind hkind'
    · cases h
  case h_6 | h_7 =>
    obtain rfl := Except.ok.inj h
    exact unifies_any a b
  case h_8 hk hk' =>
    obtain ⟨left, rfl, hleft, hplain, hkind⟩ := exists_fits ha hdepth hk rfl
    obtain ⟨right, rfl, hright, hplain', hkind'⟩ := exists_fits hb hdepth' hk' rfl
    obtain rfl := Except.ok.inj h
    exact unifies_strings hleft hright hplain hplain' hkind hkind'
  case h_9 hk hk' =>
    obtain ⟨left, rfl, hleft, hplain, hkind⟩ := exists_fits ha hdepth hk rfl
    obtain ⟨right, rfl, hright, _, hkind'⟩ := exists_fits hb hdepth' hk' rfl
    obtain rfl := Except.ok.inj h
    exact unifies_numbers hleft hright hplain hkind hkind'
  case h_10 | h_11 =>
    obtain ⟨left, rfl, hleft, hplain, hkind⟩ := exists_fits ha hdepth ‹_› rfl
    obtain ⟨right, rfl, _, hplain', hkind'⟩ := exists_fits hb hdepth' ‹_› rfl
    obtain rfl := Except.ok.inj h
    exact unifies_agreed hleft hplain hplain' (by decide) hkind hkind'
  case h_12 hk hk' =>
    obtain ⟨left, rfl, hleft, hplain, hkind⟩ := exists_fits ha hdepth hk rfl
    obtain ⟨right, rfl, hright, hplain', hkind'⟩ := exists_fits hb hdepth' hk' rfl
    exact unifies_arrays hsound hleft hright hplain hplain' hkind hkind' h
  case h_13 hk hk' =>
    obtain ⟨left, rfl, hleft, hplain, hkind⟩ := exists_fits ha hdepth hk rfl
    obtain ⟨right, rfl, hright, hplain', hkind'⟩ := exists_fits hb hdepth' hk' rfl
    exact unifies_records hsound hleft hright hplain hplain' hkind hkind' h
  case h_14 hk hk' =>
    obtain ⟨left, rfl, hleft, hplain, hkind⟩ := exists_fits ha hdepth hk rfl
    obtain ⟨right, rfl, hright, hplain', hkind'⟩ := exists_fits hb hdepth' hk' rfl
    exact unifies_maps hI hsound hleft hright hplain hplain' hkind hkind' h
  case h_17 | h_18 | h_19 | h_20 | h_21 =>
    obtain rfl := Except.ok.inj h
    exact hopen ‹_› ‹_› (by decide) (by decide)
  all_goals cases h

/-! ### Schemas of any depth -/

theorem unifies_with (hI : I.ReadsFurtherKeys) {a b unified : Json}
    (hsound : SoundBelow I depth inner) (ha : a.WellFormed) (hb : b.WellFormed)
    (hdepth : a.depth ≤ depth) (hdepth' : b.depth ≤ depth)
    (h : unifyWith inner a b = .ok unified) : Unifies I depth a b unified := by
  rw [unifyWith] at h
  split at h
  · next hsame =>
    obtain rfl := Except.ok.inj h
    refine ⟨ha, hdepth, fun {side} hside {value} hvalue => ?_⟩
    rcases hside with rfl | rfl
    · exact hvalue
    · exact accepts_of_same (Json.same_symm hsame) hvalue
  · exact unifies_kinds hI hsound ha hb hdepth hdepth' h

/-- Unification that goes down a number of levels is sound on schemas with no more of them. -/
theorem soundBelow_unifyAt (hI : I.ReadsFurtherKeys) (bound : Nat) :
    SoundBelow I (bound + 1) (unifyAt bound) := by
  induction bound with
  | zero =>
    intro a b unified depth ha hb hdepth hdepth' hlt h
    obtain rfl := Nat.lt_one_iff.1 hlt
    have hsound : SoundBelow I 0 fun a _ => .ok a := fun _ _ _ _ hlt => absurd hlt (Nat.not_lt_zero _)
    exact unifies_with hI hsound ha hb hdepth hdepth' h
  | succ bound ih =>
    intro a b unified depth ha hb hdepth hdepth' hlt h
    have hsound : SoundBelow I depth (unifyAt bound) := fun ha hb hda hdb hlt' =>
      ih ha hb hda hdb (lt_of_lt_of_le hlt' (Nat.lt_succ_iff.1 hlt))
    exact unifies_with hI hsound ha hb hdepth hdepth' h

/-- The unified schema accepts what either side accepts. -/
theorem accepts_unify (hI : I.ReadsFurtherKeys) {a b unified : Json} (ha : a.WellFormed)
    (hb : b.WellFormed) (h : unify a b = .ok unified) {value : Json}
    (hvalue : Accepts I a value ∨ Accepts I b value) : Accepts I unified value := by
  have hunifies := soundBelow_unifyAt hI _ ha hb (le_max_left _ _) (le_max_right _ _)
    (Nat.lt_succ_self _) h
  rcases hvalue with hvalue | hvalue
  · exact hunifies.accepts (Or.inl rfl) hvalue
  · exact hunifies.accepts (Or.inr rfl) hvalue

/-! ### What `additionalProperties` may mean -/

/-- An interpretation for which `false` is the only setting that refuses anything. As a schema it
refuses all values, and as `additionalProperties` all objects with members. -/
def lenient : Interpretation where
  reference _ _ := True
  unsupported schema _ := schema.same (.bool false) = false
  keyword key setting value := key = "additionalProperties" → setting.same (.bool false) = true →
    value.same (.obj []) = true
  fits _ _ := True
  whole _ := True
  unsupported_same := by
    intro a b _ hsame ha
    rw [Bool.eq_false_iff] at ha ⊢
    exact fun hb => ha (Json.same_trans hsame hb)
  keyword_same := fun hsame ha hkey hb => ha hkey (Json.same_trans hsame hb)
  fits_alternatives := (or_self_iff).symm

theorem lenient_readsFurtherKeys : lenient.ReadsFurtherKeys := by
  intro setting members _ hmembers _ hrefuses
  cases members with
  | nil => rfl
  | cons entry rest =>
    have hentry : setting.same (.bool false) = false := hmembers entry List.mem_cons_self
    cases hentry.symm.trans hrefuses

/-- An interpretation for which a keyword without a rule refuses everything. -/
def unyielding : Interpretation where
  reference _ _ := True
  unsupported _ _ := True
  keyword _ _ _ := False
  fits _ _ := True
  whole _ := True
  unsupported_same := fun _ => id
  keyword_same := fun _ => id
  fits_alternatives := (or_self_iff).symm

/-- Objects with a schema for the values under keys of some form. -/
def patterned (pattern : String) (inner : Json) : Json :=
  .obj [("patternProperties", .obj [(pattern, inner)]), ("type", .str "object")]

/-- Objects with a setting for further keys. -/
def extensible (setting : Json) : Json :=
  .obj [("additionalProperties", setting), ("type", .str "object")]

/-- Texts of a limited length. -/
def textsUpTo (length : Int) : Json :=
  .obj [("maxLength", .num (.integer length)), ("type", .str "string")]

theorem patterned_wellFormed (pattern : String) {inner : Json} (h : inner.WellFormed) :
    (patterned pattern inner).WellFormed :=
  ⟨List.pairwise_pair.2 (show "patternProperties" < "type" by decide),
    ⟨List.pairwise_singleton _ _, h, trivial⟩, trivial, trivial⟩

theorem extensible_wellFormed {setting : Json} (h : setting.WellFormed) :
    (extensible setting).WellFormed :=
  ⟨List.pairwise_pair.2 (show "additionalProperties" < "type" by decide), h, trivial, trivial⟩

theorem textsUpTo_wellFormed (length : Int) : (textsUpTo length).WellFormed :=
  ⟨List.pairwise_pair.2 (show "maxLength" < "type" by decide), trivial, trivial, trivial⟩

theorem accepts_textsUpTo {length : Int} {text : String}
    (h : (Double.ofInt text.length).le (Number.integer length).toDouble = true) :
    Accepts I (textsUpTo length) (.str text) := by
  rw [Accepts, show kind (textsUpTo length) = .string from rfl]
  refine ⟨⟨?_, ?_, ?_, ?_, ?_⟩, text, rfl⟩
  · intro values hvalues
    cases hvalues
  · intro hnumber
    cases hnumber
  · intro key bound hbound limit size hlimit hsize
    rcases List.mem_cons.1 hbound with heq | hbound
    · obtain ⟨rfl, rfl⟩ := Prod.mk.inj heq
      cases hlimit
    · obtain ⟨rfl, rfl⟩ := Prod.mk.inj (List.mem_singleton.1 hbound)
      obtain rfl := Json.num.inj (Option.some.inj hlimit)
      obtain rfl := Option.some.inj hsize
      exact h
  · intro _ pattern _ hpattern
    cases hpattern
  · intro key hkey setting hsetting
    have hkeys : ∀ entry ∈ [("maxLength", Json.num (.integer length)), ("type", .str "string")],
        entry.1 ∈ Kind.string.ownKeys := by simp [Kind.ownKeys]
    exact absurd (hkeys _ (Keyed.mem_of_get? hsetting)) hkey

theorem meets_map {schema : Members} (henum : Keyed.get? "enum" schema = none)
    (hkeys : ∀ entry ∈ schema, entry.1 ∈ Kind.map.ownKeys) : I.Meets .map (.obj schema) value where
  enum := fun hvalues => by cases henum.symm.trans hvalues
  whole := fun h => by cases h
  bound := fun h => absurd h List.not_mem_nil
  pattern := fun h => by cases h
  keyword := fun hkey _ hsetting => absurd (hkeys _ (Keyed.mem_of_get? hsetting)) hkey

theorem accepts_patterned {inner : Json} {members : Members} (pattern : String)
    (h : ∀ entry ∈ members, Accepts I inner entry.2) :
    Accepts I (patterned pattern inner) (.obj members) := by
  rw [Accepts, show kind (patterned pattern inner) = .map from rfl]
  refine ⟨meets_map rfl (by simp [Kind.ownKeys]), members, rfl, fun entry hentry => ?_⟩
  exact ⟨inner, List.mem_singleton_self _, h entry hentry⟩

theorem accepts_unify_texts :
    let shorter := patterned "^a" (textsUpTo 2)
    let longer := extensible (textsUpTo 4)
    unify shorter longer = .ok longer ∧ Accepts lenient longer (.obj [("b", .str "ab")]) := by
  intro shorter longer
  have hunify : unify shorter longer = .ok longer := rfl
  have haccepts : Accepts lenient shorter (.obj [("b", .str "ab")]) := by
    refine accepts_patterned "^a" fun entry hentry => ?_
    obtain rfl := List.mem_singleton.1 hentry
    exact accepts_textsUpTo (by decide)
  have hshorter : shorter.WellFormed := patterned_wellFormed "^a" (textsUpTo_wellFormed 2)
  have hlonger : longer.WellFormed := extensible_wellFormed (textsUpTo_wellFormed 4)
  exact ⟨hunify, accepts_unify lenient_readsFurtherKeys hshorter hlonger hunify (Or.inl haccepts)⟩

/-- Without that reading of further keys, two maps can unify to an open object that refuses what
both of them accept. -/
theorem not_accepts_unify : ∃ I : Interpretation,
    Accepts I (patterned "^a" (.bool false)) (.obj []) ∧
      unify (patterned "^a" (.bool false)) (patterned "^b" (.bool false)) =
        .ok (extensible (.bool false)) ∧ ¬ Accepts I (extensible (.bool false)) (.obj []) := by
  refine ⟨unyielding, ?_, rfl, fun h => ?_⟩
  · exact accepts_patterned "^a" fun _ hentry => absurd hentry List.not_mem_nil
  · rw [Accepts, show kind (extensible (.bool false)) = .openObject from rfl] at h
    have hrefused : unyielding.keyword "additionalProperties" (.bool false) (.obj []) :=
      h.1.keyword (by decide) rfl
    exact hrefused

end ResourceCatalog.Schema
