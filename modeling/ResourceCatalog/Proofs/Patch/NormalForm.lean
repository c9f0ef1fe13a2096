import Mathlib
import ResourceCatalog.Proofs.Patch.Settling
import ResourceCatalog.Proofs.Patch.Walk

/-!
# The normal form of the standard rules

The standard rules wait for each other within a pass, but never for good: when none of them asks for
anything, none has anything left to do. So a document is settled if and only if each of its schemas
is normal by itself, whatever its data look like.
-/

namespace ResourceCatalog.Standard

variable {subject : String} {document : Json} {members : Members}

/-! ### Reading lists back -/

/-- Reading the items of a list undoes writing them. -/
theorem mapM_eq_some_iff_map {α β : Type} {read : β → Option α} {write : α → β}
    (h : ∀ x y, read x = some y ↔ x = write y) {items : List β} {out : List α} :
    items.mapM read = some out ↔ items = out.map write := by
  induction items generalizing out with
  | nil => simp [eq_comm]
  | cons x rest ih =>
    simp only [List.mapM_cons, Option.bind_eq_bind, Option.bind_eq_some_iff, Option.pure_def,
      Option.some.injEq]
    constructor
    · rintro ⟨y, hy, others, hothers, rfl⟩
      rw [List.map_cons, (h x y).1 hy, ih.1 hothers]
    · intro hmap
      obtain ⟨y, others, rfl, hx, hrest⟩ := List.map_eq_cons_iff.1 hmap.symm
      exact ⟨y, (h x y).2 hx.symm, others, ih.2 hrest.symm, rfl⟩

theorem asStrings?_eq_some_iff {value : Json} {names : List String} :
    value.asStrings? = some names ↔ value = Json.strings names := by
  constructor
  · intro h
    cases value with
    | arr items =>
      refine congrArg Json.arr ((mapM_eq_some_iff_map fun x y => ?_).1 h)
      cases x <;> simp [Json.asString?]
    | _ => cases h
  · rintro rfl
    exact asStrings?_strings names

/-- The branch that requires some names and nothing else. -/
def requiring (names : List String) : Json := .obj [("required", Json.strings names)]

theorem requiredOnly?_eq_some_iff {branches : List Json} {lists : List (List String)} :
    requiredOnly? branches = some lists ↔ branches = lists.map requiring := by
  refine mapM_eq_some_iff_map fun branch names => ?_
  split
  · rw [asStrings?_eq_some_iff, requiring]
    simp
  · next hother =>
    refine iff_of_false (by simp) ?_
    rintro rfl
    exact hother _ rfl

/-! ### Normal schemas -/

/-- Every branch is an object with nothing but a `required` list of names. -/
def RequiresOnly (branches : List Json) : Prop :=
  ∀ branch ∈ branches, ∃ names : List String, branch = .obj [("required", Json.strings names)]

theorem requiresOnly_iff {branches : List Json} :
    RequiresOnly branches ↔ ∃ lists : List (List String), branches = lists.map requiring := by
  constructor
  · intro h
    choose! names hnames using h
    refine ⟨branches.map names, ?_⟩
    rw [List.map_map]
    exact ((List.map_congr_left fun branch hbranch => (hnames branch hbranch).symm).trans
      (List.map_id' _)).symm
  · rintro ⟨lists, rfl⟩ branch hbranch
    obtain ⟨names, _, rfl⟩ := List.mem_map.1 hbranch
    exact ⟨names, rfl⟩

/-- A character is a letter in either case; the long s is a third way to write an s. -/
def Writes (c letter : Char) : Prop := c = letter ∨ c = letter.toUpper ∨ letter = 's' ∧ c = 'ſ'

/-- The text is `true` or `false` in any case of its letters. -/
def SpellsBoolean (text : String) : Prop :=
  List.Forall₂ Writes text.toList ['t', 'r', 'u', 'e'] ∨
    List.Forall₂ Writes text.toList ['f', 'a', 'l', 's', 'e']

/-- A schema that the standard rules leave as it is. -/
structure Normal (members : Members) : Prop where
  /-- No combinator is a list of branches, not even an empty one, that only require names. -/
  combinators : ∀ key ∈ ["oneOf", "anyOf", "allOf"], ∀ branches,
    Keyed.get? key members = some (.arr branches) → ¬ RequiresOnly branches
  /-- A list of types has several of them and stands next to an `anyOf`. -/
  types : ∀ types, Keyed.get? "type" members = some (.arr types) →
    2 ≤ types.length ∧ (Keyed.get? "anyOf" members).isSome
  required : Keyed.get? "required" members ≠ some (.arr [])
  /-- Properties that are required are declared, if any are. -/
  declared : ∀ properties names, Keyed.get? "properties" members = some (.obj properties) →
    Keyed.get? "required" members = some (Json.strings names) →
      ∀ name ∈ names, (Keyed.get? name properties).isSome
  /-- The default of a boolean does not spell a boolean. -/
  default : Keyed.get? "type" members = some (.str "boolean") →
    ∀ text, Keyed.get? "default" members = some (.str text) → ¬ SpellsBoolean text

/-- Every schema of the document is normal. -/
def InNormalForm (subject : String) (document : Json) : Prop :=
  ∀ c ∈ Cursor.places subject document, c.role = .schema →
    ∀ members, c.value = .obj members → Normal members

/-! ### What each rule leaves -/

theorem arrayAt?_eq_some_iff {key : String} {items : List Json} :
    arrayAt? members key = some items ↔ Keyed.get? key members = some (.arr items) := by
  refine ⟨get?_of_arrayAt?, fun h => ?_⟩
  rw [arrayAt?, h]
  rfl

theorem isFolded_iff {key : String} : isFolded members key = true ↔
    ∃ branches, Keyed.get? key members = some (.arr branches) ∧ RequiresOnly branches := by
  simp only [isFolded, Option.isSome_iff_exists, Option.bind_eq_some_iff, arrayAt?_eq_some_iff,
    requiredOnly?_eq_some_iff, requiresOnly_iff]
  rw [exists_comm]
  simp only [exists_and_left]

theorem foldsRequired_eq_false_iff : foldsRequired members = false ↔
    ∀ key ∈ ["oneOf", "anyOf", "allOf"], ∀ branches,
      Keyed.get? key members = some (.arr branches) → ¬ RequiresOnly branches := by
  rw [← Bool.not_eq_true, isFolded_iff_exists]
  simp only [isFolded_iff]
  push Not
  rfl

theorem foldEdits_eq_nil_iff : foldEdits members = [] ↔ foldsRequired members = false := by
  refine ⟨fun hnone => ?_, foldEdits_eq_nil⟩
  rw [← Bool.not_eq_true, isFolded_iff_exists]
  rintro ⟨key, hkey, hfolded⟩
  have hfilter := List.map_eq_nil_iff.1 (List.append_eq_nil_iff.1 hnone).1
  exact List.filter_eq_nil_iff.1 hfilter key hkey hfolded

theorem typeEdits_eq_nil_iff (hfolds : foldsRequired members = false) : typeEdits members = [] ↔
    ∀ types, Keyed.get? "type" members = some (.arr types) →
      2 ≤ types.length ∧ (Keyed.get? "anyOf" members).isSome := by
  simp only [← arrayAt?_eq_some_iff]
  rw [typeEdits]
  rcases htypes : arrayAt? members "type" with _ | _ | ⟨type, _ | ⟨other, more⟩⟩
  · simp
  · simp
  · simp
  · simp [splitsType, htypes, hfolds, Keyed.contains, Option.isSome_iff_ne_none]

theorem bind_asObject?_eq_some_iff {value? : Option Json} {found : Members} :
    value?.bind Json.asObject? = some found ↔ value? = some (.obj found) := by
  rcases value? with _ | value
  · simp
  · cases value <;> simp [Json.asObject?]

theorem bind_asStrings?_eq_some_iff {value? : Option Json} {names : List String} :
    value?.bind Json.asStrings? = some names ↔ value? = some (Json.strings names) := by
  simp only [Option.bind_eq_some_iff, asStrings?_eq_some_iff, exists_eq_right]

theorem isEmptyList_iff {value? : Option Json} :
    isEmptyList value? = true ↔ value? = some (.arr []) := by
  rw [isEmptyList.eq_def]
  split
  · simp
  · next hother => simpa using hother

theorem listsUndeclared_eq_false_iff {properties? required? : Option Json} :
    listsUndeclared properties? required? = false ↔
      ∀ properties names, properties? = some (.obj properties) →
        required? = some (Json.strings names) →
          ∀ name ∈ names, (Keyed.get? name properties).isSome := by
  simp only [← bind_asObject?_eq_some_iff, ← bind_asStrings?_eq_some_iff]
  rw [listsUndeclared]
  cases properties?.bind Json.asObject? with
  | none => simp
  | some properties =>
    cases required?.bind Json.asStrings? with
    | none => simp
    | some names => simp [Keyed.contains, Option.isSome_iff_ne_none]

/-- `required` is left alone if and only if it is tidy. -/
theorem tidyEdits_eq_nil_iff (hfolds : foldsRequired members = false)
    (hsplit : splitsType members = false) :
    emptyRequiredEdits members = [] ∧ undeclaredEdits members = [] ↔
      isUntidy (Keyed.get? "properties" members) (Keyed.get? "required" members) = false := by
  constructor
  · rintro ⟨hempty, hundeclared⟩
    have hfull : isEmptyList (Keyed.get? "required" members) = false := by
      rw [← Bool.not_eq_true, isEmptyList_iff]
      intro hrequired
      rw [emptyRequiredEdits, hfolds, hsplit, hrequired] at hempty
      cases hempty
    have htidy := isUntidy_undeclaredEdits hfolds hsplit hfull
    rwa [hundeclared, List.foldl_nil] at htidy
  · intro htidy
    by_contra hedits
    rw [not_and_or] at hedits
    rw [isUntidy_of_edits hedits] at htidy
    cases htidy

/-- The letters of `true` and `false`. -/
def booleanLetters : List Char := ['t', 'r', 'u', 'e', 'f', 'a', 'l', 's']

theorem writes_iff {c letter : Char} (h : letter ∈ booleanLetters) :
    Writes c letter ↔ foldCase c = letter := by
  have hletters : ∀ letter ∈ booleanLetters, 97 ≤ letter.toNat ∧ letter.toNat ≤ 122 ∧
      letter.toUpper.toNat + 32 = letter.toNat := by simp [booleanLetters]
  obtain ⟨hlow, hhigh, hupper⟩ := hletters letter h
  have hlong : 'ſ'.toNat = 383 := rfl
  have hs : 's'.toNat = 115 := rfl
  rw [Writes, foldCase]
  split
  · next hcapital =>
    have hrange : 65 ≤ c.toNat ∧ c.toNat ≤ 90 := hcapital
    have hvalid : (c.toNat + 32).isValidChar := Or.inl (by omega)
    simp only [← Char.toNat_inj, Char.toNat_ofNat, if_pos hvalid, hlong, hs]
    omega
  · next hother =>
    have hrange : ¬ (65 ≤ c.toNat ∧ c.toNat ≤ 90) := hother
    split
    · simp only [← Char.toNat_inj, hlong, hs]
      omega
    · simp only [← Char.toNat_inj, hlong, hs]
      omega

theorem forall₂_writes_iff {text word : List Char} (h : ∀ letter ∈ word, letter ∈ booleanLetters) :
    List.Forall₂ Writes text word ↔ text.map foldCase = word := by
  induction word generalizing text with
  | nil => simp
  | cons letter rest ih =>
    obtain ⟨hletter, hrest⟩ := List.forall_mem_cons.1 h
    cases text with
    | nil => simp
    | cons c text =>
      rw [List.forall₂_cons, List.map_cons, List.cons_eq_cons, writes_iff hletter, ih hrest]

theorem spelledBool?_eq_none_iff {text : String} :
    spelledBool? text = none ↔ ¬ SpellsBoolean text := by
  rw [SpellsBoolean, forall₂_writes_iff (by simp [booleanLetters]),
    forall₂_writes_iff (by simp [booleanLetters]), not_or, spelledBool?]
  split
  · next htrue => simp [htrue]
  · next hfalse => simp [hfalse]

theorem defaultEdits_eq_nil_iff : defaultEdits members = [] ↔
    (Keyed.get? "type" members = some (.str "boolean") →
      ∀ text, Keyed.get? "default" members = some (.str text) → ¬ SpellsBoolean text) := by
  simp only [← spelledBool?_eq_none_iff]
  rw [defaultEdits]
  split
  · next text htype hdefault =>
    rw [htype, hdefault]
    cases hspelled : spelledBool? text <;> simp [hspelled]
  · next hother =>
    refine iff_of_true rfl fun htype text hdefault => ?_
    exact absurd hdefault (hother text htype)

/-- Nothing is edited in a schema if and only if it is normal. -/
theorem schemaEdits_eq_nil_iff : schemaEdits members = [] ↔ Normal members := by
  constructor
  · intro hnone
    have hsplit := splitsType_eq_false hnone
    simp only [schemaEdits, List.append_eq_nil_iff] at hnone
    obtain ⟨⟨⟨⟨hfold, htype⟩, hempty⟩, hundeclared⟩, hdefault⟩ := hnone
    have hfolds := foldEdits_eq_nil_iff.1 hfold
    have htidy := (tidyEdits_eq_nil_iff hfolds hsplit).1 ⟨hempty, hundeclared⟩
    rw [isUntidy, Bool.or_eq_false_iff, ← Bool.not_eq_true, isEmptyList_iff,
      listsUndeclared_eq_false_iff] at htidy
    exact ⟨foldsRequired_eq_false_iff.1 hfolds, (typeEdits_eq_nil_iff hfolds).1 htype, htidy.1,
      htidy.2, defaultEdits_eq_nil_iff.1 hdefault⟩
  · intro h
    have hfolds := foldsRequired_eq_false_iff.2 h.combinators
    have htype := (typeEdits_eq_nil_iff hfolds).2 h.types
    have hsplit : splitsType members = false := by
      by_contra hsplits
      rw [Bool.not_eq_false] at hsplits
      obtain ⟨types, htypes, _⟩ := exists_types hsplits
      have hanyOf := (h.types types (arrayAt?_eq_some_iff.1 htypes)).2
      rw [not_contains_anyOf hsplits] at hanyOf
      cases hanyOf
    have huntidy : isUntidy (Keyed.get? "properties" members) (Keyed.get? "required" members) =
        false := by
      rw [isUntidy, Bool.or_eq_false_iff, ← Bool.not_eq_true, isEmptyList_iff,
        listsUndeclared_eq_false_iff]
      exact ⟨h.required, h.declared⟩
    obtain ⟨hempty, hundeclared⟩ := (tidyEdits_eq_nil_iff hfolds hsplit).2 huntidy
    rw [schemaEdits, foldEdits_eq_nil hfolds, htype, hempty, hundeclared,
      defaultEdits_eq_nil_iff.2 h.default]
    rfl

/-! ### Settled documents -/

theorem rule_eq_nil_iff {c : Cursor} : rule c = [] ↔
    (c.role = .schema → ∀ members, c.value = .obj members → Normal members) := by
  cases hobject : c.value.isObject with
  | false =>
    refine iff_of_true (rule_elsewhere c hobject) fun _ members hmembers => ?_
    rw [hmembers] at hobject
    cases hobject
  | true =>
    obtain ⟨members, hmembers⟩ := exists_members_of_isObject hobject
    rw [← List.map_eq_nil_iff (f := Correction.patch), patches_rule c members hmembers,
      List.map_eq_nil_iff, edits]
    split
    · next hrole =>
      rw [schemaEdits_eq_nil_iff]
      simp [hrole, hmembers]
    · next hrole => simp [hrole]

theorem pass_eq_nil_iff_inNormalForm :
    pass rule subject document = [] ↔ InNormalForm subject document := by
  rw [pass_eq_nil_iff_places, InNormalForm]
  simp only [rule_eq_nil_iff]

/-- A pass of the standard rules asks for nothing if and only if every schema of the document is
normal, so every document that settles is in normal form. -/
theorem standard_normal_form (subject : String) (document : Json) :
    (pass rule subject document = [] ↔ InNormalForm subject document) ∧
      ∀ s, settle ((RuleBook.empty.install provider).ruleFor subject) subject document = .ok s →
        InNormalForm subject s.document := by
  refine ⟨pass_eq_nil_iff_inNormalForm, fun s hs => ?_⟩
  rw [ruleFor_provider] at hs
  obtain ⟨n, _, _, hsettled⟩ := exists_settled_of_settle_eq_ok hs
  exact pass_eq_nil_iff_inNormalForm.1 hsettled

/-- Two lists that may be null are not in normal form, and what they settle to is. -/
theorem standard_normal_form_nullableLists :
    ¬ InNormalForm "Test" (nullableLists 2) ∧
    (∃ s, settle ((RuleBook.empty.install provider).ruleFor "Test") "Test" (nullableLists 2) =
        .ok s ∧ s.document = listOrNull (listOrNull (nullableLists 0))) ∧
    InNormalForm "Test" (listOrNull (listOrNull (nullableLists 0))) := by
  have hsettle := settle_nullableLists "Test" 2
  rw [if_pos (by decide), ← ruleFor_provider "Test"] at hsettle
  obtain ⟨hiff, hsettled⟩ := standard_normal_form "Test" (nullableLists 2)
  refine ⟨fun hnormal => ?_, ⟨_, hsettle, rfl⟩, hsettled _ hsettle⟩
  exact absurd ((pass_nullableLists_eq_nil_iff "Test" 2 0).1 (hiff.2 hnormal)) (by decide)

end ResourceCatalog.Standard
