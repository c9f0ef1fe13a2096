import Mathlib
import ResourceCatalog.Proofs.Patch.NormalForm

/-!
# What a schema object means

A schema object accepts a value when each of its keywords does. The keywords that go with a type
constrain the values of that type and no others, and they do so together. The type, `required` and
the combinators mean what they say. All else means what a reading says, and a reading is arbitrary.
-/

namespace ResourceCatalog

open Standard

/-- The meaning of what the standard rules do not look into. -/
structure Reading where
  /-- The numbers that are integers. -/
  whole : Number → Prop
  /-- The values of a type that the keywords of this type allow together. -/
  group : String → Members → Json → Prop
  /-- The values that another keyword allows with its setting. -/
  keyword : String → Json → Json → Prop
  /-- The values that a schema accepts that is no object. -/
  plain : Json → Json → Prop

namespace Reading

section

variable (reading : Reading)

/-! ### Keywords by themselves -/

/-- The value has the JSON type of some name. -/
def HasType (name : String) : Json → Prop
  | .null => name = "null"
  | .bool _ => name = "boolean"
  | .num n => name = "number" ∨ name = "integer" ∧ reading.whole n
  | .str _ => name = "string"
  | .arr _ => name = "array"
  | .obj _ => name = "object"

/-- The types that have keywords of their own. Those of integers are those of numbers. -/
def groups : List String := ["array", "object", "string", "number"]

/-- The members of a schema that go with a type, without `required`, which is read by itself. -/
def ownMembers (type : String) (members : Members) : Members :=
  members.filter fun entry => (typeKeywords type).contains entry.1 && entry.1 != "required"

/-- What the members that go with a type allow, if there are any, of the values of this type. -/
def GroupsAllow (members : Members) (value : Json) : Prop :=
  ∀ type ∈ groups, reading.HasType type value → ownMembers type members ≠ [] →
    reading.group type (ownMembers type members) value

/-- The value has the type that is named, or one of those that are listed. -/
def TypeAllows (setting value : Json) : Prop :=
  match setting with
  | .str name => reading.HasType name value
  | _ =>
    match setting.asStrings? with
    | some names => ∃ name ∈ names, reading.HasType name value
    | none => reading.keyword "type" setting value

/-- An object has a member under each of the names. -/
def HasNames (names : List String) (value : Json) : Prop :=
  reading.HasType "object" value → ∀ name ∈ names, (value.member? name).isSome

def RequiredAllows (setting value : Json) : Prop :=
  match setting.asStrings? with
  | some names => reading.HasNames names value
  | none => reading.HasType "object" value → reading.keyword "required" setting value

/-- One of the verdicts is positive and the others are not. -/
def ExactlyOne (verdicts : List Prop) : Prop :=
  ∃ before verdict behind, verdicts = before ++ verdict :: behind ∧ verdict ∧
    ∀ other ∈ before ++ behind, ¬ other

/-- What a keyword allows by itself, given the verdicts of the schemas that its setting lists. -/
def KeywordAllows (key : String) (setting : Json) (verdicts : List Prop) (value : Json) : Prop :=
  if key = "type" then reading.TypeAllows setting value
  else if key = "required" then reading.RequiredAllows setting value
  else if key = "anyOf" ∧ setting.isArray = true then ∃ verdict ∈ verdicts, verdict
  else if key = "oneOf" ∧ setting.isArray = true then ExactlyOne verdicts
  else if key = "allOf" ∧ setting.isArray = true then ∀ verdict ∈ verdicts, verdict
  else if key ∈ groups.flatMap typeKeywords then True
  else reading.keyword key setting value

/-! ### Schemas -/

variable (value : Json)

mutual

/-- A schema accepts the value. -/
def Accepts : Json → Prop
  | .obj members => reading.GroupsAllow members value ∧ MembersAccept members
  | schema => reading.plain schema value

def MembersAccept : List (String × Json) → Prop
  | [] => True
  | (key, setting) :: rest =>
    reading.KeywordAllows key setting (verdictsOf setting) value ∧ MembersAccept rest

/-- The verdicts of the schemas that a setting lists. -/
def verdictsOf : Json → List Prop
  | .arr items => verdicts items
  | _ => []

def verdicts : List Json → List Prop
  | [] => []
  | item :: rest => Accepts item :: verdicts rest

end

/-- What a keyword with its setting allows. -/
def Allows (key : String) (setting : Json) : Prop :=
  reading.KeywordAllows key setting (reading.verdictsOf value setting) value

end

variable {reading : Reading} {value : Json} {members others : Members}

theorem verdicts_eq_map (items : List Json) :
    reading.verdicts value items = items.map (reading.Accepts value) := by
  induction items with
  | nil => rfl
  | cons item rest ih => rw [verdicts, ih, List.map_cons]

theorem membersAccept_iff : reading.MembersAccept value members ↔
    ∀ entry ∈ members, reading.Allows value entry.1 entry.2 := by
  induction members with
  | nil => simp [MembersAccept]
  | cons entry rest ih =>
    rw [MembersAccept, ih, List.forall_mem_cons]
    rfl

/-- A schema object accepts a value if its groups and each of its keywords allow it. -/
theorem accepts_obj (h : Keyed.Ascending members) : reading.Accepts value (.obj members) ↔
    reading.GroupsAllow members value ∧
      ∀ key setting, Keyed.get? key members = some setting → reading.Allows value key setting := by
  rw [Accepts, membersAccept_iff]
  apply and_congr_right
  intro _
  constructor
  · intro hall key setting hget
    exact hall (key, setting) (Keyed.mem_of_get? hget)
  · intro hall entry hentry
    exact hall entry.1 entry.2 (h.get?_of_mem hentry)

/-! ### Types and the keywords that go with them -/

theorem typeKeywords_eq_of_hasType {type name : String} (h : type ∈ groups)
    (htype : reading.HasType type value) (hname : reading.HasType name value) :
    typeKeywords name = typeKeywords type := by
  have hgroup : ∀ type ∈ groups, type ≠ "null" ∧ type ≠ "boolean" ∧ type ≠ "integer" := by decide
  obtain ⟨hnull, hboolean, hinteger⟩ := hgroup type h
  cases value with
  | null => exact absurd htype hnull
  | bool b => exact absurd htype hboolean
  | num n =>
    obtain rfl : type = "number" := htype.resolve_right fun hwhole => hinteger hwhole.1
    rcases hname with rfl | ⟨rfl, _⟩
    · rfl
    · rfl
  | str text => rw [show name = type from Eq.trans hname (Eq.symm htype)]
  | arr items => rw [show name = type from Eq.trans hname (Eq.symm htype)]
  | obj members => rw [show name = type from Eq.trans hname (Eq.symm htype)]

theorem ascending_ownMembers (h : Keyed.Ascending members) (type : String) :
    Keyed.Ascending (ownMembers type members) :=
  h.sublist List.filter_sublist

theorem get?_ownMembers (h : Keyed.Ascending members) (type key : String) :
    Keyed.get? key (ownMembers type members) =
      if key ∈ typeKeywords type ∧ key ≠ "required" then Keyed.get? key members else none := by
  rw [ownMembers, Keyed.get?_filter h]
  split
  · next hown => cases Keyed.get? key members <;> simp [hown]
  · next hother =>
    cases Keyed.get? key members with
    | none => rfl
    | some setting => simpa using hother

/-- What goes with a type is told by the members under the keywords of this type. -/
theorem ownMembers_congr (h : Keyed.Ascending members) (hothers : Keyed.Ascending others)
    {type : String} (hsame : ∀ key ∈ typeKeywords type, key ≠ "required" →
      Keyed.get? key members = Keyed.get? key others) :
    ownMembers type members = ownMembers type others := by
  apply (ascending_ownMembers h type).ext (ascending_ownMembers hothers type)
  intro key
  rw [get?_ownMembers h, get?_ownMembers hothers]
  split
  · next hown => exact hsame key hown.1 hown.2
  · rfl

theorem ownMembers_eq_nil (h : Keyed.Ascending members) {type : String}
    (hnone : ∀ key ∈ typeKeywords type, key ≠ "required" → Keyed.get? key members = none) :
    ownMembers type members = [] :=
  ownMembers_congr h List.Pairwise.nil hnone

theorem groupsAllow_congr (h : ∀ type ∈ groups, reading.HasType type value →
      ownMembers type members = ownMembers type others) :
    reading.GroupsAllow members value ↔ reading.GroupsAllow others value := by
  apply forall₂_congr
  intro type htype
  apply forall_congr'
  intro hvalue
  rw [h type htype hvalue]

theorem groupsAllow_of_eq_nil (h : ∀ type ∈ groups, reading.HasType type value →
      ownMembers type members = []) : reading.GroupsAllow members value :=
  fun type htype hvalue hown => absurd (h type htype hvalue) hown

/-! ### What keywords allow -/

theorem allows_typeName {name : String} :
    reading.Allows value "type" (.str name) ↔ reading.HasType name value := by
  rw [Allows, KeywordAllows, if_pos rfl, TypeAllows]

theorem allows_typeNames {names : List String} :
    reading.Allows value "type" (Json.strings names) ↔
      ∃ name ∈ names, reading.HasType name value := by
  rw [Allows, KeywordAllows, if_pos rfl, Json.strings, TypeAllows]
  · rw [← Json.strings, asStrings?_strings]
  · simp

theorem allows_required {setting : Json} :
    reading.Allows value "required" setting ↔ reading.RequiredAllows setting value := by
  rw [Allows, KeywordAllows, if_neg (by decide), if_pos rfl]

theorem allows_requiredNames {names : List String} :
    reading.Allows value "required" (Json.strings names) ↔ reading.HasNames names value := by
  rw [allows_required, RequiredAllows, asStrings?_strings]

/-- `required` is about objects only. -/
theorem allows_required_of_object {setting : Json}
    (h : reading.HasType "object" value → reading.Allows value "required" setting) :
    reading.Allows value "required" setting := by
  rw [allows_required] at h ⊢
  rw [RequiredAllows] at h ⊢
  split
  · next hnames =>
    rw [hnames] at h
    exact fun hobject => h hobject hobject
  · next hnone =>
    rw [hnone] at h
    exact fun hobject => h hobject hobject

theorem allows_anyOf {branches : List Json} : reading.Allows value "anyOf" (.arr branches) ↔
    ∃ branch ∈ branches, reading.Accepts value branch := by
  simp only [Allows, KeywordAllows, Json.isArray, String.reduceEq, if_false, true_and, if_true,
    verdictsOf, verdicts_eq_map, List.mem_map, exists_exists_and_eq_and]

theorem allows_oneOf {branches : List Json} : reading.Allows value "oneOf" (.arr branches) ↔
    ExactlyOne (branches.map (reading.Accepts value)) := by
  simp only [Allows, KeywordAllows, Json.isArray, String.reduceEq, if_false, false_and, true_and,
    if_true, verdictsOf, verdicts_eq_map]

theorem allows_allOf {branches : List Json} : reading.Allows value "allOf" (.arr branches) ↔
    ∀ branch ∈ branches, reading.Accepts value branch := by
  simp only [Allows, KeywordAllows, Json.isArray, String.reduceEq, if_false, false_and, true_and,
    if_true, verdictsOf, verdicts_eq_map, List.forall_mem_map]

/-- The keywords of a type allow everything by themselves. -/
theorem allows_own {name key : String} (hkey : key ∈ typeKeywords name) (hne : key ≠ "required")
    (setting : Json) : reading.Allows value key setting := by
  have hmovable := mem_movableKeywords hkey
  have hother : ∀ key ∈ movableKeywords,
      key ≠ "type" ∧ key ≠ "anyOf" ∧ key ≠ "oneOf" ∧ key ≠ "allOf" := by decide
  obtain ⟨htype, hanyOf, honeOf, hallOf⟩ := hother key hmovable
  have hgroups : key ∈ groups.flatMap typeKeywords := hmovable
  simp [Allows, KeywordAllows, htype, hne, hanyOf, honeOf, hallOf, hgroups]

/-- A schema that only requires names accepts what has them, unless it is no object at all. -/
theorem accepts_requiring {names : List String} :
    reading.Accepts value (requiring names) ↔ reading.HasNames names value := by
  rw [requiring, accepts_obj (List.pairwise_singleton _ _)]
  have hgroups : reading.GroupsAllow [("required", Json.strings names)] value :=
    groupsAllow_of_eq_nil fun type _ _ => ownMembers_eq_nil (List.pairwise_singleton _ _)
      fun key _ hne => by simp [Keyed.get?, hne.symm]
  rw [and_iff_right hgroups]
  constructor
  · intro hall
    exact allows_requiredNames.1 (hall "required" _ rfl)
  · intro hnames key setting hget
    rw [Keyed.get?] at hget
    split at hget
    · next hkey =>
      subst hkey
      rw [← Option.some.inj hget]
      exact allows_requiredNames.2 hnames
    · cases hget

end Reading

end ResourceCatalog
