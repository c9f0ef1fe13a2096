import Mathlib
import ResourceCatalog.Patch.Role
import ResourceCatalog.Proofs.Import.Deduplication
import ResourceCatalog.Proofs.Json.Parts
import ResourceCatalog.Proofs.Patch.Rewriting

/-!
# Documentation and data

Documentation is a matter of schemas: a member called `title` documents an object that is a schema,
and it is data like any other in a default or among the members of an enumeration. What a place
holds is told by its role. A fingerprint knows no roles, it only tells the names of schemas from
other keys. So it never sees the documentation of a schema, but it overlooks members of data too
that are called like documentation. Where data has no such members it sees all else.
-/

namespace ResourceCatalog.Schema

/-! ### Schemas without their documentation -/

mutual

/-- A value of some role without the documentation of the schemas in it. The role of a part is the
one that a cursor on it has. -/
def withoutDocumentation (role : Role) : Json → Json
  | .arr items => .arr (itemsWithoutDocumentation role items)
  | .obj members => .obj (membersWithoutDocumentation role members)
  | value => value

def itemsWithoutDocumentation (role : Role) : List Json → List Json
  | [] => []
  | item :: rest =>
    withoutDocumentation (role.below (.index 0) item) item :: itemsWithoutDocumentation role rest

def membersWithoutDocumentation (role : Role) : List (String × Json) → List (String × Json)
  | [] => []
  | (key, value) :: rest =>
    if role = .schema ∧ key ∈ documentationKeys then membersWithoutDocumentation role rest
    else (key, withoutDocumentation (role.below (.property key) value) value) ::
      membersWithoutDocumentation role rest

end

mutual

/-- The data in a value of some role has no members that are called like documentation. -/
def PlainData (role : Role) : Json → Prop
  | .arr items =>
    if role = .data then undocumented (.arr items) = .arr items else ItemsPlain role items
  | .obj members =>
    if role = .data then undocumented (.obj members) = .obj members else MembersPlain role members
  | _ => True

def ItemsPlain (role : Role) : List Json → Prop
  | [] => True
  | item :: rest => PlainData (role.below (.index 0) item) item ∧ ItemsPlain role rest

/-- The documentation of a schema may hold anything. -/
def MembersPlain (role : Role) : List (String × Json) → Prop
  | [] => True
  | (key, value) :: rest =>
    (role = .schema ∧ key ∈ documentationKeys ∨
      PlainData (role.below (.property key) value) value) ∧ MembersPlain role rest

end

/-- How a value is stripped agrees with its role. -/
def InStep (role : Role) (naming : Bool) (value : Json) : Prop :=
  match role with
  | .schema => naming = false
  | .nameMap => naming = true
  | .schemaList => value.isArray = true
  | .data => naming = false ∨ value.isObject = false

variable {role : Role} {naming : Bool} {key : String} {value : Json} {items : List Json}
  {members : Members}

/-- A part of what is not data is stripped in step with its role. -/
theorem InStep.member (h : InStep role naming (.obj members)) (hrole : role ≠ .data) :
    InStep (role.below (.property key) value) (!naming && namingKeys.contains key) value := by
  cases role with
  | schema =>
    obtain rfl : naming = false := h
    change InStep (Role.ofKeyword key value) (namingKeys.contains key) value
    have hkeys : namingKeys = Role.nameMapKeys := rfl
    rw [Role.ofKeyword, ← hkeys]
    by_cases hobject : value.isObject = true
    · cases hnaming : namingKeys.contains key with
      | true => simp [InStep, hobject]
      | false =>
        have harray : value.isArray = false := by cases value <;> first | rfl | cases hobject
        simp only [hobject, harray, Bool.and_false, Bool.and_true, Bool.false_eq_true, if_false]
        split
        · rfl
        · exact Or.inl rfl
    · have hscalar := Bool.not_eq_true _ ▸ hobject
      simp only [hscalar, Bool.and_false, Bool.false_eq_true, if_false]
      split
      · next hlist => exact (Bool.and_eq_true_iff.1 hlist).2
      · split
        · next hitems => exact (Bool.and_eq_true_iff.1 hitems).2
        · exact Or.inr hscalar
  | nameMap =>
    obtain rfl : naming = true := h
    rfl
  | schemaList => cases h
  | data => exact absurd rfl hrole

theorem InStep.item (role : Role) (item : Json) : InStep (role.below (.index 0) item) false item := by
  cases role <;> first | rfl | exact Or.inl rfl

/-- For an object it does not matter which members it has. -/
theorem InStep.obj (h : InStep role naming (.obj members)) (others : Members) :
    InStep role naming (.obj others) := by
  cases role <;> exact h

/-- The members of an object are its documentation by its role, or by how it is stripped. -/
theorem InStep.drops_iff (h : InStep role naming (.obj members)) (hrole : role ≠ .data)
    (key : String) :
    (!naming && documentationKeys.contains key) = true ↔
      role = .schema ∧ key ∈ documentationKeys := by
  cases role with
  | schema =>
    obtain rfl : naming = false := h
    simp
  | nameMap =>
    obtain rfl : naming = true := h
    simp
  | schemaList => cases h
  | data => exact absurd rfl hrole

/-! ### What is left alone -/

theorem strip_scalar (harr : value.isArray = false) (hobj : value.isObject = false) :
    strip naming value = value := by
  cases value with
  | arr _ => cases harr
  | obj _ => cases hobj
  | _ => rfl

theorem withoutDocumentation_scalar (harr : value.isArray = false) (hobj : value.isObject = false) :
    withoutDocumentation role value = value := by
  cases value with
  | arr _ => cases harr
  | obj _ => cases hobj
  | _ => rfl

theorem plainData_scalar (harr : value.isArray = false) (hobj : value.isObject = false) :
    PlainData role value := by
  cases value with
  | arr _ => cases harr
  | obj _ => cases hobj
  | _ => trivial

theorem withoutDocumentation_data (value : Json) : withoutDocumentation .data value = value := by
  induction value using Json.partsInduction with
  | scalar value harr hobj => exact withoutDocumentation_scalar harr hobj
  | arr items ih =>
    rw [withoutDocumentation]
    refine congrArg Json.arr ?_
    induction items with
    | nil => rfl
    | cons item rest ihrest =>
      obtain ⟨hitem, hrest⟩ := List.forall_mem_cons.1 ih
      rw [itemsWithoutDocumentation, Role.below_data, hitem, ihrest hrest]
  | obj members ih =>
    rw [withoutDocumentation]
    refine congrArg Json.obj ?_
    induction members with
    | nil => rfl
    | cons entry rest ihrest =>
      obtain ⟨key, value⟩ := entry
      obtain ⟨hentry, hrest⟩ := List.forall_mem_cons.1 ih
      rw [membersWithoutDocumentation, if_neg (fun h => nomatch h.1), Role.below_data, hentry,
        ihrest hrest]

/-- Stripping keeps the kind of a value, so it keeps the roles of the parts. -/
theorem below_strip (key : Key) (value : Json) :
    role.below key (strip naming value) = role.below key value := by
  cases value <;> rfl

/-- What is stripped has no documentation left to strip. -/
theorem strip_strip (naming : Bool) (value : Json) :
    strip naming (strip naming value) = strip naming value := by
  induction value using Json.partsInduction generalizing naming with
  | scalar value harr hobj => rw [strip_scalar harr hobj, strip_scalar harr hobj]
  | arr items ih =>
    rw [strip, strip]
    refine congrArg Json.arr ?_
    induction items with
    | nil => rfl
    | cons item rest ihrest =>
      obtain ⟨hitem, hrest⟩ := List.forall_mem_cons.1 ih
      rw [stripItems, stripItems, hitem, ihrest hrest]
  | obj members ih =>
    rw [strip, strip]
    refine congrArg Json.obj ?_
    induction members with
    | nil => rfl
    | cons entry rest ihrest =>
      obtain ⟨key, value⟩ := entry
      obtain ⟨hentry, hrest⟩ := List.forall_mem_cons.1 ih
      rw [stripMembers]
      split
      · exact ihrest hrest
      · next hkept => rw [stripMembers, if_neg hkept, hentry, ihrest hrest]

/-! ### Stripping and roles -/

namespace InStep

/-- Stripping drops all that is documentation by its role. -/
theorem strip_withoutDocumentation (h : InStep role naming value) :
    strip naming (withoutDocumentation role value) = strip naming value := by
  induction value using Json.partsInduction generalizing role naming with
  | scalar value harr hobj => rw [withoutDocumentation_scalar harr hobj]
  | arr items ih =>
    rw [withoutDocumentation, strip, strip]
    refine congrArg Json.arr ?_
    clear h
    induction items with
    | nil => rfl
    | cons item rest ihrest =>
      obtain ⟨hitem, hrest⟩ := List.forall_mem_cons.1 ih
      rw [itemsWithoutDocumentation, stripItems, stripItems, hitem (InStep.item role item),
        ihrest hrest]
  | obj members ih =>
    by_cases hrole : role = .data
    · rw [hrole, withoutDocumentation_data]
    rw [withoutDocumentation, strip, strip]
    refine congrArg Json.obj ?_
    induction members with
    | nil => rfl
    | cons entry rest ihrest =>
      obtain ⟨key, value⟩ := entry
      obtain ⟨hentry, hrest⟩ := List.forall_mem_cons.1 ih
      have hdrops := h.drops_iff hrole key
      rw [membersWithoutDocumentation, stripMembers]
      by_cases hdropped : role = .schema ∧ key ∈ documentationKeys
      · rw [if_pos hdropped, if_pos (hdrops.2 hdropped), ihrest hrest (h.obj rest)]
      · have hkept := mt hdrops.1 hdropped
        rw [if_neg hdropped, if_neg hkept, stripMembers, if_neg hkept, hentry (h.member hrole),
          ihrest hrest (h.obj rest)]

/-- What is stripped has no documentation by its role. -/
theorem withoutDocumentation_strip (h : InStep role naming value) :
    withoutDocumentation role (strip naming value) = strip naming value := by
  induction value using Json.partsInduction generalizing role naming with
  | scalar value harr hobj => rw [strip_scalar harr hobj, withoutDocumentation_scalar harr hobj]
  | arr items ih =>
    rw [strip, withoutDocumentation]
    refine congrArg Json.arr ?_
    clear h
    induction items with
    | nil => rfl
    | cons item rest ihrest =>
      obtain ⟨hitem, hrest⟩ := List.forall_mem_cons.1 ih
      rw [stripItems, itemsWithoutDocumentation, below_strip, hitem (InStep.item role item),
        ihrest hrest]
  | obj members ih =>
    by_cases hrole : role = .data
    · rw [hrole, withoutDocumentation_data]
    rw [strip, withoutDocumentation]
    refine congrArg Json.obj ?_
    induction members with
    | nil => rfl
    | cons entry rest ihrest =>
      obtain ⟨key, value⟩ := entry
      obtain ⟨hentry, hrest⟩ := List.forall_mem_cons.1 ih
      have hdrops := h.drops_iff hrole key
      rw [stripMembers]
      by_cases hdropped : role = .schema ∧ key ∈ documentationKeys
      · rw [if_pos (hdrops.2 hdropped), ihrest hrest (h.obj rest)]
      · rw [if_neg (mt hdrops.1 hdropped), membersWithoutDocumentation, if_neg hdropped,
          below_strip, hentry (h.member hrole), ihrest hrest (h.obj rest)]

/-- Stripping drops nothing but documentation exactly if the data is plain. -/
theorem strip_eq_iff (h : InStep role naming value) :
    strip naming value = withoutDocumentation role value ↔ PlainData role value := by
  induction value using Json.partsInduction generalizing role naming with
  | scalar value harr hobj =>
    rw [strip_scalar harr hobj, withoutDocumentation_scalar harr hobj]
    exact iff_of_true rfl (plainData_scalar harr hobj)
  | arr items ih =>
    by_cases hrole : role = .data
    · rw [PlainData, if_pos hrole, hrole, withoutDocumentation_data, undocumented, strip, strip]
    rw [PlainData, if_neg hrole, strip, withoutDocumentation, Json.arr.injEq]
    clear h hrole
    induction items with
    | nil => exact iff_of_true rfl trivial
    | cons item rest ihrest =>
      obtain ⟨hitem, hrest⟩ := List.forall_mem_cons.1 ih
      rw [stripItems, itemsWithoutDocumentation, List.cons.injEq, hitem (InStep.item role item),
        ihrest hrest, ItemsPlain]
  | obj members ih =>
    by_cases hrole : role = .data
    · subst hrole
      obtain rfl : naming = false := h.resolve_right (by simp [Json.isObject])
      rw [PlainData, if_pos rfl, withoutDocumentation_data, undocumented]
    rw [PlainData, if_neg hrole, strip, withoutDocumentation, Json.obj.injEq]
    induction members with
    | nil => exact iff_of_true rfl trivial
    | cons entry rest ihrest =>
      obtain ⟨key, value⟩ := entry
      obtain ⟨hentry, hrest⟩ := List.forall_mem_cons.1 ih
      have hdrops := h.drops_iff hrole key
      rw [stripMembers, membersWithoutDocumentation, MembersPlain]
      by_cases hdropped : role = .schema ∧ key ∈ documentationKeys
      · rw [if_pos (hdrops.2 hdropped), if_pos hdropped, ihrest hrest (h.obj rest),
          and_iff_right (Or.inl hdropped)]
      · rw [if_neg (mt hdrops.1 hdropped), if_neg hdropped, List.cons.injEq, Prod.mk.injEq,
          and_iff_right rfl, hentry (h.member hrole), ihrest hrest (h.obj rest),
          or_iff_right hdropped]

end InStep

/-! ### What a fingerprint tells -/

variable {a b : Json}

/-- A whole schema is stripped as a schema. -/
theorem inStep_schema (schema : Json) : InStep .schema false schema := rfl

/-- Where the digests tell the texts apart, a fingerprint tells what is left of a schema. -/
theorem fingerprint_eq_iff
    (hdigests : Sha256.Collisionless [(undocumented a).compact, (undocumented b).compact]) :
    fingerprint a = fingerprint b ↔ undocumented a = undocumented b := by
  refine ⟨fun h => Json.compact_injective (hdigests _ List.mem_cons_self _ ?_ h),
    fun h => congrArg Json.checksum h⟩
  exact List.mem_cons_of_mem _ List.mem_cons_self

/-- A fingerprint never sees the documentation of the schemas in a schema. Of the data it sees all
but the members that are called like documentation. So two schemas with plain data have one
fingerprint exactly if nothing but their documentation tells them apart, and a schema whose data is
not plain has the fingerprint of another one that differs from it in data. -/
theorem fingerprint_tells_all_but_documentation
    (hdigests : Sha256.Collisionless [(undocumented a).compact, (undocumented b).compact]) :
    (fingerprint a = fingerprint b ↔
      undocumented (withoutDocumentation .schema a) =
        undocumented (withoutDocumentation .schema b)) ∧
    (PlainData .schema a → PlainData .schema b →
      (fingerprint a = fingerprint b ↔
        withoutDocumentation .schema a = withoutDocumentation .schema b)) ∧
    (¬PlainData .schema a → ∃ c, fingerprint c = fingerprint a ∧
      withoutDocumentation .schema c ≠ withoutDocumentation .schema a) := by
  have hsame := fingerprint_eq_iff hdigests
  refine ⟨?_, fun ha hb => ?_, fun ha => ⟨undocumented a, ?_, fun hc => ha ?_⟩⟩
  · rw [hsame]
    simp only [undocumented, (inStep_schema _).strip_withoutDocumentation]
  · rw [hsame, ← (inStep_schema a).strip_eq_iff.2 ha, ← (inStep_schema b).strip_eq_iff.2 hb]
    rfl
  · exact congrArg Json.checksum (strip_strip false a)
  · rw [undocumented, (inStep_schema a).withoutDocumentation_strip] at hc
    exact (inStep_schema a).strip_eq_iff.1 hc

/-- Digests are told apart trivially where there is one text only. -/
theorem collisionless_of_eq (h : undocumented a = undocumented b) :
    Sha256.Collisionless [(undocumented a).compact, (undocumented b).compact] := by
  rw [h]
  intro text htext other hother _
  simp_all

/-- A record with a property whose default is an object with a title. -/
def titledDefault (title : String) : Json :=
  .obj [("properties", .obj [("A", .obj [("default", .obj [("title", .str title)]),
    ("type", .str "string")])]), ("type", .str "object")]

/-- Two defaults that differ in a member called `title` are told apart by no fingerprint, although
neither is documentation. -/
theorem fingerprint_titledDefault :
    Sha256.Collisionless [(undocumented (titledDefault "x")).compact,
      (undocumented (titledDefault "y")).compact] ∧
    fingerprint (titledDefault "x") = fingerprint (titledDefault "y") ∧
    withoutDocumentation .schema (titledDefault "x") ≠
      withoutDocumentation .schema (titledDefault "y") := by
  have hsame : undocumented (titledDefault "x") = undocumented (titledDefault "y") := rfl
  have hdigests := collisionless_of_eq hsame
  have htold := (fingerprint_tells_all_but_documentation hdigests).1
  refine ⟨hdigests, htold.2 rfl, fun h => ?_⟩
  exact absurd (congrArg Json.compact h) (by decide +kernel)

end ResourceCatalog.Schema
