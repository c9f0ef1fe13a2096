import Mathlib
import ResourceCatalog.Import.Builder
import ResourceCatalog.Proofs.Pointer.Tokens

/-!
# What a document lists

Attributes are listed by pointers to properties, or by name in a legacy specification. The pointer to
a property is read as the name of the property, whatever characters the name has, since the slashes
and tildes of the name are written in another way. Other pointers, and pointers that are not written
as they should be, can be read as the same name.
-/

namespace ResourceCatalog

namespace Text

variable {sep : Char}

theorem split_of_not_mem {text : String} (h : sep ∉ text.toList) : split sep text = [text] := by
  rw [split, splitOn_of_not_mem h, List.map_singleton, String.ofList_toList]

theorem afterLast_of_not_mem {text : List Char} (h : sep ∉ text) : afterLast sep text = text := by
  rw [afterLast, cutLast_of_not_mem h]

end Text

/-! ### Pointers to properties -/

/-- The pointer to a property of a document. -/
def propertyPointer (name : String) : String := "/properties/" ++ Pointer.escape name

/-- The pointers that a document lists at some place. -/
def listedPointers (document : Json) (place : String) : List String :=
  (((document.find? place).bind Json.asArray?).getD []).filterMap Json.asString?

/-- A pointer to a property is read as its name, whatever characters the name has. -/
theorem propertyPath?_propertyPointer (name : String) :
    propertyPath? (propertyPointer name) = some name := by
  have hstart : (propertyPointer name).startsWith "/properties/" = true := by
    rw [String.startsWith_string_iff, propertyPointer, String.toList_append]
    exact List.prefix_append _ _
  have hrest : (propertyPointer name).toList.drop "/properties/".length =
      Pointer.escapeChars name.toList := by
    have htext : (propertyPointer name).toList =
        "/properties/".toList ++ Pointer.escapeChars name.toList :=
      String.toList_append.trans (congrArg ("/properties/".toList ++ ·) String.toList_ofList)
    rw [htext]
    exact List.drop_left' rfl
  rw [propertyPath?, if_pos hstart, hrest]
  dsimp only
  rw [Text.splitOn_of_not_mem (Pointer.slash_not_mem_escapeChars _), List.map_singleton,
    Pointer.unescapeChars_escapeChars, String.ofList_toList]
  rfl

theorem mem_listedPaths_of_mem {document : Json} {place name : String}
    (h : propertyPointer name ∈ listedPointers document place) :
    name ∈ listedPaths document place :=
  List.mem_filterMap.2 ⟨_, h, propertyPath?_propertyPointer name⟩

/-! ### Attributes -/

theorem mem_distinct_iff {texts : List String} {text : String} :
    text ∈ distinct texts ↔ text ∈ texts := by
  have hfound : ∀ found : List String,
      text ∈ texts.foldl (fun found text =>
        if found.contains text then found else found ++ [text]) found ↔
          text ∈ found ∨ text ∈ texts := by
    induction texts with
    | nil => simp
    | cons first rest ih =>
      intro found
      rw [List.foldl_cons, ih, List.mem_cons]
      split
      · next hmem =>
        have hfirst := List.contains_iff_mem.1 hmem
        constructor
        · exact fun h => h.imp_right Or.inr
        · rintro (h | rfl | h)
          · exact Or.inl h
          · exact Or.inl hfirst
          · exact Or.inr h
      · rw [List.mem_append, List.mem_singleton, or_assoc]
  rw [distinct, hfound]
  exact or_iff_right List.not_mem_nil

theorem mem_attributeNames_iff {document : Json} {place name : String} {legacy : List String} :
    name ∈ attributeNames document place legacy ↔
      name ∈ listedPaths document place ∨ name ∈ legacy := by
  rw [attributeNames, mem_distinct_iff, List.mem_append]

/-- The names of attributes that a legacy specification knows. -/
def legacyNames (legacy : Option LegacySpec) (typeName : String) : List String :=
  (legacy.map fun spec => spec.attributeNames typeName).getD []

/-- A property is listed as an attribute: by its pointer, by another text that is read as its name,
or by the legacy specification. -/
def Listed (document : Json) (place : String) (legacy : List String) (name : String) : Prop :=
  propertyPointer name ∈ listedPointers document place ∨ name ∈ listedPaths document place ∨
    name ∈ legacy

theorem listed_iff {document : Json} {place name : String} {legacy : List String} :
    Listed document place legacy name ↔ name ∈ attributeNames document place legacy := by
  rw [mem_attributeNames_iff, Listed]
  exact or_iff_right_of_imp fun h => Or.inl (mem_listedPaths_of_mem h)

end ResourceCatalog
