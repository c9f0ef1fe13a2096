import Mathlib
import ResourceCatalog.Proofs.Catalog.Renaming
import ResourceCatalog.Proofs.Import.Interpretation

/-!
# Resources made under other identities

What a document makes of a resource follows from the types that the document declares, from the texts
of these types and of the old ones, and from what the old resource says. With other identities for
the new definitions the same resource is made with these identities, as long as the texts stay and
what is remembered of old types does not mention what has moved.
-/

namespace ResourceCatalog

namespace Building

variable {f : Identity → Identity} {db db' : Database}

/-! ### Marks -/

theorem mark_rename {change : Property → Property}
    (hchange : ∀ p : Property, change (p.rename f) = (change p).rename f) (names : List String)
    (properties : PropertyMap) :
    mark change names (properties.rename f) =
      PropertyMap.rename f (mark change names properties) := by
  rw [mark, mark, PropertyMap.rename, PropertyMap.rename, Keyed.mapValues, Keyed.mapValues,
    List.map_map, List.map_map]
  refine List.map_congr_left fun entry _ => ?_
  dsimp only [Function.comp_apply]
  rw [apply_ite (Property.rename f), hchange]

theorem marked_rename (document : Json) (properties : PropertyMap) :
    marked document (properties.rename f) = PropertyMap.rename f (marked document properties) := by
  have hreplacing : ∀ p : Property, replacing (p.rename f) = (replacing p).rename f := fun _ => rfl
  have hdeprecating : ∀ p : Property, deprecating (p.rename f) = (deprecating p).rename f :=
    fun _ => rfl
  rw [marked, mark_rename hreplacing, mark_rename hdeprecating]
  rfl

theorem tagProperty?_rename (document : Json) (properties : PropertyMap) :
    tagProperty? document (properties.rename f) = tagProperty? document properties := by
  rw [tagProperty?, tagProperty?, PropertyMap.rename, Keyed.contains_mapValues]

/-! ### Types from before -/

/-- Only the history of a property is changed. -/
theorem remember_eq (db : Database) (old : PropertyMap) (name : String) (p : Property) :
    remember db old name p =
      { p with previousTypes := (remember db old name p).previousTypes } := by
  rw [remember]
  split
  · split <;> rfl
  · rfl

/-- A property remembers the same types where all texts are the same. -/
theorem remember_rename {old : PropertyMap} {name : String} {p : Property}
    (hold : ∀ before, Keyed.get? name old = some before →
      db'.render before.type = db.render before.type ∧ before.rename f = before)
    (htype : db'.render (p.type.rename f) = db.render p.type) :
    remember db' old name (p.rename f) = (remember db old name p).rename f := by
  rw [remember, remember]
  cases hbefore : Keyed.get? name old with
  | none => rfl
  | some before =>
    obtain ⟨htext, hfixed⟩ := hold before hbefore
    have htype' : db'.render (p.rename f).type = db.render p.type := htype
    obtain ⟨hfirst, hothers⟩ : before.type.rename f = before.type ∧
        before.previousTypes.map (PropertyType.rename f) = before.previousTypes :=
      ⟨congrArg Property.type hfixed, congrArg Property.previousTypes hfixed⟩
    dsimp only
    rw [Property.updateType, Property.updateType, htext, htype']
    cases db.render before.type with
    | error e => rfl
    | ok text =>
      cases db.render p.type with
      | error e => rfl
      | ok text' =>
        by_cases hsame : text = text'
        · simp only [bind, Except.bind, pure, Except.pure, if_pos hsame, Property.rename, hothers]
        · simp only [bind, Except.bind, pure, Except.pure, if_neg hsame, Property.rename,
            List.map_append, List.map_singleton, hothers, hfirst]

theorem remembering_rename {old properties : PropertyMap}
    (hold : ∀ before ∈ Keyed.values old,
      db'.render before.type = db.render before.type ∧ before.rename f = before)
    (htypes : ∀ entry ∈ properties,
      db'.render (entry.2.type.rename f) = db.render entry.2.type) :
    remembering db' old (properties.rename f) =
      PropertyMap.rename f (remembering db old properties) := by
  rw [remembering, remembering, PropertyMap.rename, PropertyMap.rename, Keyed.mapValues,
    Keyed.mapValues, List.map_map, List.map_map]
  refine List.map_congr_left fun entry hentry => congrArg (Prod.mk entry.1) ?_
  exact remember_rename (fun before hbefore =>
    hold before (List.mem_map_of_mem (Keyed.mem_of_get? hbefore))) (htypes entry hentry)

/-! ### The resource anew -/

/-- A resource is made with other identities where its properties and attributes are. -/
theorem renewed_rename {typeName : String} {legacy : Option LegacySpec} {document : Json}
    {old old' : Resource} {properties attributes properties' attributes' : PropertyMap}
    (hold : old'.typeName = old.typeName ∧ old'.name = old.name ∧ old'.isStateful = old.isStateful)
    (hproperties : remembering db' old'.properties properties' =
      PropertyMap.rename f (remembering db old.properties properties))
    (hattributes : remembering db' old'.attributes attributes' =
      PropertyMap.rename f (remembering db old.attributes attributes)) :
    renewed typeName legacy document db' old' properties' attributes' =
      (renewed typeName legacy document db old properties attributes).rename f := by
  obtain ⟨htypeName, hname, hstateful⟩ := hold
  simp only [renewed, Resource.rename, hproperties, hattributes, marked_rename,
    tagProperty?_rename, htypeName, hname, hstateful]

end Building

end ResourceCatalog
