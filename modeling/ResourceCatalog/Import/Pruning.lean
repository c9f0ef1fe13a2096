import ResourceCatalog.Catalog.Database

/-!
# Definitions that are no longer reached

When a resource is imported again, the definitions of the former import may have lost their last
reference. What a resource reaches is found by following the references of its properties,
attributes and uses, and those of each definition found on the way.
-/

namespace ResourceCatalog

/-- The definitions that a property mentions, also in the types it had before. -/
def Property.references (p : Property) : List Identity :=
  p.type.references ++ p.previousTypes.flatMap PropertyType.references

def PropertyMap.references (properties : PropertyMap) : List Identity :=
  (Keyed.values properties).flatMap Property.references

/-- The definitions that a resource mentions itself. -/
def Database.mentions (db : Database) (record : Record Resource) : List Identity :=
  PropertyMap.references record.entity.properties ++
    PropertyMap.references record.entity.attributes ++
    (db.usesType.outgoing record.id).map Edge.id

namespace Collection

/-- The rows whose identities are not in a list. -/
def rowsOutside {α : Type} (c : Collection α) (ids : List Identity) : List (Row α) :=
  c.rows.filter fun row => !ids.contains row.record.id

/-- How many steps the definitions whose identities are not in a list can take. -/
def stepsOutside (c : Collection TypeDefinition) (ids : List Identity) : Nat :=
  (c.rowsOutside ids).foldr
    (fun row total => (PropertyMap.references row.record.entity.properties).length + 1 + total) 0

theorem foldr_filter_add_le {α : Type} (keep : α → Bool) (cost : α → Nat) {item : α}
    {items : List α} (h : item ∈ items) (hitem : keep item = false) :
    (items.filter keep).foldr (fun item total => cost item + total) 0 + cost item ≤
      items.foldr (fun item total => cost item + total) 0 := by
  induction items with
  | nil => cases h
  | cons first rest ih =>
    rcases List.mem_cons.1 h with rfl | h
    · have hrest : (rest.filter keep).foldr (fun item total => cost item + total) 0 ≤
          rest.foldr (fun item total => cost item + total) 0 := by
        clear ih h
        induction rest with
        | nil => exact Nat.le_refl _
        | cons other rest ih =>
          by_cases hother : keep other = true <;> simp [hother] <;> omega
      simp [hitem]
      omega
    · have := ih h
      by_cases hfirst : keep first = true <;> simp [hfirst] <;> omega

theorem stepsOutside_cons_add_le {c : Collection TypeDefinition} {id : Identity}
    {ids : List Identity} {row : Row TypeDefinition} (h : c.row? id = some row) (hid : id ∉ ids) :
    c.stepsOutside (id :: ids) +
      ((PropertyMap.references row.record.entity.properties).length + 1) ≤ c.stepsOutside ids := by
  have hmem : row ∈ c.rows := List.mem_of_find?_eq_some h
  have hrow : row.record.id = id := by simpa using List.find?_some h
  have hcons : c.rowsOutside (id :: ids) =
      (c.rowsOutside ids).filter fun row => row.record.id != id := by
    simp only [rowsOutside, List.filter_filter, List.contains_cons, Bool.not_or]
    congr 1
  rw [stepsOutside, hcons]
  refine foldr_filter_add_le _ (fun row : Row TypeDefinition =>
    (PropertyMap.references row.record.entity.properties).length + 1) ?_ ?_
  · simpa [rowsOutside, hmem, hrow] using hid
  · simp [hrow]

end Collection

/-- The definitions reached from pending ones, together with those that are known already. The last
reference of a definition is followed first. -/
def reach (definitions : Collection TypeDefinition) (known : List Identity) :
    (pending : List Identity) → Except GraphError (List Identity)
  | [] => .ok known
  | id :: pending =>
    if hid : id ∈ known then reach definitions known pending
    else
      match h : definitions.row? id with
      | none => .error (.notFound (Entity.collection TypeDefinition) id)
      | some row =>
        have := Collection.stepsOutside_cons_add_le h hid
        reach definitions (id :: known)
          ((PropertyMap.references row.record.entity.properties).reverse ++ pending)
  termination_by pending => definitions.stepsOutside known + pending.length
  decreasing_by
    · simp
    · simp only [List.length_append, List.length_reverse, List.length_cons]
      omega

/-- A computation on a database that keeps what it has changed when it fails. -/
abbrev Editing := ExceptT GraphError (StateM Database)

/-- Removes definitions one after the other. -/
def removeDefinitions : List Identity → Editing Unit
  | [] => return ()
  | id :: rest => do
    let db ← get
    let (_, typeDefinitions) ← liftM (db.typeDefinitions.remove id)
    set { db with typeDefinitions }
    removeDefinitions rest

/-- The identities without repetitions, in ascending order. -/
def ascending (ids : List Identity) : List Identity :=
  ids.foldl (fun sorted id => place id sorted) []
where
  place (id : Identity) : List Identity → List Identity
    | [] => [id]
    | other :: rest =>
      if id = other then other :: rest
      else if id.value < other.value then id :: other :: rest
      else other :: place id rest

/-- Removes those candidates that a resource does not reach any more. -/
def prune (resource : Identity) (candidates : List Identity) : Editing Unit := do
  let db ← get
  let record ← liftM (db.resources.get resource)
  let live ← liftM (reach db.typeDefinitions [] (db.mentions record).reverse)
  removeDefinitions ((ascending candidates).filter fun id => !live.contains id)

end ResourceCatalog
