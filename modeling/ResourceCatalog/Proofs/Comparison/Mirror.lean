import Mathlib
import ResourceCatalog.Proofs.Comparison.Unchanged

/-!
# Comparisons the other way round

What was added on the way from one database to another was removed on the way back, and what has
changed has changed back. `mirror` says this of every part of a comparison, and comparing two
databases in the other order gives the mirror of the comparison, or an error if it was an error.
Names that both sides have are compared in the same order either way, because both sides keep them
ascending.
-/

namespace ResourceCatalog

/-! ### Mirrored changes -/

def FieldChange.mirror (c : FieldChange) : FieldChange := ⟨c.field, c.new, c.old⟩

/-- What was added was removed, and what was updated is mirrored in its place. -/
def KeyedChange.mirror {α : Type} (item : α → α) (c : KeyedChange α) : KeyedChange α :=
  ⟨c.removed, c.added, c.updated.map item⟩

def FieldChanges.mirror (c : FieldChanges) : FieldChanges :=
  ⟨c.name, c.changes.map FieldChange.mirror⟩

def DefinitionChange.mirror (c : DefinitionChange) : DefinitionChange :=
  ⟨c.name, c.changes.map FieldChange.mirror, c.properties.mirror FieldChanges.mirror⟩

def ResourceChange.mirror (c : ResourceChange) : ResourceChange :=
  ⟨c.typeName, c.changes.map FieldChange.mirror, c.properties.mirror FieldChanges.mirror,
    c.attributes.mirror FieldChanges.mirror, c.typeDefinitions.mirror DefinitionChange.mirror⟩

def DatabaseChange.mirror (c : DatabaseChange) : DatabaseChange :=
  ⟨c.services.mirror FieldChanges.mirror, c.resources.mirror ResourceChange.mirror⟩

theorem KeyedChange.isEmpty_mirror {α : Type} (item : α → α) (c : KeyedChange α) :
    (c.mirror item).isEmpty = c.isEmpty := by
  rw [isEmpty, isEmpty, mirror, List.isEmpty_map, Bool.and_comm c.removed.isEmpty]

namespace Comparison

/-- Both are errors, or the second result mirrors the first. -/
def Mirrored {α : Type} (mirror : α → α) (x y : Except GraphError α) : Prop :=
  y.toOption = x.toOption.map mirror

theorem Mirrored.bind {α β : Type} {mirror : α → α} {mirror' : β → β} {x y : Except GraphError α}
    {f g : α → Except GraphError β} (h : Mirrored mirror x y)
    (hf : ∀ value, x = .ok value → Mirrored mirror' (f value) (g (mirror value))) :
    Mirrored mirror' (x >>= f) (y >>= g) := by
  cases x with
  | error e =>
    cases y with
    | error _ => rfl
    | ok _ => cases h
  | ok value =>
    cases y with
    | error _ => cases h
    | ok other =>
      obtain rfl : other = mirror value := Option.some.inj h
      exact hf value rfl

/-! ### Names on both sides -/

section Keyed

variable {α β : Type} {old new : Keyed α}

/-- What stands under the names that both sides have. -/
def shared (old new : Keyed α) : Keyed (α × α) :=
  old.filterMap fun entry =>
    (Keyed.get? entry.1 new).map fun after => (entry.1, entry.2, after)

theorem get?_shared (key : String) :
    Keyed.get? key (shared old new) =
      (Keyed.get? key old).bind fun before => (Keyed.get? key new).map (Prod.mk before) := by
  induction old with
  | nil => rfl
  | cons entry rest ih =>
    obtain ⟨name, before⟩ := entry
    rw [shared, List.filterMap_cons, Keyed.get?]
    by_cases hname : name = key
    · subst hname
      rw [if_pos rfl, Option.bind_some]
      cases hafter : Keyed.get? name new with
      | none =>
        rw [hafter] at ih
        refine ih.trans ?_
        cases Keyed.get? name rest <;> rfl
      | some after => exact if_pos rfl
    · rw [if_neg hname, ← ih]
      cases Keyed.get? name new with
      | none => rfl
      | some after => exact if_neg hname

theorem ascending_shared (hold : Keyed.Ascending old) : Keyed.Ascending (shared old new) := by
  refine List.Pairwise.filterMap _ (fun first second hlt x hx y hy => ?_) hold
  obtain ⟨_, -, rfl⟩ := Option.map_eq_some_iff.1 hx
  obtain ⟨_, -, rfl⟩ := Option.map_eq_some_iff.1 hy
  exact hlt

/-- Either way the same names are shared, in the same order. -/
theorem shared_comm (hold : Keyed.Ascending old) (hnew : Keyed.Ascending new) :
    shared new old = Keyed.mapValues Prod.swap (shared old new) := by
  refine (ascending_shared hnew).ext ((ascending_shared hold).map fun _ => rfl) fun key => ?_
  rw [Keyed.get?_mapValues, get?_shared, get?_shared]
  cases Keyed.get? key old <;> cases Keyed.get? key new <;> rfl

theorem mem_of_mem_shared {entry : String × α × α} (h : entry ∈ shared old new) :
    (entry.1, entry.2.1) ∈ old ∧ (entry.1, entry.2.2) ∈ new := by
  obtain ⟨before, hbefore, hentry⟩ := List.mem_filterMap.1 h
  obtain ⟨after, hafter, rfl⟩ := Option.map_eq_some_iff.1 hentry
  exact ⟨hbefore, Keyed.mem_of_get? hafter⟩

/-- Compares what stands under one name, all of them one after the other. -/
def updatesOf (compare : String → α → α → Except GraphError (Option β)) :
    Keyed (α × α) → Except GraphError (List β)
  | [] => .ok []
  | (key, before, after) :: rest => do
    let update? ← compare key before after
    return update?.toList ++ (← updatesOf compare rest)

theorem updates_eq (compare : String → α → α → Except GraphError (Option β)) (old new : Keyed α) :
    updates compare new old = updatesOf compare (shared old new) := by
  induction old with
  | nil => rfl
  | cons entry rest ih =>
    rw [updates, shared, List.filterMap_cons, ih]
    cases Keyed.get? entry.1 new with
    | none => exact bind_pure (updatesOf compare (shared rest new))
    | some after => rfl

variable {compare compare' : String → α → α → Except GraphError (Option β)} {mirror : β → β}

theorem mirrored_updatesOf {entries : Keyed (α × α)}
    (h : ∀ entry ∈ entries, Mirrored (Option.map mirror) (compare entry.1 entry.2.1 entry.2.2)
      (compare' entry.1 entry.2.2 entry.2.1)) :
    Mirrored (List.map mirror) (updatesOf compare entries)
      (updatesOf compare' (Keyed.mapValues Prod.swap entries)) := by
  induction entries with
  | nil => rfl
  | cons entry rest ih =>
    obtain ⟨hentry, hrest⟩ := List.forall_mem_cons.1 h
    refine hentry.bind fun update? _ => (ih hrest).bind fun others _ => ?_
    cases update? <;> rfl

/-- If each comparison is mirrored the other way round, so is the comparison of all. -/
theorem mirrored_keyed (hold : Keyed.Ascending old) (hnew : Keyed.Ascending new)
    (h : ∀ key before after, (key, before) ∈ old → (key, after) ∈ new →
      Mirrored (Option.map mirror) (compare key before after) (compare' key after before)) :
    Mirrored (KeyedChange.mirror mirror) (keyed compare old new) (keyed compare' new old) := by
  have hupdates : Mirrored (List.map mirror) (updates compare new old)
      (updates compare' old new) := by
    rw [updates_eq, updates_eq, shared_comm hold hnew]
    exact mirrored_updatesOf fun entry hentry =>
      h _ _ _ (mem_of_mem_shared hentry).1 (mem_of_mem_shared hentry).2
  rw [keyed, keyed]
  exact hupdates.bind fun _ _ => rfl

end Keyed

/-! ### Comparisons mirrored -/

theorem fields_mirror {old new : List (String × String)}
    (h : old.map Prod.fst = new.map Prod.fst) :
    fields new old = (fields old new).map FieldChange.mirror := by
  induction old generalizing new with
  | nil =>
    cases new with
    | nil => rfl
    | cons _ _ => cases h
  | cons before rest ih =>
    cases new with
    | nil => cases h
    | cons after others =>
      obtain ⟨hfield, hrest⟩ := List.cons.inj h
      rw [fields_cons, fields_cons, ih hrest, List.map_append, ← hfield]
      congr 1
      by_cases hsame : before.2 = after.2
      · rw [if_pos hsame, if_pos hsame.symm]
        rfl
      · rw [if_neg hsame, if_neg (Ne.symm hsame)]
        rfl

theorem fieldChanges?_mirror (name : String) (changes : List FieldChange) :
    fieldChanges? name (changes.map FieldChange.mirror) =
      (fieldChanges? name changes).map FieldChanges.mirror := by
  cases changes <;> rfl

section Databases

variable {a b : Database}

theorem mirrored_properties {before after : PropertyMap} (hbefore : Keyed.Ascending before)
    (hafter : Keyed.Ascending after) :
    Mirrored (KeyedChange.mirror FieldChanges.mirror) (properties a b before after)
      (properties b a after before) := by
  refine mirrored_keyed hbefore hafter fun key p q _ _ => ?_
  rw [propertyFields_eq, propertyFields_eq]
  cases a.render p.type with
  | error e => cases b.render q.type <;> rfl
  | ok text =>
    cases b.render q.type with
    | error e => rfl
    | ok text' =>
      have hfields : fields (propertyTexts q text') (propertyTexts p text) =
          (fields (propertyTexts p text) (propertyTexts q text')).map FieldChange.mirror :=
        fields_mirror rfl
      exact congrArg some
        ((congrArg (fieldChanges? key) hfields).trans (fieldChanges?_mirror key _))

theorem mirrored_definitions
    (ha : ∀ d ∈ a.typeDefinitions.all, Keyed.Ascending d.entity.properties)
    (hb : ∀ d ∈ b.typeDefinitions.all, Keyed.Ascending d.entity.properties)
    (before after : Identity) :
    Mirrored (KeyedChange.mirror DefinitionChange.mirror) (definitions a b before after)
      (definitions b a after before) := by
  rw [definitions, definitions]
  cases hfound : usedDefinitions a before with
  | error e => cases usedDefinitions b after <;> rfl
  | ok found =>
    cases hfound' : usedDefinitions b after with
    | error e => rfl
    | ok found' =>
      refine mirrored_keyed (ascending_usedDefinitions hfound).1
        (ascending_usedDefinitions hfound').1 fun key p q hp hq => ?_
      obtain ⟨d, hd, rfl⟩ := mem_all_of_mem_usedDefinitions hfound hp
      obtain ⟨e, he, rfl⟩ := mem_all_of_mem_usedDefinitions hfound' hq
      refine (mirrored_properties (ha d hd) (hb e he)).bind fun change _ => ?_
      have hchanges : fields [("documentation", e.entity.documentation.getD "")]
          [("documentation", d.entity.documentation.getD "")] =
          (fields [("documentation", d.entity.documentation.getD "")]
            [("documentation", e.entity.documentation.getD "")]).map FieldChange.mirror :=
        fields_mirror rfl
      refine congrArg some ?_
      rw [hchanges, KeyedChange.isEmpty_mirror, List.isEmpty_map]
      split <;> rfl

theorem mirrored_resource? (ha : Arranged a.resources.all a.typeDefinitions.all)
    (hb : Arranged b.resources.all b.typeDefinitions.all) (name : String) {r s : Record Resource}
    (hr : r ∈ a.resources.all) (hs : s ∈ b.resources.all) :
    Mirrored (Option.map ResourceChange.mirror) (resource? a b name r s)
      (resource? b a name s r) := by
  obtain ⟨hproperties, hattributes⟩ := ha.resources r hr
  obtain ⟨hproperties', hattributes'⟩ := hb.resources s hs
  refine (mirrored_properties hproperties hproperties').bind fun properties _ => ?_
  refine (mirrored_properties hattributes hattributes').bind fun attributes _ => ?_
  refine (mirrored_definitions ha.definitions hb.definitions r.id s.id).bind fun definitions _ => ?_
  have hfields : fields (resourceFields s.entity) (resourceFields r.entity) =
      (fields (resourceFields r.entity) (resourceFields s.entity)).map FieldChange.mirror :=
    fields_mirror rfl
  refine congrArg some ?_
  simp only [hfields, KeyedChange.isEmpty_mirror, List.isEmpty_map]
  split <;> rfl

theorem service?_mirror (name : String) (r s : Record Service) :
    service? name s r = (service? name r s).map FieldChanges.mirror := by
  have hfields : fields [("short_name", s.entity.shortName)] [("short_name", r.entity.shortName)] =
      (fields [("short_name", r.entity.shortName)]
        [("short_name", s.entity.shortName)]).map FieldChange.mirror := fields_mirror rfl
  rw [service?, service?, hfields, fieldChanges?_mirror]

/-- Two databases are compared in the one order if and only if they are in the other, and then each
comparison is the mirror of the other one. -/
theorem databases_mirror (ha : Arranged a.resources.all a.typeDefinitions.all)
    (hb : Arranged b.resources.all b.typeDefinitions.all) :
    (databases b a).toOption = (databases a b).toOption.map DatabaseChange.mirror := by
  have hservices : Mirrored (KeyedChange.mirror FieldChanges.mirror)
      (keyed (fun name r s => .ok (service? name r s)) (byName a.services Service.name)
        (byName b.services Service.name))
      (keyed (fun name r s => .ok (service? name r s)) (byName b.services Service.name)
        (byName a.services Service.name)) :=
    mirrored_keyed (Keyed.ascending_ofList _) (Keyed.ascending_ofList _) fun key r s _ _ =>
      congrArg some (service?_mirror key r s)
  have hresources : Mirrored (KeyedChange.mirror ResourceChange.mirror)
      (keyed (resource? a b) (byName a.resources Resource.typeName)
        (byName b.resources Resource.typeName))
      (keyed (resource? b a) (byName b.resources Resource.typeName)
        (byName a.resources Resource.typeName)) :=
    mirrored_keyed (Keyed.ascending_ofList _) (Keyed.ascending_ofList _) fun key r s hr hs =>
      mirrored_resource? ha hb key (mem_all_of_mem_byName hr) (mem_all_of_mem_byName hs)
  exact hservices.bind fun _ _ => hresources.bind fun _ _ => rfl

end Databases

/-- A bucket of which no more than its name is known. -/
def bareBucket : Database :=
  { Database.empty with
    resources := Collection.empty.append ⟨⟨0⟩, Resource.ofTypeName "AWS::S3::Bucket"⟩ }

/-- A bucket with documentation and a property. -/
def documentedBucket : Database :=
  let bucket := { Resource.ofTypeName "AWS::S3::Bucket" with
    documentation := some "A bucket", properties := [("Tags", Property.ofType .json)] }
  { Database.empty with resources := Collection.empty.append ⟨⟨0⟩, bucket⟩ }

theorem databases_mirror_buckets :
    (databases documentedBucket bareBucket).toOption =
        (databases bareBucket documentedBucket).toOption.map DatabaseChange.mirror ∧
      (databases documentedBucket bareBucket).toOption = some ⟨⟨[], [], []⟩, ⟨[], [],
        [⟨"AWS::S3::Bucket", [⟨"documentation", "A bucket", ""⟩], ⟨[], ["Tags"], []⟩,
          ⟨[], [], []⟩, ⟨[], [], []⟩⟩]⟩⟩ := by
  refine ⟨databases_mirror ⟨fun r hr => ?_, fun _ h => absurd h List.not_mem_nil⟩
    ⟨fun r hr => ?_, fun _ h => absurd h List.not_mem_nil⟩, rfl⟩
  · obtain rfl := List.mem_singleton.1 hr
    exact ⟨List.Pairwise.nil, List.Pairwise.nil⟩
  · obtain rfl := List.mem_singleton.1 hr
    exact ⟨List.pairwise_singleton _ _, List.Pairwise.nil⟩

end Comparison

end ResourceCatalog
