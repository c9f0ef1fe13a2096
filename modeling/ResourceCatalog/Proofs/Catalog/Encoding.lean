import Mathlib
import ResourceCatalog.Catalog.Decoding
import ResourceCatalog.Proofs.Keyed

/-!
# What is written can be read

Every field of a written entity is found under its key, so reading gives back the entity. There is
one exception: a default that is `null` is written as `null`, which means that there is none.
-/

namespace ResourceCatalog

/-! ### Fields -/

namespace Keyed

/-- The fields that are there are found, and those that are not are missing. -/
def Holds (members : Members) (fields : List (String × Option Json)) : Prop :=
  ∀ field ∈ fields, get? field.1 members = field.2

/-- The fields that are there. -/
def present (fields : List (String × Option Json)) : Members :=
  fields.filterMap fun (key, value?) => value?.map fun value => (key, value)

variable {α : Type} {members : Members} {key : String} {fields : List (String × Option Json)}

theorem present_some (key : String) (value : Json) (fields : List (String × Option Json)) :
    present ((key, some value) :: fields) = (key, value) :: present fields := rfl

theorem keys_present (fields : List (String × Option Json)) :
    (keys (present fields)).Sublist (fields.map Prod.fst) := by
  induction fields with
  | nil => exact List.Sublist.slnil
  | cons field rest ih =>
    obtain ⟨key, value?⟩ := field
    cases value? with
    | none => exact ih.cons key
    | some value => exact ih.cons_cons key

theorem holds_present (hkeys : (fields.map Prod.fst).Nodup) : Holds (present fields) fields := by
  induction fields with
  | nil => exact fun _ h => absurd h List.not_mem_nil
  | cons first rest ih =>
    obtain ⟨hfirst, hrest⟩ := List.nodup_cons.1 hkeys
    obtain ⟨key, value?⟩ := first
    cases value? with
    | none =>
      refine List.forall_mem_cons.2 ⟨?_, ih hrest⟩
      exact get?_eq_none_iff.2 fun hmem => hfirst ((keys_present rest).subset hmem)
    | some value =>
      refine List.forall_mem_cons.2 ⟨if_pos rfl, fun field hfield => ?_⟩
      have hmem : field.1 ∈ rest.map Prod.fst := List.mem_map_of_mem hfield
      have hne : key ≠ field.1 := fun heq => hfirst (heq ▸ hmem)
      rw [present_some, get?, if_neg hne]
      exact ih hrest field hfield

theorem holds_ofList (hkeys : (fields.map Prod.fst).Nodup) :
    Holds (ofList (present fields)) fields := by
  intro field hfield
  rw [get?_ofList (hkeys.sublist (keys_present fields))]
  exact holds_present hkeys field hfield

theorem Holds.insert (h : Holds members fields) (hkey : key ∉ fields.map Prod.fst) (value : Json) :
    Holds (Keyed.insert key value members) fields := by
  intro field hfield
  have hne : field.1 ≠ key := fun heq => hkey (heq ▸ List.mem_map_of_mem hfield)
  rw [get?_insert_of_ne hne]
  exact h field hfield

/-! ### Readers of fields -/

variable {read : Json → Option α}

theorem field?_eq {value : Json} {a : α} (h : get? key members = some value)
    (hread : read value = some a) : field? members key read = some a := by
  rw [field?, h]
  exact hread

theorem fieldOr?_eq {value : Json} {a default : α} (h : get? key members = some value)
    (hread : read value = some a) : fieldOr? members key default read = some a := by
  rw [fieldOr?, h]
  exact hread

theorem field?_text {text : String} (h : get? key members = some (.str text)) :
    field? members key Json.asString? = some text := field?_eq h rfl

theorem fieldOr?_bool {b : Bool} (h : get? key members = some (.bool b)) :
    fieldOr? members key false Json.asBool? = some b := fieldOr?_eq h rfl

theorem optional?_text {text? : Option String} (h : get? key members = text?.map Json.str) :
    optional? members key Json.asString? = some text? := by
  rw [optional?, h]
  cases text? with
  | none => rfl
  | some text => rfl

theorem fieldOr?_nonEmpty {items : List Json} {as : List α} {readAll : Json → Option (List α)}
    (h : get? key members = Json.nonEmpty? items) (hread : readAll (.arr items) = some as)
    (hnil : items = [] → as = []) : fieldOr? members key [] readAll = some as := by
  rw [fieldOr?, h]
  cases items with
  | nil => exact congrArg some (hnil rfl).symm
  | cons first rest => exact hread

end Keyed

theorem mapM_map_eq_some {α β γ : Type} {write : α → β} {read : β → Option γ} {result : α → γ}
    {items : List α} (h : ∀ item ∈ items, read (write item) = some (result item)) :
    (items.map write).mapM read = some (items.map result) := by
  induction items with
  | nil => rfl
  | cons item rest ih =>
    obtain ⟨hitem, hrest⟩ := List.forall_mem_cons.1 h
    rw [List.map_cons, List.mapM_cons, hitem, ih hrest]
    rfl

theorem Json.asStrings?_texts (texts : List String) :
    (Json.arr (texts.map .str)).asStrings? = some texts := by
  have h : (texts.map Json.str).mapM Json.asString? = some (texts.map id) :=
    mapM_map_eq_some fun _ _ => rfl
  rw [List.map_id] at h
  exact h

theorem map_eq_self_iff {α : Type} {change : α → α} {items : List α} :
    items.map change = items ↔ ∀ item ∈ items, change item = item := by
  rw [← List.map_inj_left, List.map_id']

/-! ### Types -/

namespace PropertyType

theorem tag?_tagged (tag key : String) (htag : tag ∈ tags) (hkey : key ≠ "type") (value : Json) :
    tag? (.obj (Keyed.ofList [("type", .str tag), (key, value)])) = some tag ∧
      part? key (.obj (Keyed.ofList [("type", .str tag), (key, value)])) = some value := by
  have hkeys : (Keyed.keys [("type", Json.str tag), (key, value)]).Nodup := by
    simp [Keyed.keys, Ne.symm hkey]
  constructor
  · rw [tag?, Keyed.field?, Keyed.get?_ofList hkeys, Keyed.get?, if_pos rfl]
    exact if_pos (List.contains_iff_mem.2 htag)
  · rw [part?, Keyed.get?_ofList hkeys, Keyed.get?, if_neg (Ne.symm hkey), Keyed.get?, if_pos rfl]

section Parts

variable {value part : Json} {items : List Json}

theorem ofJson?_array (htag : tag? value = some "array")
    (hpart : part? "element" value = some part) :
    ofJson? value = (ofJson? part).map PropertyType.array := by
  rw [ofJson?, htag]
  simp only
  split
  · next element helement =>
    obtain rfl := Option.some.inj (hpart.symm.trans helement)
    rfl
  · next hnone => cases hpart.symm.trans hnone

theorem ofJson?_map (htag : tag? value = some "map") (hpart : part? "element" value = some part) :
    ofJson? value = (ofJson? part).map PropertyType.map := by
  rw [ofJson?, htag]
  simp only
  split
  · next element helement =>
    obtain rfl := Option.some.inj (hpart.symm.trans helement)
    rfl
  · next hnone => cases hpart.symm.trans hnone

theorem ofJson?_union (htag : tag? value = some "union")
    (hpart : part? "types" value = some (.arr items)) :
    ofJson? value = (ofJsons? items).map PropertyType.union := by
  rw [ofJson?, htag]
  simp only
  split
  · next types htypes =>
    obtain rfl := Json.arr.inj (Option.some.inj (hpart.symm.trans htypes))
    rfl
  · next hnone => exact absurd hpart (hnone items)

end Parts

mutual

/-- A type is read as it was written. -/
theorem ofJson?_toJson (type : PropertyType) : ofJson? type.toJson = some type := by
  cases type with
  | ref definition =>
    obtain ⟨htag, hpart⟩ := tag?_tagged "ref" "reference" (by decide) (by decide)
      (Json.nat definition.value)
    rw [toJson, tag, ofJson?, htag, hpart]
    rfl
  | array element =>
    obtain ⟨htag, hpart⟩ := tag?_tagged "array" "element" (by decide) (by decide) element.toJson
    rw [toJson, tag, ofJson?_array htag hpart, ofJson?_toJson element]
    rfl
  | map element =>
    obtain ⟨htag, hpart⟩ := tag?_tagged "map" "element" (by decide) (by decide) element.toJson
    rw [toJson, tag, ofJson?_map htag hpart, ofJson?_toJson element]
    rfl
  | union types =>
    obtain ⟨htag, hpart⟩ := tag?_tagged "union" "types" (by decide) (by decide)
      (.arr (toJsons types))
    rw [toJson, tag, ofJson?_union htag hpart, ofJsons?_toJsons types]
    rfl
  | string | number | boolean | dateTime | json | null =>
    simp only [toJson, tag]
    rw [ofJson?]
    rfl

theorem ofJsons?_toJsons (types : List PropertyType) : ofJsons? (toJsons types) = some types := by
  cases types with
  | nil => rw [toJsons, ofJsons?]
  | cons type rest =>
    rw [toJsons, ofJsons?, ofJson?_toJson type, ofJsons?_toJsons rest]
    rfl

end

end PropertyType


/-! ### Properties -/

theorem Json.exists_holds {fields : List (String × Option Json)} {value : Json}
    (h : Json.ofFields fields = value) (hkeys : (fields.map Prod.fst).Nodup) :
    ∃ members, value = .obj members ∧ Keyed.Holds members fields :=
  ⟨_, h.symm, Keyed.holds_ofList hkeys⟩

/-- What is left of an optional value that is written and read. -/
def Json.unlessNull : Option Json → Option Json
  | some .null => none
  | value? => value?

theorem Json.unlessNull_eq_self_iff {value? : Option Json} :
    Json.unlessNull value? = value? ↔ value? ≠ some .null := by
  cases value? with
  | none => exact iff_of_true rfl nofun
  | some value =>
    cases value with
    | null => exact iff_of_false nofun fun h => h rfl
    | _ => exact iff_of_true rfl nofun

theorem Keyed.optional?_some {members : Members} {key : String} {value? : Option Json}
    (h : Keyed.get? key members = value?) :
    Keyed.optional? members key some = some (Json.unlessNull value?) := by
  rw [Keyed.optional?, h]
  cases value? with
  | none => rfl
  | some value => cases value <;> rfl

namespace Property

/-- A property after it has been written and read. A default that is `null` is lost. -/
def restored (p : Property) : Property := { p with default := Json.unlessNull p.default }

theorem restored_eq_self_iff {p : Property} : p.restored = p ↔ p.default ≠ some .null := by
  rw [← Json.unlessNull_eq_self_iff]
  constructor
  · exact congrArg Property.default
  · intro h
    rw [restored, h]

theorem ofJson?_toJson (p : Property) : Property.ofJson? p.toJson = some p.restored := by
  rw [toJson]
  generalize hjson : Json.ofFields _ = json
  obtain ⟨members, rfl, h⟩ := Json.exists_holds hjson (by simp)
  simp only [Keyed.Holds, List.forall_mem_cons] at h
  obtain ⟨htype, hrequired, hdocumentation, hdefault, hdeprecated, hcauses, hprevious, _⟩ := h
  have hnil : PropertyType.toJsons p.previousTypes = [] → p.previousTypes = [] := by
    cases p.previousTypes with
    | nil => exact fun _ => rfl
    | cons type rest => exact nofun
  have hprevious' : (Keyed.fieldOr? members "previous_types" [] fun types =>
      types.asArray?.bind PropertyType.ofJsons?) = some p.previousTypes :=
    Keyed.fieldOr?_nonEmpty hprevious (PropertyType.ofJsons?_toJsons p.previousTypes) hnil
  rw [Property.ofJson?]
  simp only [Json.structure?, Option.bind_eq_bind, Option.bind_some,
    Keyed.field?_eq htype (PropertyType.ofJson?_toJson p.type), Keyed.fieldOr?_bool hrequired,
    Keyed.optional?_text hdocumentation, Keyed.optional?_some hdefault,
    Keyed.fieldOr?_bool hdeprecated, Keyed.fieldOr?_bool hcauses, hprevious']
  rfl

end Property

namespace PropertyMap

/-- Properties after they have been written and read. -/
def restored (properties : PropertyMap) : PropertyMap :=
  Keyed.mapValues Property.restored properties

theorem restored_eq_self_iff {properties : PropertyMap} :
    restored properties = properties ↔ ∀ p ∈ Keyed.values properties, p.default ≠ some .null := by
  rw [restored, Keyed.mapValues, map_eq_self_iff, Keyed.values, List.forall_mem_map]
  refine forall₂_congr fun entry _ => ?_
  rw [← Property.restored_eq_self_iff]
  exact ⟨congrArg Prod.snd, fun h => by rw [h]⟩

theorem ofJson?_toJson (properties : PropertyMap) :
    ofJson? (toJson properties) = some (restored properties) := by
  rw [toJson, ofJson?]
  refine mapM_map_eq_some fun entry _ => ?_
  rw [Property.ofJson?_toJson]
  rfl

end PropertyMap

/-! ### Entities -/

/-- Entities that are written beside an identity and read as something. -/
def ReadAs {α : Type} [Encodable α] [Readable α] (restored : α → α) : Prop :=
  ∀ (entity : α) (id : Json), ∃ members,
    (Encodable.toJson entity).withField "$id" id = .obj members ∧
      Keyed.get? "$id" members = some id ∧ Readable.ofJson? (.obj members) = some (restored entity)

theorem readAs_of_holds {α : Type} [Encodable α] [Readable α] {restored : α → α}
    {fields : α → List (String × Option Json)}
    (hfields : ∀ entity, Encodable.toJson entity = Json.ofFields (fields entity))
    (hkeys : ∀ entity, ("$id" :: (fields entity).map Prod.fst).Nodup)
    (hread : ∀ entity members, Keyed.Holds members (fields entity) →
      Readable.ofJson? (.obj members) = some (restored entity)) : ReadAs restored := by
  intro entity id
  obtain ⟨hid, hnodup⟩ := List.nodup_cons.1 (hkeys entity)
  obtain ⟨members, hmembers, hholds⟩ := Json.exists_holds (hfields entity).symm hnodup
  rw [hmembers]
  exact ⟨_, rfl, Keyed.get?_insert_self _ _ _, hread entity _ (hholds.insert hid id)⟩

theorem Service.readAs : ReadAs (id : Service → Service) := by
  refine readAs_of_holds (fun _ => rfl) (by simp) fun service members h => ?_
  simp only [Keyed.Holds, List.forall_mem_cons] at h
  obtain ⟨hname, hshort, _⟩ := h
  simp only [Readable.ofJson?, Json.asObject?, Option.bind_eq_bind, Option.bind_some,
    Keyed.field?_text hname, Keyed.field?_text hshort]
  rfl

theorem Region.readAs : ReadAs (id : Region → Region) := by
  refine readAs_of_holds (fun _ => rfl) (by simp) fun region members h => ?_
  simp only [Keyed.Holds, List.forall_mem_cons] at h
  simp only [Readable.ofJson?, Json.asObject?, Option.bind_eq_bind, Option.bind_some,
    Keyed.field?_text h.1]
  rfl

/-- A resource after it has been written and read. -/
def Resource.restored (r : Resource) : Resource :=
  { r with
    properties := PropertyMap.restored r.properties
    attributes := PropertyMap.restored r.attributes }

/-- A type definition after it has been written and read. -/
def TypeDefinition.restored (d : TypeDefinition) : TypeDefinition :=
  { d with properties := PropertyMap.restored d.properties }

theorem Resource.readAs : ReadAs Resource.restored := by
  refine readAs_of_holds (fun _ => rfl) (by simp) fun resource members h => ?_
  simp only [Keyed.Holds, List.forall_mem_cons] at h
  obtain ⟨htypeName, hname, hdocumentation, hproperties, hattributes, hidentifier, hstateful, htag,
    _⟩ := h
  have hproperties' : Keyed.fieldOr? members "properties" [] PropertyMap.ofJson? = some _ :=
    Keyed.fieldOr?_eq hproperties (PropertyMap.ofJson?_toJson resource.properties)
  have hattributes' : Keyed.fieldOr? members "attributes" [] PropertyMap.ofJson? = some _ :=
    Keyed.fieldOr?_eq hattributes (PropertyMap.ofJson?_toJson resource.attributes)
  have hidentifier' : Keyed.fieldOr? members "primary_identifier" [] Json.asStrings? =
      some resource.primaryIdentifier :=
    Keyed.fieldOr?_nonEmpty hidentifier (Json.asStrings?_texts _) List.map_eq_nil_iff.1
  simp only [Readable.ofJson?, Json.asObject?, Option.bind_eq_bind, Option.bind_some,
    Keyed.field?_text htypeName, Keyed.field?_text hname, Keyed.optional?_text hdocumentation,
    hproperties', hattributes', hidentifier', Keyed.fieldOr?_bool hstateful,
    Keyed.optional?_text htag]
  rfl

theorem TypeDefinition.readAs : ReadAs TypeDefinition.restored := by
  refine readAs_of_holds (fun _ => rfl) (by simp) fun definition members h => ?_
  simp only [Keyed.Holds, List.forall_mem_cons] at h
  obtain ⟨hname, hdocumentation, hproperties, _⟩ := h
  have hproperties' : Keyed.fieldOr? members "properties" [] PropertyMap.ofJson? = some _ :=
    Keyed.fieldOr?_eq hproperties (PropertyMap.ofJson?_toJson definition.properties)
  simp only [Readable.ofJson?, Json.asObject?, Option.bind_eq_bind, Option.bind_some,
    Keyed.field?_text hname, Keyed.optional?_text hdocumentation, hproperties']
  rfl

/-! ### Records and edges -/

/-- A record with its entity changed. -/
def Record.map {α : Type} (change : α → α) (r : Record α) : Record α := ⟨r.id, change r.entity⟩

theorem Record.ofJson?_toJson {α : Type} [Encodable α] [Readable α] {restored : α → α}
    (h : ReadAs restored) (r : Record α) : Record.ofJson? r.toJson = some (r.map restored) := by
  obtain ⟨members, hmembers, hid, hentity⟩ := h r.entity (Json.nat r.id.value)
  have hid' : Keyed.field? members "$id" Identity.ofJson? = some r.id := Keyed.field?_eq hid rfl
  rw [Record.toJson, hmembers, Record.ofJson?]
  simp only [Json.asObject?, Option.bind_eq_bind, Option.bind_some, hid', hentity]
  rfl

theorem Edge.ofJson?_toJson {α : Type} [Encodable α] [Readable α]
    (h : ∀ attributes : α, Readable.ofJson? (Encodable.toJson attributes) = some attributes)
    (edge : Edge α) : Edge.ofJson? edge.toJson = some edge := by
  rw [Edge.toJson]
  generalize hjson : Json.ofFields _ = json
  obtain ⟨members, rfl, hholds⟩ := Json.exists_holds hjson (by simp)
  simp only [Keyed.Holds, List.forall_mem_cons] at hholds
  obtain ⟨hid, hattributes, _⟩ := hholds
  have hid' : Keyed.field? members "$id" Identity.ofJson? = some edge.id := Keyed.field?_eq hid rfl
  rw [Edge.ofJson?]
  simp only [Json.structure?, Option.bind_eq_bind, Option.bind_some, hid',
    Keyed.field?_eq hattributes (h edge.attributes)]
  rfl

theorem Use.ofJson?_toJson (use : Use) : Readable.ofJson? (Encodable.toJson use) = some use := by
  change Readable.ofJson? (Json.ofFields _) = _
  generalize hjson : Json.ofFields _ = json
  obtain ⟨members, rfl, h⟩ := Json.exists_holds hjson (by simp)
  simp only [Keyed.Holds, List.forall_mem_cons] at h
  simp only [Readable.ofJson?, Json.structure?, Option.bind_eq_bind, Option.bind_some,
    Keyed.field?_text h.1]
  rfl

theorem Unit.ofJson?_toJson (attributes : Unit) :
    Readable.ofJson? (Encodable.toJson attributes) = some attributes := rfl

end ResourceCatalog
