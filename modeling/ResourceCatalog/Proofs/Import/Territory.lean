import Mathlib
import ResourceCatalog.Import.Typing
import ResourceCatalog.Proofs.Schema.Sizes
import ResourceCatalog.Proofs.Schema.Traces

/-!
# The schemas that typing comes to

Typing comes to parts of the document and of the schema that is typed, and to what some of these
unify to. It unifies the branches of a combinator and the values of a map, but no unified schema has
a combinator of its own or a map with several values. So there are finitely many schemas that typing
can come to, no more than a power of the sizes, and on none of them does a way without records have
more maps than there are in the document and the schema.
-/

namespace ResourceCatalog

namespace Json

/-! ### All values inside of a value -/

mutual

/-- A value and all values inside of it. -/
def inside : Json → List Json
  | .arr items => .arr items :: insideItems items
  | .obj members => .obj members :: insideMembers members
  | other => [other]

def insideItems : List Json → List Json
  | [] => []
  | x :: xs => inside x ++ insideItems xs

def insideMembers : List (String × Json) → List Json
  | [] => []
  | (_, x) :: xs => inside x ++ insideMembers xs

end

variable {value part : Json}

theorem insideItems_eq (items : List Json) : insideItems items = items.flatMap inside := by
  induction items with
  | nil => rfl
  | cons item rest ih => rw [insideItems, ih, List.flatMap_cons]

theorem insideMembers_eq (members : Members) :
    insideMembers members = members.flatMap fun entry => entry.2.inside := by
  induction members with
  | nil => rfl
  | cons entry rest ih => rw [insideMembers, ih, List.flatMap_cons]

theorem length_inside (value : Json) : value.inside.length = value.size := by
  induction value using partsInduction with
  | scalar value harray hobject =>
    cases value with
    | arr _ => cases harray
    | obj _ => cases hobject
    | _ => rfl
  | arr items ih =>
    rw [inside, List.length_cons, insideItems_eq, List.length_flatMap, size_arr,
      List.map_congr_left ih, Nat.add_comm]
  | obj members ih =>
    rw [inside, List.length_cons, insideMembers_eq, List.length_flatMap, size_obj,
      List.map_congr_left ih, Nat.add_comm]

theorem mem_inside_self (value : Json) : value ∈ value.inside := by
  cases value with
  | _ => exact List.mem_cons_self

theorem mem_inside_iff : part ∈ value.inside ↔ value.Encloses part := by
  constructor
  · induction value using partsInduction with
    | scalar value harray hobject =>
      intro h
      cases value with
      | arr _ => cases harray
      | obj _ => cases hobject
      | _ => exact List.mem_singleton.1 h ▸ .refl
    | arr items ih =>
      intro h
      rw [inside, insideItems_eq] at h
      rcases List.mem_cons.1 h with rfl | h
      · exact .refl
      · obtain ⟨item, hitem, h⟩ := List.mem_flatMap.1 h
        exact (ih item hitem h).head hitem
    | obj members ih =>
      intro h
      rw [inside, insideMembers_eq] at h
      rcases List.mem_cons.1 h with rfl | h
      · exact .refl
      · obtain ⟨entry, hentry, h⟩ := List.mem_flatMap.1 h
        exact (ih entry hentry h).head (List.mem_map_of_mem (f := Prod.snd) hentry)
  · intro h
    induction h using Relation.ReflTransGen.head_induction_on with
    | refl => exact mem_inside_self part
    | @head value child hchild _ ih =>
      cases value with
      | arr items =>
        rw [inside, insideItems_eq]
        exact List.mem_cons_of_mem _ (List.mem_flatMap.2 ⟨child, hchild, ih⟩)
      | obj members =>
        obtain ⟨entry, hentry, rfl⟩ := List.mem_map.1 hchild
        rw [inside, insideMembers_eq]
        exact List.mem_cons_of_mem _ (List.mem_flatMap.2 ⟨entry, hentry, ih⟩)
      | _ => exact hchild.elim

theorem size_le_of_encloses (h : value.Encloses part) : part.size ≤ value.size := by
  induction h with
  | refl => exact le_rfl
  | @tail other child _ hchild ih =>
    refine le_trans ?_ ih
    cases other with
    | arr items =>
      rw [size_arr]
      have hle := List.le_sum_of_mem (List.mem_map_of_mem (f := size) hchild)
      omega
    | obj members =>
      obtain ⟨entry, hentry, rfl⟩ := List.mem_map.1 hchild
      exact (size_lt_of_mem hentry).le
    | _ => exact hchild.elim

end Json

namespace Schema

/-! ### Bounded numbers of steps -/

/-- A way down from the schema by steps of some kinds has at most so many steps of one of them. -/
def Bounded (document : Json) (labels : List Label) (label : Label) (bound : Nat)
    (schema : Json) : Prop :=
  ∀ trace, (∀ step ∈ trace, step ∈ labels) → Trace document trace schema →
    trace.count label ≤ bound

section Bounded

variable {document schema next : Json} {labels : List Label} {label other : Label} {bound : Nat}

theorem Bounded.step (h : Bounded document labels label bound schema) (hother : other ∈ labels)
    (hnext : Step document other schema next) : Bounded document labels label bound next := by
  intro trace hlabels htrace
  have hcount := h (other :: trace) (List.forall_mem_cons.2 ⟨hother, hlabels⟩) ⟨next, hnext, htrace⟩
  exact (List.count_le_count_cons).trans hcount

/-- A step of the kind leaves one less. -/
theorem Bounded.exists_succ (h : Bounded document labels label bound schema)
    (hlabel : label ∈ labels) (hnext : Step document label schema next) :
    ∃ less, bound = less + 1 ∧ Bounded document labels label less next := by
  have hpos : 1 ≤ bound := by
    have hcount := h [label] (fun step hstep => List.mem_singleton.1 hstep ▸ hlabel)
      ⟨next, hnext, trivial⟩
    rwa [List.count_singleton_self] at hcount
  refine ⟨bound - 1, by omega, fun trace hlabels htrace => ?_⟩
  have hcount := h (label :: trace) (List.forall_mem_cons.2 ⟨hlabel, hlabels⟩) ⟨next, hnext, htrace⟩
  rw [List.count_cons_self] at hcount
  omega

theorem Bounded.exists_succ_all (h : Bounded document labels label bound schema)
    (hlabel : label ∈ labels) {nexts : List Json} (hne : nexts ≠ [])
    (hnexts : ∀ next ∈ nexts, Step document label schema next) :
    ∃ less, bound = less + 1 ∧ ∀ next ∈ nexts, Bounded document labels label less next := by
  obtain ⟨first, hfirst⟩ := List.exists_mem_of_ne_nil nexts hne
  obtain ⟨less, rfl, _⟩ := h.exists_succ hlabel (hnexts first hfirst)
  refine ⟨less, rfl, fun next hnext => ?_⟩
  obtain ⟨other, hother, hbounded⟩ := h.exists_succ hlabel (hnexts next hnext)
  exact Nat.succ.inj hother ▸ hbounded

theorem Bounded.of_covered {sources : List Json} (hcovered : Covered document sources schema)
    (h : ∀ source ∈ sources, Bounded document labels label bound source) :
    Bounded document labels label bound schema := by
  intro trace hlabels htrace
  obtain ⟨source, hsource, htrace⟩ := hcovered trace htrace
  exact h source hsource trace hlabels htrace

theorem Bounded.reaches (h : Bounded document labels label bound schema) (hpart : .part ∈ labels)
    (hreaches : Reaches document schema next) : Bounded document labels label bound next := by
  induction hreaches with
  | refl => exact h
  | tail _ hleads ih => exact ih.step hpart hleads

/-- Some schemas are reached by steps of some kinds. -/
def Ways (document : Json) (labels : List Label) : Json → Json → Prop :=
  Relation.ReflTransGen fun a b => ∃ label ∈ labels, Step document label a b

/-- Where no step of a kind leads back to where it was taken, each of them is taken at another one
of the schemas on the way, so there are no more than there are schemas. -/
theorem bounded_of_acyclic {region : List Json}
    (hregion : ∀ node, Ways document labels schema node → node ∈ region)
    (hacyclic : ∀ node, Ways document labels schema node → ∀ next, Step document label node next →
      ¬ Ways document labels next node) : Bounded document labels label region.length schema := by
  intro trace hlabels htrace
  -- the nodes are those at which a step of the kind is taken
  suffices hnodes : ∃ nodes : List Json, nodes.Nodup ∧ nodes.length = trace.count label ∧
      ∀ node ∈ nodes, Ways document labels schema node by
    obtain ⟨nodes, hnodup, hlength, hnodes⟩ := hnodes
    rw [← hlength]
    exact (hnodup.subperm fun node hnode => hregion node (hnodes node hnode)).length_le
  clear hregion
  induction trace generalizing schema with
  | nil => exact ⟨[], List.nodup_nil, rfl, fun _ h => absurd h List.not_mem_nil⟩
  | cons first rest ih =>
    obtain ⟨hfirst, hrest⟩ := List.forall_mem_cons.1 hlabels
    obtain ⟨next, hnext, htrace⟩ := htrace
    have hhead : ∀ {node}, Ways document labels next node → Ways document labels schema node :=
      fun hnode => hnode.head ⟨first, hfirst, hnext⟩
    obtain ⟨nodes, hnodup, hlength, hnodes⟩ :=
      ih (fun node hnode => hacyclic node (hhead hnode)) hrest htrace
    by_cases hlabel : first = label
    · subst hlabel
      refine ⟨schema :: nodes, List.nodup_cons.2 ⟨fun hmem => ?_, hnodup⟩, ?_, ?_⟩
      · exact hacyclic schema .refl next hnext (hnodes schema hmem)
      · rw [List.length_cons, hlength, List.count_cons_self]
      · exact List.forall_mem_cons.2 ⟨.refl, fun node hnode => hhead (hnodes node hnode)⟩
    · refine ⟨nodes, hnodup, ?_, fun node hnode => hhead (hnodes node hnode)⟩
      rw [hlength, List.count_cons_of_ne hlabel]

end Bounded

/-! ### Maps that come to an end -/

/-- What resolution and the types of maps go on to, without entering a record. -/
def GoesOn (document schema next : Json) : Prop :=
  Step document .part schema next ∨ Step document .value schema next

/-- No value of a map in the document comes to the same map again without a record in between. A
record is not gone through, but references, branches and items are, whatever is declared beside
them. -/
def MapsEnd (document : Json) : Prop :=
  ∀ map, document.Encloses map → MapLike map → ∀ value ∈ mapValues map,
    ¬ Relation.ReflTransGen (GoesOn document) value map

/-- The values of a map in another schema do not come to it again either: outside of the document
each step goes deeper. -/
theorem MapsEnd.not_reaches {document : Json} (h : MapsEnd document) {map value : Json}
    (hvalue : Step document .value map value) :
    ¬ Relation.ReflTransGen (GoesOn document) value map := by
  intro hback
  -- the map is in the document as well, or it lies too deep to be come to from its value
  have hinvariant : ∀ {node}, Relation.ReflTransGen (GoesOn document) value node →
      document.Encloses node ∨ node.depth < map.depth ∨ node = .obj [] := by
    intro node hnode
    have hkeeps : ∀ {label : Label} {node next : Json}, Step document label node next →
        document.Encloses node ∨ node.depth ≤ map.depth ∨ node = .obj [] →
          document.Encloses next ∨ next.depth < map.depth ∨ next = .obj [] := by
      intro label node next hstep hnode
      rcases hstep.origin with hinside | hpart | rfl
      · exact Or.inl hinside
      · rcases hnode with hinside | hdepth | rfl
        · exact Or.inl (hinside.trans hpart.encloses)
        · exact Or.inr (Or.inl (hpart.depth_lt.trans_le hdepth))
        · exact absurd hstep not_step_nil
      · exact Or.inr (Or.inr rfl)
    induction hnode with
    | refl => exact hkeeps hvalue (Or.inr (Or.inl le_rfl))
    | tail _ hstep ih =>
      have hweak := ih.imp_right (Or.imp_left Nat.le_of_lt)
      exact hstep.elim (fun hstep => hkeeps hstep hweak) fun hstep => hkeeps hstep hweak
  rcases hinvariant hback with hinside | hdepth | rfl
  · exact h map hinside hvalue.1 value hvalue.2 hback
  · exact absurd hdepth (lt_irrefl _)
  · exact not_step_nil hvalue

/-! ### Schemas that typing comes to -/

/-- What some schemas unify to when they have been resolved, apart from those that fail a test. -/
def joined (document : Json) (test : Resolved → Bool) (parts : List Json) : List Json :=
  let resolved := (parts.filterMap fun part => (resolve document part).toOption).filter test
  (unifyAll (resolved.map Resolved.schema)).toOption.toList

/-- What typing unifies where it comes to a schema. -/
def joins (document schema : Json) : List Json :=
  match combinator? schema with
  | some (_, branches) => joined document Typing.isConstrained branches
  | none => joined document (fun _ => true) (mapValues schema)

/-- Everything in the document and in the schema that is typed, and the schema that accepts
everything. -/
def sources (document schema : Json) : List Json := document.inside ++ schema.inside ++ [.obj []]

/-- The sources, and everything in what they are unified to. -/
def territory (document schema : Json) : List Json :=
  sources document schema ++
    (sources document schema).flatMap fun source => (joins document source).flatMap Json.inside

section Territory

variable {document schema node next : Json} {label : Label}

theorem mem_sources_iff : node ∈ sources document schema ↔
    document.Encloses node ∨ schema.Encloses node ∨ node = .obj [] := by
  rw [sources, List.mem_append, List.mem_append, Json.mem_inside_iff, Json.mem_inside_iff,
    List.mem_singleton, or_assoc]

theorem mem_territory_of_source (h : node ∈ sources document schema) :
    node ∈ territory document schema := List.mem_append_left _ h

theorem mem_sources_of_part (hnode : node ∈ sources document schema) (hpart : Part node next) :
    next ∈ sources document schema := by
  rw [mem_sources_iff] at hnode ⊢
  rcases hnode with hinside | hinside | rfl
  · exact Or.inl (hinside.trans hpart.encloses)
  · exact Or.inr (Or.inl (hinside.trans hpart.encloses))
  · obtain ⟨entry, hentry, _⟩ := hpart
    exact absurd hentry List.not_mem_nil

theorem mem_sources_of_step (hnode : node ∈ sources document schema)
    (hstep : Step document label node next) : next ∈ sources document schema := by
  rcases hstep.origin with hinside | hpart | rfl
  · exact mem_sources_iff.2 (Or.inl hinside)
  · exact mem_sources_of_part hnode hpart
  · exact mem_sources_iff.2 (Or.inr (Or.inr rfl))

theorem mem_territory_of_step (hnode : node ∈ territory document schema)
    (hstep : Step document label node next) : next ∈ territory document schema := by
  rcases List.mem_append.1 hnode with hnode | hnode
  · exact mem_territory_of_source (mem_sources_of_step hnode hstep)
  · obtain ⟨source, hsource, hnode⟩ := List.mem_flatMap.1 hnode
    obtain ⟨unified, hunified, hnode⟩ := List.mem_flatMap.1 hnode
    rcases hstep.origin with hinside | hpart | rfl
    · exact mem_territory_of_source (mem_sources_iff.2 (Or.inl hinside))
    · refine List.mem_append_right _ (List.mem_flatMap.2 ⟨source, hsource, ?_⟩)
      refine List.mem_flatMap.2 ⟨unified, hunified, Json.mem_inside_iff.2 ?_⟩
      exact (Json.mem_inside_iff.1 hnode).trans hpart.encloses
    · exact mem_territory_of_source (mem_sources_iff.2 (Or.inr (Or.inr rfl)))

theorem mem_sources_of_reaches (hnode : node ∈ sources document schema)
    (h : Reaches document node next) : next ∈ sources document schema := by
  induction h with
  | refl => exact hnode
  | tail _ hleads ih => exact mem_sources_of_step ih hleads.step

theorem mem_territory_of_reaches (hnode : node ∈ territory document schema)
    (h : Reaches document node next) : next ∈ territory document schema := by
  induction h with
  | refl => exact hnode
  | tail _ hleads ih => exact mem_territory_of_step ih hleads.step

theorem Unfolds.reaches {name : Option String} {resolved : Resolved}
    (h : Unfolds document name schema resolved) : Reaches document schema resolved.schema := by
  induction h using @Unfolds.rec document _ (fun _ _ _ => True) with
  | reference href htarget _ ih => exact ih.head (.target href htarget)
  | combined => exact .refl
  | items => exact .refl
  | array => exact .refl
  | concrete => exact .refl
  | nil => trivial
  | cons => trivial

/-! ### How many there are -/

theorem length_sources : (sources document schema).length = document.size + schema.size + 1 := by
  rw [sources, List.length_append, List.length_append, Json.length_inside, Json.length_inside,
    List.length_singleton]

theorem size_le_of_mem_sources (h : node ∈ sources document schema) :
    node.size ≤ document.size + schema.size := by
  have hdocument := document.size_pos
  rcases mem_sources_iff.1 h with hinside | hinside | rfl
  · exact (Json.size_le_of_encloses hinside).trans (Nat.le_add_right _ _)
  · exact (Json.size_le_of_encloses hinside).trans (Nat.le_add_left _ _)
  · exact hdocument.trans_le (Nat.le_add_right _ _)

theorem wellFormed_of_mem_sources (hdocument : document.WellFormed) (hschema : schema.WellFormed)
    (h : node ∈ sources document schema) : node.WellFormed := by
  rcases mem_sources_iff.1 h with hinside | hinside | rfl
  · exact wellFormed_of_encloses hdocument hinside
  · exact wellFormed_of_encloses hschema hinside
  · exact filled_any.wellFormed

theorem length_le_size_of_branches {op : Combinator} {branches : List Json}
    (h : combinator? node = some (op, branches)) : branches.length ≤ node.size := by
  have hbranches : ∀ {op found}, branches? node op = some (found, branches) →
      branches.length ≤ node.size := by
    intro op found h
    unfold branches? at h
    split at h
    · next others hmember =>
      obtain ⟨_, rfl⟩ := Prod.mk.inj (Option.some.inj h)
      have hinside := Json.size_le_of_encloses (Relation.ReflTransGen.single
        (child_of_mem_settings (mem_settings_of_member? hmember)))
      have hlength := length_le_sizeItems others
      rw [Json.size] at hinside
      omega
    · cases h
  unfold combinator? at h
  simp only [Option.or_eq_some_iff] at h
  rcases h with h | ⟨_, h | ⟨_, h⟩⟩
  · exact hbranches h
  · exact hbranches h
  · exact hbranches h

theorem length_le_size_of_mapValues (node : Json) : (mapValues node).length ≤ node.size := by
  cases node with
  | obj members =>
    have hlength := length_le_sizeItems (mapValues (.obj members))
    have hvalues := sum_mapValues_le members
    have hkeys := sum_sizeAt_le (show mapKeys.Nodup by decide) members
    have hmapKeys : mapKeys = ["additionalProperties", "patternProperties"] := rfl
    simp only [hmapKeys, List.map_cons, List.map_nil, List.sum_cons, List.sum_nil] at hkeys
    rw [Json.sizeItems_eq] at hlength
    rw [Json.size]
    omega
  | _ => exact Nat.zero_le _

theorem toOption_eq_some_iff {ε α : Type} {result : Except ε α} {a : α} :
    result.toOption = some a ↔ result = .ok a := by
  cases result with
  | ok b => exact ⟨fun h => congrArg _ (Option.some.inj h), fun h => congrArg _ (Except.ok.inj h)⟩
  | error e => exact ⟨nofun, nofun⟩

section WellFormed

variable (hdocument : document.WellFormed) (hschema : schema.WellFormed)

include hdocument hschema

theorem size_le_of_joined {test : Resolved → Bool} {parts : List Json}
    (hparts : ∀ part ∈ parts, part ∈ sources document schema)
    (hnode : node ∈ joined document test parts) :
    node.size ≤ parts.length * (document.size + schema.size) := by
  have hunified := toOption_eq_some_iff.1 (Option.mem_toList.1 hnode)
  have hsources : ∀ resolved ∈ (parts.filterMap fun part =>
      (resolve document part).toOption).filter test,
        resolved.schema ∈ sources document schema := by
    intro resolved hresolved
    obtain ⟨part, hpart, hfound⟩ := List.mem_filterMap.1 (List.mem_filter.1 hresolved).1
    have hunfolds := resolve_eq_ok_iff.1 (toOption_eq_some_iff.1 hfound)
    exact mem_sources_of_reaches (hparts part hpart) hunfolds.reaches
  have hsize := size_unifyAll_le (fun other hother => by
    obtain ⟨resolved, hresolved, rfl⟩ := List.mem_map.1 hother
    exact wellFormed_of_mem_sources hdocument hschema (hsources resolved hresolved)) hunified
  have hsum := List.sum_le_card_nsmul (((parts.filterMap fun part =>
      (resolve document part).toOption).filter test).map fun resolved => resolved.schema.size)
    (document.size + schema.size) (fun size hmem => by
      obtain ⟨resolved, hresolved, rfl⟩ := List.mem_map.1 hmem
      exact size_le_of_mem_sources (hsources resolved hresolved))
  rw [List.length_map, smul_eq_mul] at hsum
  rw [List.map_map] at hsize
  refine hsize.trans (hsum.trans (Nat.mul_le_mul_right _ ?_))
  exact (List.length_filter_le _ _).trans (List.length_filterMap_le _ _)

theorem size_le_of_joins (hnode : node ∈ sources document schema) {unified : Json}
    (hunified : unified ∈ joins document node) :
    unified.size ≤ (document.size + schema.size) * (document.size + schema.size) := by
  have hsize := size_le_of_mem_sources hnode
  have hfinish : ∀ {test : Resolved → Bool} {parts : List Json}, parts.length ≤ node.size →
      (∀ part ∈ parts, part ∈ sources document schema) → unified ∈ joined document test parts →
        unified.size ≤ (document.size + schema.size) * (document.size + schema.size) := by
    intro test parts hlength hparts hunified
    exact (size_le_of_joined hdocument hschema hparts hunified).trans
      (Nat.mul_le_mul_right _ (hlength.trans hsize))
  rw [joins] at hunified
  split at hunified
  · next op branches hbranches =>
    exact hfinish (length_le_size_of_branches hbranches)
      (fun _ hbranch => mem_sources_of_part hnode (.of_combinator hbranches hbranch)) hunified
  · refine hfinish (length_le_size_of_mapValues node) (fun value hvalue => ?_) hunified
    rcases Part.of_mapValues hvalue with hpart | rfl
    · exact mem_sources_of_part hnode hpart
    · exact mem_sources_iff.2 (Or.inr (Or.inr rfl))

theorem length_territory_le {size : Nat} (hsize : document.size + schema.size = size) :
    (territory document schema).length ≤ (size + 1) * (size * size + 1) := by
  have hjoins : ∀ source ∈ sources document schema,
      ((joins document source).flatMap Json.inside).length ≤ size * size := by
    intro source hsource
    have hone : (joins document source).length ≤ 1 := by
      have htoList : ∀ found : Option Json, found.toList.length ≤ 1 := by
        intro found
        cases found with
        | none => exact Nat.zero_le _
        | some _ => exact le_rfl
      rw [joins]
      split
      · exact htoList _
      · exact htoList _
    have hall : ∀ unified ∈ joins document source, unified.size ≤ size * size :=
      fun _ hunified => hsize ▸ size_le_of_joins hdocument hschema hsource hunified
    match hfound : joins document source, hone with
    | [], _ => exact Nat.zero_le _
    | [unified], _ =>
      rw [List.flatMap_singleton, Json.length_inside]
      exact hall unified (hfound ▸ List.mem_singleton_self unified)
  have hsum := List.sum_le_card_nsmul ((sources document schema).map fun source =>
    ((joins document source).flatMap Json.inside).length) (size * size) (fun length hmem => by
      obtain ⟨source, hsource, rfl⟩ := List.mem_map.1 hmem
      exact hjoins source hsource)
  rw [List.length_map, smul_eq_mul, length_sources, hsize] at hsum
  rw [territory, List.length_append, List.length_flatMap, length_sources, hsize]
  calc size + 1 + ((sources document schema).map fun source =>
        ((joins document source).flatMap Json.inside).length).sum
      ≤ size + 1 + (size + 1) * (size * size) := Nat.add_le_add_left hsum _
    _ = (size + 1) * (size * size + 1) := by ring

end WellFormed

end Territory

/-! ### What is known where typing comes to -/

/-- A schema that brings nothing new to be unified. -/
structure Tame (sources : List Json) (schema : Json) : Prop where
  wellFormed : schema.WellFormed
  combinator : kind schema = .unsupported "combinator" → schema ∈ sources
  map : kind schema = .map → schema ∈ sources ∨ (mapValues schema).length ≤ 1

theorem tame_of_mem {sources : List Json} {schema : Json} (h : schema.WellFormed)
    (hmem : schema ∈ sources) : Tame sources schema :=
  ⟨h, fun _ => hmem, fun _ => Or.inl hmem⟩

theorem tame_any {sources : List Json} : Tame sources (.obj []) where
  wellFormed := filled_any.wellFormed
  combinator h := by cases h
  map h := by cases h

/-- No rule writes a combinator, and the one for maps leaves a single schema for the values. -/
theorem Tame.unify {sources : List Json} {a b unified : Json} (ha : Tame sources a)
    (hb : Tame sources b) (h : Schema.unify a b = .ok unified) : Tame sources unified := by
  cases hsame : a.same b with
  | true => exact eq_of_unify_of_same hsame h ▸ ha
  | false =>
    have hformed := wellFormed_unify ha.wellFormed hb.wellFormed h
    rcases kind_unify_cases ha.wellFormed hb.wellFormed hsame h with
      ⟨k, hk, hkind, hkind', hunified⟩ | hunified | hunified | ⟨_, hunified⟩
    · by_cases hmap : k = .map
      · subst hmap
        refine ⟨hformed, fun hcombinator => ?_, fun _ => Or.inr ?_⟩
        · rw [hunified, unifiedKind] at hcombinator
          split at hcombinator
          · cases hcombinator
          · cases hcombinator
        · rw [mapValues, patterns_of_unify ha.wellFormed hb.wellFormed hkind hkind' hsame h,
            List.append_nil]
          split
          · exact le_rfl
          · exact le_rfl
          · exact Nat.zero_le _
      · have hmem := unifiedKind_mem (a := a) (b := b) hk hmap
        rw [← hunified] at hmem
        refine ⟨hformed, fun hcombinator => ?_, fun hkindMap => ?_⟩
        · exact absurd (hcombinator ▸ hmem) (by decide)
        · exact absurd (hkindMap ▸ hmem) (by decide)
    all_goals
      refine ⟨hformed, fun hcombinator => ?_, fun hkindMap => ?_⟩
      · cases hunified.symm.trans hcombinator
      · cases hunified.symm.trans hkindMap

theorem handedOn_tame (sources : List Json) : HandedOn (Tame sources) := ⟨tame_any, Tame.unify⟩

theorem MapLike.kind {schema : Json} (h : MapLike schema) :
    kind schema = .map ∨ kind schema = .unsupported "combinator" :=
  kind_of_isMap h.reference h.type h.isMap

theorem kind_of_combinator? {schema : Json} {op : Combinator} {branches : List Json}
    (href : schema.member? "$ref" = none) (h : combinator? schema = some (op, branches)) :
    kind schema = .unsupported "combinator" := by
  have hbranches : ∀ {op found}, branches? schema op = some (found, branches) →
      ∃ setting, schema.member? op.key = some setting := by
    intro op found h
    unfold branches? at h
    split at h
    · next hmember => exact ⟨_, hmember⟩
    · cases h
  have hkey : ∃ op : Combinator, ∃ setting, schema.member? op.key = some setting := by
    unfold combinator? at h
    simp only [Option.or_eq_some_iff] at h
    rcases h with h | ⟨_, h | ⟨_, h⟩⟩
    · exact ⟨_, hbranches h⟩
    · exact ⟨_, hbranches h⟩
    · exact ⟨_, hbranches h⟩
  obtain ⟨op, setting, hsetting⟩ := hkey
  cases schema with
  | obj members =>
    have hreference : Keyed.get? "$ref" members = none := href
    rw [kind, hreference]
    refine if_pos (List.any_eq_true.2 ⟨op.key, by cases op <;> decide, ?_⟩)
    rw [Keyed.contains, show Keyed.get? op.key members = some setting from hsetting]
    rfl
  | _ => cases hsetting

/-- A schema that typing comes to. -/
structure Reached (document schema node : Json) : Prop where
  mem : node ∈ territory document schema
  tame : Throughout (Tame (sources document schema)) node
  covered : Covered document (sources document schema) node

section Reached

variable {document schema node next : Json} {label : Label} (hdocument : document.WellFormed)
  (hschema : schema.WellFormed)

include hdocument hschema

theorem reached_of_source (h : node ∈ sources document schema) : Reached document schema node where
  mem := mem_territory_of_source h
  tame part hpart := by
    have hmem : part ∈ sources document schema := by
      induction hpart with
      | refl => exact h
      | tail _ hpart ih => exact mem_sources_of_part ih hpart
    exact tame_of_mem (wellFormed_of_mem_sources hdocument hschema hmem) hmem
  covered _ htrace := ⟨node, h, htrace⟩

theorem Reached.step (h : Reached document schema node) (hstep : Step document label node next) :
    Reached document schema next where
  mem := mem_territory_of_step h.mem hstep
  tame := by
    rcases hstep.origin with hinside | hpart | rfl
    · exact (reached_of_source hdocument hschema (mem_sources_iff.2 (Or.inl hinside))).tame
    · exact h.tame.below hpart
    · exact throughout_of_nil tame_any
  covered trace htrace := by
    obtain ⟨source, hsource, other, hother, hrest⟩ :=
      h.covered (label :: trace) ⟨next, hstep, htrace⟩
    exact ⟨other, mem_sources_of_step hsource hother, hrest⟩

omit hdocument hschema in
/-- There are no more maps on a way without records than there are sources. -/
theorem Reached.bounded_maps (hmaps : MapsEnd document) (h : Reached document schema node) :
    Bounded document [.part, .value] .value (sources document schema).length node := by
  refine .of_covered h.covered fun source hsource => bounded_of_acyclic (fun other hother => ?_) ?_
  · induction hother with
    | refl => exact hsource
    | tail _ hstep ih =>
      obtain ⟨_, _, hstep⟩ := hstep
      exact mem_sources_of_step ih hstep
  · intro other _ next hnext hback
    refine hmaps.not_reaches hnext (hback.lift id ?_)
    rintro x y ⟨label, hlabel, hstep⟩
    rcases List.mem_pair.1 hlabel with rfl | rfl
    · exact Or.inl hstep
    · exact Or.inr hstep

omit hdocument hschema in
/-- The unfolding of a schema that can be resolved is no deeper than the territory is large. -/
theorem Reached.bounded_parts (h : Reached document schema node)
    (hfounded : Founded document node) :
    Bounded document [.part] .part (territory document schema).length node := by
  have hreaches : ∀ {x y}, Ways document [.part] x y → Reaches document x y := by
    intro x y hways
    refine hways.lift id ?_
    rintro x y ⟨label, hlabel, hstep⟩
    rcases List.mem_singleton.1 hlabel with rfl
    exact hstep
  refine bounded_of_acyclic (fun other hother => ?_) fun other hother next hnext hback => ?_
  · exact mem_territory_of_reaches h.mem (hreaches hother)
  · exact (hfounded.of_reaches (hreaches hother)).not_loop (.head' hnext (hreaches hback))

/-! ### Unified schemas -/

/-- What the resolved parts of a source unify to is in the territory, and on the ways down from it
there are no more steps of a kind than on those from the parts. -/
theorem reached_join {test : Resolved → Bool} {parts : List Json} {resolved : List Resolved}
    {unified : Json} (hnode : node ∈ sources document schema)
    (hjoins : joins document node = joined document test parts)
    (hparts : ∀ part ∈ parts, part ∈ sources document schema)
    (hresolved : List.Forall₂ (fun part r => resolve document part = .ok r) parts resolved)
    (hunified : unifyAll ((resolved.filter test).map Resolved.schema) = .ok unified) :
    Reached document schema unified ∧ ∀ {labels label bound}, .part ∈ labels →
      (∀ part ∈ parts, Bounded document labels label bound part) →
        Bounded document labels label bound unified := by
  have hfound : parts.filterMap (fun part => (resolve document part).toOption) = resolved := by
    clear hparts hunified hjoins
    induction hresolved with
    | nil => rfl
    | cons hfirst _ ih =>
      rw [List.filterMap_cons, toOption_eq_some_iff.2 hfirst]
      exact congrArg _ ih
  have hreaches : ∀ other ∈ (resolved.filter test).map Resolved.schema,
      ∃ part ∈ parts, Reaches document part other := by
    intro other hother
    obtain ⟨r, hr, rfl⟩ := List.mem_map.1 hother
    obtain ⟨part, hpart, hunfolds⟩ :=
      Json.exists_mem_of_forall₂ hresolved.flip (List.mem_filter.1 hr).1
    exact ⟨part, hpart, (resolve_eq_ok_iff.1 hunfolds).reaches⟩
  have hsources : ∀ other ∈ (resolved.filter test).map Resolved.schema,
      other ∈ sources document schema := by
    intro other hother
    obtain ⟨part, hpart, hreach⟩ := hreaches other hother
    exact mem_sources_of_reaches (hparts part hpart) hreach
  have hformed := fun other hother =>
    wellFormed_of_mem_sources hdocument hschema (hsources other hother)
  have hcovered := covered_unifyAll hdocument hformed hunified
  refine ⟨⟨?_, ?_, fun trace htrace => ?_⟩, fun hpart hbounded => ?_⟩
  · refine List.mem_append_right _ (List.mem_flatMap.2 ⟨node, hnode, List.mem_flatMap.2 ?_⟩)
    refine ⟨unified, ?_, Json.mem_inside_self unified⟩
    rw [hjoins, joined, hfound]
    exact Option.mem_toList.2 (toOption_eq_some_iff.2 hunified)
  · refine (handedOn_tame _).unifyAll (fun other hother => ?_) hunified
    exact (reached_of_source hdocument hschema (hsources other hother)).tame
  · obtain ⟨other, hother, htrace⟩ := hcovered trace htrace
    exact ⟨other, hsources other hother, htrace⟩
  · refine .of_covered hcovered fun other hother => ?_
    obtain ⟨part, hmem, hreach⟩ := hreaches other hother
    exact (hbounded part hmem).reaches hpart hreach

theorem Reached.branches (h : Reached document schema node) (href : node.member? "$ref" = none)
    {op : Combinator} {branches : List Json} (hbranches : combinator? node = some (op, branches))
    {resolved : List Resolved} {unified : Json}
    (hresolved : List.Forall₂ (fun part r => resolve document part = .ok r) branches resolved)
    (hunified : unifyAll ((resolved.filter Typing.isConstrained).map Resolved.schema) =
      .ok unified) :
    Reached document schema unified ∧ ∀ {labels label bound}, .part ∈ labels →
      (∀ branch ∈ branches, Bounded document labels label bound branch) →
        Bounded document labels label bound unified := by
  have hnode := h.tame.here.combinator (kind_of_combinator? href hbranches)
  refine reached_join hdocument hschema hnode ?_ (fun branch hbranch => ?_) hresolved hunified
  · rw [joins, hbranches]
  · exact mem_sources_of_part hnode (.of_combinator hbranches hbranch)

theorem Reached.values (h : Reached document schema node) (hmap : MapLike node)
    (hseveral : (mapValues node).length ≠ 1) {resolved : List Resolved} {unified : Json}
    (hresolved : List.Forall₂ (fun part r => resolve document part = .ok r) (mapValues node)
      resolved)
    (hunified : unifyAll (resolved.map Resolved.schema) = .ok unified) :
    Reached document schema unified ∧ ∀ {labels label bound}, .part ∈ labels →
      (∀ value ∈ mapValues node, Bounded document labels label bound value) →
        Bounded document labels label bound unified := by
  have hnode : node ∈ sources document schema := by
    rcases hmap.kind with hkind | hkind
    · refine (h.tame.here.map hkind).resolve_right fun hone => ?_
      -- nothing is unified where there are no values
      have hnil : mapValues node = [] := List.length_eq_zero_iff.1 (by omega)
      rw [hnil] at hresolved
      cases hresolved
      cases hunified
    · exact h.tame.here.combinator hkind
  rw [← List.filter_true resolved] at hunified
  refine reached_join hdocument hschema hnode ?_ (fun value hvalue => ?_) hresolved hunified
  · rw [joins, hmap.combinator]
  · have hstep : Step document .value node value := ⟨hmap, hvalue⟩
    exact mem_sources_of_step hnode hstep

end Reached

end Schema

end ResourceCatalog
