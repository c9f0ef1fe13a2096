import Mathlib
import ResourceCatalog.Patch.Recipe
import ResourceCatalog.Proofs.Patch.Walk

/-!
# The visits of a pass

A pass hands the rule a cursor for each place that it comes to. These visits are among the places of
the document, in their order, and the walk leaves a place out when a visit before it has asked to
remove the place or one around it. Whether a place is to be removed is only looked up before the
place is entered: once it has been handed to the rule, its removal makes no difference to the pass,
and what lies inside of it is handed to the rule as well.
-/

namespace ResourceCatalog

/-! ### The order of places -/

/-- The second place is the first one or inside of it. -/
def Cursor.Encloses (q c : Cursor) : Prop := q.trail.tokens <+: c.trail.tokens

theorem Cursor.Encloses.refl (c : Cursor) : c.Encloses c := List.prefix_rfl

theorem Cursor.Encloses.trans {p q c : Cursor} (h : p.Encloses q) (h' : q.Encloses c) :
    p.Encloses c := List.IsPrefix.trans h h'

section Order

variable {subject : String} {document container : Json} {trail : Trail} {c : Cursor}

theorem tokens_prefix_of_mem_placesFrom {value : Json}
    (h : c ∈ Cursor.placesFrom subject document trail value) :
    trail.tokens <+: c.trail.tokens := by
  induction value using Json.partsInduction generalizing trail with
  | scalar value harr hobj =>
    rw [placesFrom_scalar harr hobj, List.mem_singleton] at h
    simp [h]
  | arr items ih =>
    rw [Cursor.placesFrom, List.mem_cons] at h
    cases h with
    | inl h => simp [h]
    | inr h =>
      obtain ⟨i, item, hitem, hc⟩ := mem_placesOfItems h
      have hbelow := ih item (List.mem_of_getElem? hitem) hc
      rw [Trail.tokens_cons] at hbelow
      exact (List.prefix_append _ _).trans hbelow
  | obj members ih =>
    rw [Cursor.placesFrom, List.mem_cons] at h
    cases h with
    | inl h => simp [h]
    | inr h =>
      obtain ⟨entry, hentry, hc⟩ := mem_placesOfMembers h
      have hbelow := ih entry hentry hc
      rw [Trail.tokens_cons] at hbelow
      exact (List.prefix_append _ _).trans hbelow

theorem prefix_of_mem_placesFrom_cons {step : Step} {value : Json}
    (h : c ∈ Cursor.placesFrom subject document (step :: trail) value) :
    trail.tokens ++ [step.key.token] <+: c.trail.tokens := by
  have hbelow := tokens_prefix_of_mem_placesFrom h
  rwa [Trail.tokens_cons] at hbelow

theorem prefix_of_mem_placesOfItems {index : Nat} {items : List Json}
    (h : c ∈ Cursor.placesOfItems subject document container trail index items) :
    ∃ i, index ≤ i ∧ trail.tokens ++ [toString i] <+: c.trail.tokens := by
  obtain ⟨i, item, _, hc⟩ := mem_placesOfItems h
  exact ⟨index + i, by omega, prefix_of_mem_placesFrom_cons hc⟩

theorem prefix_of_mem_placesOfMembers {members : Members}
    (h : c ∈ Cursor.placesOfMembers subject document container trail members) :
    ∃ name ∈ Keyed.keys members, trail.tokens ++ [name] <+: c.trail.tokens := by
  obtain ⟨entry, hentry, hc⟩ := mem_placesOfMembers h
  exact ⟨entry.1, List.mem_map_of_mem hentry, prefix_of_mem_placesFrom_cons hc⟩

/-- Places inside of different children do not enclose each other. -/
theorem not_encloses_of_ne {base : List String} {token other : String} (hne : token ≠ other)
    {a b : Cursor} (ha : base ++ [token] <+: a.trail.tokens)
    (hb : base ++ [other] <+: b.trail.tokens) : ¬ a.Encloses b := by
  intro hencloses
  have hprefix := List.prefix_of_prefix_length_le (ha.trans hencloses) hb (by simp)
  simp [List.prefix_append_right_inj, hne] at hprefix

theorem not_encloses_of_inside {token : String} {a b : Cursor} (ha : a.trail = trail)
    (hb : trail.tokens ++ [token] <+: b.trail.tokens) : ¬ b.Encloses a := by
  intro hencloses
  have hlength := (hb.trans hencloses).length_le
  rw [ha, List.length_append, List.length_singleton] at hlength
  omega

theorem beside_placesOfItems {index : Nat} {item : Json} {rest : List Json} {a b : Cursor}
    (ha : a ∈ Cursor.placesFrom subject document (⟨container, .index index⟩ :: trail) item)
    (hb : b ∈ Cursor.placesOfItems subject document container trail (index + 1) rest) :
    ¬ a.Encloses b ∧ ¬ b.Encloses a := by
  have ha' := prefix_of_mem_placesFrom_cons ha
  obtain ⟨i, hi, hb'⟩ := prefix_of_mem_placesOfItems hb
  have hne : toString index ≠ toString i := fun h => by
    have := Pointer.toString_injective h
    omega
  exact ⟨not_encloses_of_ne hne ha' hb', not_encloses_of_ne hne.symm hb' ha'⟩

theorem beside_placesOfMembers {name : String} {value : Json} {rest : Members} {a b : Cursor}
    (hname : name ∉ Keyed.keys rest)
    (ha : a ∈ Cursor.placesFrom subject document (⟨container, .property name⟩ :: trail) value)
    (hb : b ∈ Cursor.placesOfMembers subject document container trail rest) :
    ¬ a.Encloses b ∧ ¬ b.Encloses a := by
  have ha' := prefix_of_mem_placesFrom_cons ha
  obtain ⟨other, hother, hb'⟩ := prefix_of_mem_placesOfMembers hb
  have hne : name ≠ other := fun h => hname (h ▸ hother)
  exact ⟨not_encloses_of_ne hne ha' hb', not_encloses_of_ne hne.symm hb' ha'⟩

/-- No place comes before one that encloses it. -/
def ContainersFirst (cursors : List Cursor) : Prop := cursors.Pairwise fun a b => ¬ b.Encloses a

theorem containersFirst_placesOfItems {items : List Json}
    (h : ∀ item ∈ items, ∀ trail, ContainersFirst (Cursor.placesFrom subject document trail item))
    (index : Nat) :
    ContainersFirst (Cursor.placesOfItems subject document container trail index items) := by
  induction items generalizing index with
  | nil => exact List.Pairwise.nil
  | cons item rest ih =>
    obtain ⟨hitem, hrest⟩ := List.forall_mem_cons.1 h
    rw [Cursor.placesOfItems]
    refine List.pairwise_append.2 ⟨hitem _, ih hrest (index + 1), fun a ha b hb => ?_⟩
    exact (beside_placesOfItems ha hb).2

theorem containersFirst_placesOfMembers {members : Members} (hdistinct : (Keyed.keys members).Nodup)
    (h : ∀ entry ∈ members, ∀ trail,
      ContainersFirst (Cursor.placesFrom subject document trail entry.2)) :
    ContainersFirst (Cursor.placesOfMembers subject document container trail members) := by
  induction members with
  | nil => exact List.Pairwise.nil
  | cons entry rest ih =>
    obtain ⟨hentry, hrest⟩ := List.forall_mem_cons.1 h
    obtain ⟨hname, hdistinct⟩ := List.nodup_cons.1 hdistinct
    rw [Cursor.placesOfMembers]
    refine List.pairwise_append.2 ⟨hentry _, ih hdistinct hrest, fun a ha b hb => ?_⟩
    exact (beside_placesOfMembers hname ha hb).2

theorem containersFirst_placesFrom {value : Json} (hformed : value.WellFormed) (trail : Trail) :
    ContainersFirst (Cursor.placesFrom subject document trail value) := by
  induction value using Json.partsInduction generalizing trail with
  | scalar value harr hobj =>
    rw [placesFrom_scalar harr hobj]
    exact List.pairwise_singleton _ _
  | arr items ih =>
    rw [Cursor.placesFrom]
    refine List.pairwise_cons.2 ⟨fun b hb => ?_, ?_⟩
    · obtain ⟨i, _, hbelow⟩ := prefix_of_mem_placesOfItems hb
      exact not_encloses_of_inside rfl hbelow
    · exact containersFirst_placesOfItems
        (fun item hitem => ih item hitem (Json.wellFormed_arr.1 hformed item hitem)) 0
  | obj members ih =>
    obtain ⟨hascending, hmembers⟩ := Json.wellFormed_obj.1 hformed
    rw [Cursor.placesFrom]
    refine List.pairwise_cons.2 ⟨fun b hb => ?_, ?_⟩
    · obtain ⟨name, _, hbelow⟩ := prefix_of_mem_placesOfMembers hb
      exact not_encloses_of_inside rfl hbelow
    · exact containersFirst_placesOfMembers hascending.nodup_keys
        fun entry hentry => ih entry hentry (hmembers entry hentry)

end Order

/-! ### Before and after -/

/-- The first of two cursors stands somewhere before the other one in a list. -/
def StandsBefore (cursors : List Cursor) (b q : Cursor) : Prop := [b, q].Sublist cursors

section StandsBefore

variable {cursors others : List Cursor} {b q : Cursor}

theorem StandsBefore.mem (h : StandsBefore cursors b q) : b ∈ cursors ∧ q ∈ cursors := by
  constructor
  · exact h.subset (by simp)
  · exact h.subset (by simp)

theorem StandsBefore.of_sublist (h : StandsBefore cursors b q) (hsub : cursors.Sublist others) :
    StandsBefore others b q := List.Sublist.trans h hsub

theorem standsBefore_append : StandsBefore (cursors ++ others) b q ↔
    StandsBefore cursors b q ∨ b ∈ cursors ∧ q ∈ others ∨ StandsBefore others b q := by
  constructor
  · intro h
    obtain ⟨left, right, hsplit, hleft, hright⟩ := List.sublist_append_iff.1 h
    match left, hsplit with
    | [], hsplit =>
      have hall : right = [b, q] := by simpa using hsplit.symm
      rw [hall] at hright
      exact Or.inr (Or.inr hright)
    | [first], hsplit =>
      obtain ⟨rfl, rfl⟩ : b = first ∧ [q] = right := by simpa using hsplit
      exact Or.inr (Or.inl ⟨by simpa using hleft, by simpa using hright⟩)
    | [first, second], hsplit =>
      obtain ⟨rfl, rfl, _⟩ : b = first ∧ q = second ∧ [] = right := by simpa using hsplit
      exact Or.inl hleft
    | _ :: _ :: _ :: _, hsplit => simp at hsplit
  · rintro (h | ⟨hb, hq⟩ | h)
    · exact h.of_sublist (List.sublist_append_left cursors others)
    · exact (List.singleton_sublist.2 hb).append (List.singleton_sublist.2 hq)
    · exact h.of_sublist (List.sublist_append_right cursors others)

end StandsBefore

/-! ### The visits of a walk -/

section Visits

variable (rule : Rule) (subject : String) (document : Json)

mutual

/-- The cursors that the walk of a value hands to the rule, where the rule has been handed those of
`seen` before. -/
def visitsFrom (trail : Trail) (seen : List Cursor) : Json → List Cursor
  | .arr items =>
    let c : Cursor := ⟨subject, document, .arr items, trail⟩
    c :: visitsOfItems (.arr items) trail 0 (seen ++ [c]) items
  | .obj members =>
    let c : Cursor := ⟨subject, document, .obj members, trail⟩
    c :: visitsOfMembers (.obj members) trail (seen ++ [c]) members
  | value => [⟨subject, document, value, trail⟩]

def visitsOfItems (container : Json) (trail : Trail) (index : Nat) (seen : List Cursor) :
    List Json → List Cursor
  | [] => []
  | item :: rest =>
    let below : Trail := ⟨container, .index index⟩ :: trail
    let new := if removes (seen.flatMap rule) below.pointer then [] else visitsFrom below seen item
    new ++ visitsOfItems container trail (index + 1) (seen ++ new) rest

def visitsOfMembers (container : Json) (trail : Trail) (seen : List Cursor) :
    List (String × Json) → List Cursor
  | [] => []
  | (name, value) :: rest =>
    let below : Trail := ⟨container, .property name⟩ :: trail
    let new := if removes (seen.flatMap rule) below.pointer then [] else visitsFrom below seen value
    new ++ visitsOfMembers container trail (seen ++ new) rest

end

/-- The cursors that a pass hands to the rule, one after the other. -/
def visits : List Cursor := visitsFrom rule subject document [] [] document

end Visits

section Corrections

variable {rule : Rule} {subject : String} {document : Json}

theorem visitsFrom_scalar {value : Json} (harr : value.isArray = false)
    (hobj : value.isObject = false) (trail : Trail) (seen : List Cursor) :
    visitsFrom rule subject document trail seen value = [⟨subject, document, value, trail⟩] := by
  cases value with
  | arr items => simp [Json.isArray] at harr
  | obj members => simp [Json.isObject] at hobj
  | _ => simp [visitsFrom]

theorem visitItems_flatMap (container : Json) (trail : Trail) {items : List Json}
    (h : ∀ item ∈ items, ∀ (trail : Trail) (seen : List Cursor),
      visit rule subject document trail (seen.flatMap rule) item =
        (seen ++ visitsFrom rule subject document trail seen item).flatMap rule)
    (index : Nat) (seen : List Cursor) :
    visitItems rule subject document container trail index (seen.flatMap rule) items =
      (seen ++ visitsOfItems rule subject document container trail index seen items).flatMap
        rule := by
  induction items generalizing index seen with
  | nil => simp [visitItems, visitsOfItems]
  | cons item rest ih =>
    obtain ⟨hitem, hrest⟩ := List.forall_mem_cons.1 h
    simp only [visitItems, visitsOfItems, ← List.append_assoc]
    rw [← ih hrest]
    split
    · simp
    · rw [hitem]

theorem visitMembers_flatMap (container : Json) (trail : Trail) {members : Members}
    (h : ∀ entry ∈ members, ∀ (trail : Trail) (seen : List Cursor),
      visit rule subject document trail (seen.flatMap rule) entry.2 =
        (seen ++ visitsFrom rule subject document trail seen entry.2).flatMap rule)
    (seen : List Cursor) :
    visitMembers rule subject document container trail (seen.flatMap rule) members =
      (seen ++ visitsOfMembers rule subject document container trail seen members).flatMap
        rule := by
  induction members generalizing seen with
  | nil => simp [visitMembers, visitsOfMembers]
  | cons entry rest ih =>
    obtain ⟨hentry, hrest⟩ := List.forall_mem_cons.1 h
    simp only [visitMembers, visitsOfMembers, ← List.append_assoc]
    rw [← ih hrest]
    split
    · simp
    · rw [hentry]

theorem visit_flatMap (value : Json) (trail : Trail) (seen : List Cursor) :
    visit rule subject document trail (seen.flatMap rule) value =
      (seen ++ visitsFrom rule subject document trail seen value).flatMap rule := by
  induction value using Json.partsInduction generalizing trail seen with
  | scalar value harr hobj => simp [visit_scalar harr hobj, visitsFrom_scalar harr hobj]
  | arr items ih =>
    have hitems := visitItems_flatMap (.arr items) trail ih 0
      (seen ++ [⟨subject, document, .arr items, trail⟩])
    simpa [visit, visitsFrom] using hitems
  | obj members ih =>
    have hmembers := visitMembers_flatMap (.obj members) trail ih
      (seen ++ [⟨subject, document, .obj members, trail⟩])
    simpa [visit, visitsFrom] using hmembers

/-- A pass asks for what the rule asks for at the visits, in their order. -/
theorem pass_eq_flatMap_visits (rule : Rule) (subject : String) (document : Json) :
    pass rule subject document = (visits rule subject document).flatMap rule := by
  have hvisit : visit rule subject document [] ([].flatMap rule) document = _ :=
    visit_flatMap document [] []
  simpa [pass, visits] using hvisit

end Corrections

/-! ### What is passed over -/

/-- One of the visits made before a walk comes to a place of `places`: a visit before the walk, or
one of its `new` visits that stands before the place. -/
def Earlier (seen new places : List Cursor) (q b : Cursor) : Prop :=
  b ∈ seen ∨ b ∈ new ∧ StandsBefore places b q

/-- No visit before a place is come to asks for the removal of the place. -/
def Spared (rule : Rule) (seen new places : List Cursor) (q : Cursor) : Prop :=
  ∀ b, Earlier seen new places q b → removes (rule b) q.pointer = false

/-- A walk of some places makes the visits `new`: those to the places that neither were asked to be
removed before they were come to nor lie inside of such a place. -/
structure Walked (rule : Rule) (places seen new : List Cursor) : Prop where
  sublist : new.Sublist places
  mem_iff : ∀ c ∈ places, c ∈ new ↔ ∀ q ∈ places, q.Encloses c → Spared rule seen new places q

section Walked

variable {rule : Rule} {places others seen new more : List Cursor} {q b c : Cursor}

theorem Walked.none : Walked rule [] seen [] where
  sublist := List.Sublist.slnil
  mem_iff c hc := by simp at hc

/-- A place that is come to is visited. -/
theorem Walked.here (h : ∀ b ∈ seen, removes (rule b) c.pointer = false) :
    Walked rule [c] seen [c] where
  sublist := List.Sublist.refl [c]
  mem_iff d hd := by
    obtain rfl := List.mem_singleton.1 hd
    refine iff_of_true hd fun q hq _ b hb => ?_
    obtain rfl := List.mem_singleton.1 hq
    cases hb with
    | inl hseen => exact h b hseen
    | inr hnew => simpa [StandsBefore] using hnew.2.length_le

/-- A place that is to be removed is passed over with all that lies inside of it. -/
theorem Walked.passedOver (hq : q ∈ places) (h : ∀ c ∈ places, q.Encloses c) (hb : b ∈ seen)
    (hremoved : removes (rule b) q.pointer = true) : Walked rule places seen [] where
  sublist := List.nil_sublist places
  mem_iff c hc := by
    refine iff_of_false List.not_mem_nil fun hspared => ?_
    have hkept := hspared q hq (h c hc) b (Or.inl hb)
    simp [hremoved] at hkept

/-! One walk after another one, where no place of the second one encloses one of the first. -/

variable (hnew : new ⊆ places) (hmore : more ⊆ others)
  (hbehind : ∀ a ∈ places, ∀ b ∈ others, ¬ b.Encloses a)

include hbehind in
theorem not_mem_of_behind (hq : q ∈ places) : q ∉ others :=
  fun hq' => hbehind q hq q hq' (.refl q)

include hmore hbehind in
theorem earlier_left (hq : q ∈ places) :
    Earlier seen (new ++ more) (places ++ others) q b ↔ Earlier seen new places q b := by
  have hq' := not_mem_of_behind hbehind hq
  rw [Earlier, Earlier, List.mem_append, standsBefore_append]
  refine or_congr_right ⟨?_, ?_⟩
  · rintro ⟨hb, horder⟩
    have horder' : StandsBefore places b q := by
      rcases horder with h | h | h
      · exact h
      · exact absurd h.2 hq'
      · exact absurd h.mem.2 hq'
    have hb' := not_mem_of_behind hbehind horder'.mem.1
    exact ⟨hb.resolve_right fun h => hb' (hmore h), horder'⟩
  · rintro ⟨hb, horder⟩
    exact ⟨Or.inl hb, Or.inl horder⟩

include hnew hmore hbehind in
theorem earlier_right (hq : q ∈ others) :
    Earlier seen (new ++ more) (places ++ others) q b ↔ Earlier (seen ++ new) more others q b := by
  have hq' : q ∉ places := fun h => not_mem_of_behind hbehind h hq
  rw [Earlier, Earlier, List.mem_append, List.mem_append, standsBefore_append, or_assoc]
  refine or_congr_right ⟨?_, ?_⟩
  · rintro ⟨hb | hb, horder⟩
    · exact Or.inl hb
    · rcases horder with h | h | h
      · exact absurd h.mem.2 hq'
      · exact absurd (hmore hb) (not_mem_of_behind hbehind h.1)
      · exact Or.inr ⟨hb, h⟩
  · rintro (hb | ⟨hb, horder⟩)
    · exact ⟨Or.inl hb, Or.inr (Or.inl ⟨hnew hb, hq⟩)⟩
    · exact ⟨Or.inr hb, Or.inr (Or.inr horder)⟩

/-- A second walk follows the first one, and it goes to places inside of what the first one visited
or to places apart from it. -/
theorem Walked.append (h : Walked rule places seen new) (h' : Walked rule others (seen ++ new) more)
    (hbehind : ∀ a ∈ places, ∀ b ∈ others, ¬ b.Encloses a)
    (hopen : ∀ a ∈ places, ∀ b ∈ others, a.Encloses b → a ∈ new) :
    Walked rule (places ++ others) seen (new ++ more) := by
  have hnew := h.sublist.subset
  have hmore := h'.sublist.subset
  have hleft : ∀ q ∈ places, Spared rule seen (new ++ more) (places ++ others) q ↔
      Spared rule seen new places q :=
    fun q hq => forall_congr' fun b => imp_congr_left (earlier_left hmore hbehind hq)
  have hright : ∀ q ∈ others, Spared rule seen (new ++ more) (places ++ others) q ↔
      Spared rule (seen ++ new) more others q :=
    fun q hq => forall_congr' fun b => imp_congr_left (earlier_right hnew hmore hbehind hq)
  refine ⟨h.sublist.append h'.sublist, fun c hc => ?_⟩
  rw [List.forall_mem_append, List.mem_append]
  cases List.mem_append.1 hc with
  | inl hc =>
    have hmem : c ∈ new ∨ c ∈ more ↔ c ∈ new :=
      or_iff_left fun hc' => not_mem_of_behind hbehind hc (hmore hc')
    rw [hmem, h.mem_iff c hc]
    constructor
    · intro hspared
      exact ⟨fun q hq hqc => (hleft q hq).2 (hspared q hq hqc),
        fun q hq hqc => absurd hqc (hbehind c hc q hq)⟩
    · rintro ⟨hspared, _⟩ q hq hqc
      exact (hleft q hq).1 (hspared q hq hqc)
  | inr hc =>
    have hmem : c ∈ new ∨ c ∈ more ↔ c ∈ more :=
      or_iff_right fun hc' => not_mem_of_behind hbehind (hnew hc') hc
    rw [hmem, h'.mem_iff c hc]
    constructor
    · intro hspared
      refine ⟨fun q hq hqc => (hleft q hq).2 ?_, fun q hq hqc => (hright q hq).2 (hspared q hq hqc)⟩
      exact (h.mem_iff q hq).1 (hopen q hq c hc hqc) q hq (.refl q)
    · rintro ⟨_, hspared⟩ q hq hqc
      exact (hright q hq).1 (hspared q hq hqc)

end Walked

/-! ### The walk of a value -/

section Values

variable {rule : Rule} {subject : String} {document : Json}

theorem removes_flatMap {seen : List Cursor} {pointer : String} :
    removes (seen.flatMap rule) pointer = true ↔ ∃ b ∈ seen, removes (rule b) pointer = true := by
  simp [removes, List.any_flatMap]

theorem mem_placesFrom_self (value : Json) (trail : Trail) :
    ⟨subject, document, value, trail⟩ ∈ Cursor.placesFrom subject document trail value := by
  cases value <;> simp [Cursor.placesFrom]

/-- The walk of a value goes right where it is not asked to be removed before it is come to. -/
def WalksRight (rule : Rule) (subject : String) (document value : Json) : Prop :=
  ∀ (trail : Trail) (seen : List Cursor), (∀ b ∈ seen, removes (rule b) trail.pointer = false) →
    Walked rule (Cursor.placesFrom subject document trail value) seen
      (visitsFrom rule subject document trail seen value)

theorem WalksRight.unless_removed {value : Json} (h : WalksRight rule subject document value)
    (trail : Trail) (seen : List Cursor) :
    Walked rule (Cursor.placesFrom subject document trail value) seen
      (if removes (seen.flatMap rule) trail.pointer then []
        else visitsFrom rule subject document trail seen value) := by
  split
  · next hremoved =>
    obtain ⟨b, hb, hremoves⟩ := removes_flatMap.1 hremoved
    exact .passedOver (mem_placesFrom_self value trail)
      (fun c hc => tokens_prefix_of_mem_placesFrom hc) hb hremoves
  · next hkept =>
    refine h trail seen fun b hb => ?_
    rw [Bool.eq_false_iff]
    exact fun hremoves => hkept (removes_flatMap.2 ⟨b, hb, hremoves⟩)

theorem walked_visitsOfItems (container : Json) (trail : Trail) {items : List Json}
    (h : ∀ item ∈ items, WalksRight rule subject document item) (index : Nat) (seen : List Cursor) :
    Walked rule (Cursor.placesOfItems subject document container trail index items) seen
      (visitsOfItems rule subject document container trail index seen items) := by
  induction items generalizing index seen with
  | nil => exact .none
  | cons item rest ih =>
    obtain ⟨hitem, hrest⟩ := List.forall_mem_cons.1 h
    rw [Cursor.placesOfItems, visitsOfItems]
    apply (hitem.unless_removed _ seen).append (ih hrest (index + 1) _)
    · intro a ha b hb
      exact (beside_placesOfItems ha hb).2
    · intro a ha b hb hencloses
      exact absurd hencloses (beside_placesOfItems ha hb).1

theorem walked_visitsOfMembers (container : Json) (trail : Trail) {members : Members}
    (hdistinct : (Keyed.keys members).Nodup)
    (h : ∀ entry ∈ members, WalksRight rule subject document entry.2) (seen : List Cursor) :
    Walked rule (Cursor.placesOfMembers subject document container trail members) seen
      (visitsOfMembers rule subject document container trail seen members) := by
  induction members generalizing seen with
  | nil => exact .none
  | cons entry rest ih =>
    obtain ⟨hentry, hrest⟩ := List.forall_mem_cons.1 h
    obtain ⟨hname, hdistinct⟩ := List.nodup_cons.1 hdistinct
    rw [Cursor.placesOfMembers, visitsOfMembers]
    apply (hentry.unless_removed _ seen).append (ih hdistinct hrest _)
    · intro a ha b hb
      exact (beside_placesOfMembers hname ha hb).2
    · intro a ha b hb hencloses
      exact absurd hencloses (beside_placesOfMembers hname ha hb).1

theorem walksRight (rule : Rule) (subject : String) (document : Json) {value : Json}
    (hformed : value.WellFormed) : WalksRight rule subject document value := by
  induction value using Json.partsInduction with
  | scalar value harr hobj =>
    intro trail seen hseen
    rw [placesFrom_scalar harr hobj, visitsFrom_scalar harr hobj]
    exact .here hseen
  | arr items ih =>
    intro trail seen hseen
    have hitems : ∀ item ∈ items, WalksRight rule subject document item :=
      fun item hitem => ih item hitem (Json.wellFormed_arr.1 hformed item hitem)
    rw [Cursor.placesFrom, visitsFrom]
    apply (Walked.here hseen).append (walked_visitsOfItems (.arr items) trail hitems 0 _)
    · intro a ha b hb
      obtain ⟨i, _, hbelow⟩ := prefix_of_mem_placesOfItems hb
      exact not_encloses_of_inside (congrArg Cursor.trail (List.mem_singleton.1 ha)) hbelow
    · intro a ha _ _ _
      exact ha
  | obj members ih =>
    intro trail seen hseen
    obtain ⟨hascending, hmembers⟩ := Json.wellFormed_obj.1 hformed
    have hvalues : ∀ entry ∈ members, WalksRight rule subject document entry.2 :=
      fun entry hentry => ih entry hentry (hmembers entry hentry)
    rw [Cursor.placesFrom, visitsFrom]
    apply (Walked.here hseen).append
      (walked_visitsOfMembers (.obj members) trail hascending.nodup_keys hvalues _)
    · intro a ha b hb
      obtain ⟨name, _, hinside⟩ := prefix_of_mem_placesOfMembers hb
      exact not_encloses_of_inside (congrArg Cursor.trail (List.mem_singleton.1 ha)) hinside
    · intro a ha _ _ _
      exact ha

end Values

/-! ### A pass -/

section Pass

variable {rule : Rule} {subject : String} {document : Json} {q b c : Cursor}

theorem walked_visits (rule : Rule) (subject : String) (hformed : document.WellFormed) :
    Walked rule (Cursor.places subject document) [] (visits rule subject document) :=
  walksRight rule subject document hformed [] [] (by simp)

theorem mem_visits_iff (hformed : document.WellFormed) (hc : c ∈ Cursor.places subject document) :
    c ∈ visits rule subject document ↔ ∀ q ∈ Cursor.places subject document, q.Encloses c →
      ∀ b ∈ visits rule subject document, StandsBefore (Cursor.places subject document) b q →
        removes (rule b) q.pointer = false := by
  rw [(walked_visits rule subject hformed).mem_iff c hc]
  simp [Spared, Earlier]

/-- What encloses a visited place has been visited. -/
theorem mem_visits_of_encloses (hformed : document.WellFormed)
    (hq : q ∈ Cursor.places subject document) (hc : c ∈ visits rule subject document)
    (h : q.Encloses c) : q ∈ visits rule subject document := by
  have hplace := (walked_visits rule subject hformed).sublist.subset hc
  have hspared := (mem_visits_iff hformed hplace).1 hc
  exact (mem_visits_iff hformed hq).2 fun p hp hpq => hspared p hp (hpq.trans h)

/-- A place that is asked to be removed before it is come to is not entered any more. -/
theorem not_encloses_of_requested (hformed : document.WellFormed) {earlier later : List Cursor}
    (hvisits : visits rule subject document = earlier ++ b :: later)
    (hq : q ∈ Cursor.places subject document) (hremoved : removes (rule b) q.pointer = true)
    (hahead : q ∉ earlier ++ [b]) (hc : c ∈ later) : ¬ q.Encloses c := by
  intro hencloses
  have hb : b ∈ visits rule subject document := by simp [hvisits]
  have hc' : c ∈ visits rule subject document := by simp [hvisits, hc]
  have hplace := (walked_visits rule subject hformed).sublist.subset hc'
  have hlater : q ∈ later := by
    have hq' := mem_visits_of_encloses hformed hq hc' hencloses
    rw [hvisits, List.append_cons, List.mem_append] at hq'
    exact hq'.resolve_left hahead
  have horder : StandsBefore (visits rule subject document) b q := by
    rw [hvisits, standsBefore_append]
    exact Or.inr (Or.inr ((List.singleton_sublist.2 hlater).cons_cons b))
  have hkept := (mem_visits_iff hformed hplace).1 hc' q hq hencloses b hb
    (horder.of_sublist (walked_visits rule subject hformed).sublist)
  simp [hremoved] at hkept

/-- What the removals that are asked for in a pass mean to the pass itself. A place is visited if no
visit before it has asked to remove it or a place that encloses it. So a place is not entered once
it has been asked to be removed, but a request that comes when the place is being visited already,
from the place itself or from inside of it, is not noticed. -/
structure RemovalsAhead (rule : Rule) (subject : String) (document : Json) : Prop where
  inOrder : (visits rule subject document).Sublist (Cursor.places subject document)
  asked : pass rule subject document = (visits rule subject document).flatMap rule
  visited : ∀ c ∈ Cursor.places subject document, c ∈ visits rule subject document ↔
    ∀ q ∈ Cursor.places subject document, q.Encloses c → ∀ b ∈ visits rule subject document,
      StandsBefore (Cursor.places subject document) b q → removes (rule b) q.pointer = false
  notEntered : ∀ earlier b later, visits rule subject document = earlier ++ b :: later →
    ∀ q ∈ Cursor.places subject document, removes (rule b) q.pointer = true →
      q ∉ earlier ++ [b] → ∀ c ∈ later, ¬ q.Encloses c

/-- Every pass obeys the removals that are asked for ahead of it, and only these. -/
theorem removalsAhead (rule : Rule) (subject : String) (hformed : document.WellFormed) :
    RemovalsAhead rule subject document where
  inOrder := (walked_visits rule subject hformed).sublist
  asked := pass_eq_flatMap_visits rule subject document
  visited _ hc := mem_visits_iff hformed hc
  notEntered _ _ _ hvisits _ hq hremoved hahead _ hc :=
    not_encloses_of_requested hformed hvisits hq hremoved hahead hc

/-- The rule that asks for the removal of the place `/a` at this place. -/
def removingItself : Rule := (Recipe.when [.pointer "/a"] [(.remove, "gone")] []).rule

def nestedOnce : Json := .obj [("a", .obj [("b", .nat 1)])]

/-- The member of the object that removes itself is visited all the same. -/
theorem removalsAhead_removingItself :
    nestedOnce.WellFormed ∧ RemovalsAhead removingItself "Test" nestedOnce ∧
      (visits removingItself "Test" nestedOnce).map Cursor.pointer = ["", "/a", "/a/b"] ∧
      (pass removingItself "Test" nestedOnce).map Correction.patch = [.remove "/a"] := by
  have hformed : nestedOnce.WellFormed := by
    simp [nestedOnce, Json.WellFormed, Json.MembersWellFormed, Keyed.Ascending, Json.nat]
  exact ⟨hformed, removalsAhead removingItself "Test" hformed, by decide +kernel, rfl⟩

end Pass

end ResourceCatalog
