import Mathlib
import ResourceCatalog.Proofs.Patch.Requests

/-!
# What the walk shows to a rule

Whatever a pass asks for, the rule has asked for at a place of the document. Places inside of what
is to be removed are not shown, but a pass that asks for nothing has removed nothing, so it has shown
the rule every place there is.
-/

namespace ResourceCatalog

variable {rule : Rule} {subject : String} {document : Json}

/-! ### A part of the walk -/

/-- What a part of the walk makes of the corrections, where the places it comes to are among some
cursors. -/
structure Shown (rule : Rule) (cursors : List Cursor) (made after : List Correction) : Prop where
  asked : ∀ x ∈ after, x ∈ made ∨ ∃ c ∈ cursors, x ∈ rule c
  kept : after = [] → made = []
  all : after = [] → ∀ c ∈ cursors, rule c = []

theorem Shown.here (rule : Rule) (c : Cursor) (made : List Correction) :
    Shown rule [c] made (made ++ rule c) where
  asked x hx := by simpa using List.mem_append.1 hx
  kept h := (List.append_eq_nil_iff.1 h).1
  all h := by simpa using (List.append_eq_nil_iff.1 h).2

theorem Shown.none (made : List Correction) : Shown rule [] made made where
  asked _ hx := Or.inl hx
  kept h := h
  all _ _ hc := absurd hc List.not_mem_nil

/-- Places that are passed over have something to be removed above them. -/
theorem Shown.passedOver {made : List Correction} (h : made ≠ []) (cursors : List Cursor) :
    Shown rule cursors made made where
  asked _ hx := Or.inl hx
  kept hnone := hnone
  all hnone := absurd hnone h

theorem Shown.append {cursors others : List Cursor} {made middle after : List Correction}
    (h : Shown rule cursors made middle) (h' : Shown rule others middle after) :
    Shown rule (cursors ++ others) made after where
  asked x hx := by
    rcases h'.asked x hx with hmiddle | ⟨c, hc, hrule⟩
    · refine (h.asked x hmiddle).imp_right fun ⟨c, hc, hrule⟩ => ?_
      exact ⟨c, List.mem_append_left _ hc, hrule⟩
    · exact Or.inr ⟨c, List.mem_append_right _ hc, hrule⟩
  kept hnone := h.kept (h'.kept hnone)
  all hnone := by
    rw [List.forall_mem_append]
    exact ⟨h.all (h'.kept hnone), h'.all hnone⟩

theorem ne_nil_of_removes {made : List Correction} {pointer : String}
    (h : removes made pointer = true) : made ≠ [] := by
  rintro rfl
  cases h

/-! ### The walk -/

/-- The walk of a value that may be passed over. -/
theorem shown_unless_removed {cursors : List Cursor} {made after : List Correction}
    (h : Shown rule cursors made after) (pointer : String) :
    Shown rule cursors made (if removes made pointer then made else after) := by
  split
  · next hremoved => exact .passedOver (ne_nil_of_removes hremoved) cursors
  · exact h

theorem placesFrom_scalar {value : Json} (harr : value.isArray = false)
    (hobj : value.isObject = false) (trail : Trail) :
    Cursor.placesFrom subject document trail value = [⟨subject, document, value, trail⟩] := by
  cases value with
  | arr items => cases harr
  | obj members => cases hobj
  | _ => rfl

theorem shown_visitItems (container : Json) (trail : Trail) {items : List Json}
    (h : ∀ item ∈ items, ∀ (trail : Trail) (made : List Correction),
      Shown rule (Cursor.placesFrom subject document trail item) made
        (visit rule subject document trail made item)) (index : Nat) (made : List Correction) :
    Shown rule (Cursor.placesOfItems subject document container trail index items) made
      (visitItems rule subject document container trail index made items) := by
  induction items generalizing index made with
  | nil => exact .none made
  | cons item rest ih =>
    obtain ⟨hitem, hrest⟩ := List.forall_mem_cons.1 h
    rw [Cursor.placesOfItems, visitItems]
    exact (shown_unless_removed (hitem _ made) _).append (ih hrest (index + 1) _)

theorem shown_visitMembers (container : Json) (trail : Trail) {members : Members}
    (h : ∀ entry ∈ members, ∀ (trail : Trail) (made : List Correction),
      Shown rule (Cursor.placesFrom subject document trail entry.2) made
        (visit rule subject document trail made entry.2)) (made : List Correction) :
    Shown rule (Cursor.placesOfMembers subject document container trail members) made
      (visitMembers rule subject document container trail made members) := by
  induction members generalizing made with
  | nil => exact .none made
  | cons entry rest ih =>
    obtain ⟨hentry, hrest⟩ := List.forall_mem_cons.1 h
    rw [Cursor.placesOfMembers, visitMembers]
    exact (shown_unless_removed (hentry _ made) _).append (ih hrest _)

theorem shown_visit (value : Json) (trail : Trail) (made : List Correction) :
    Shown rule (Cursor.placesFrom subject document trail value) made
      (visit rule subject document trail made value) := by
  induction value using Json.partsInduction generalizing trail made with
  | scalar value harr hobj =>
    rw [placesFrom_scalar harr hobj, visit_scalar harr hobj]
    exact .here rule _ made
  | arr items ih =>
    rw [Cursor.placesFrom, visit]
    exact (Shown.here rule _ made).append (shown_visitItems _ trail ih 0 _)
  | obj members ih =>
    rw [Cursor.placesFrom, visit]
    exact (Shown.here rule _ made).append (shown_visitMembers _ trail ih _)

/-! ### A pass -/

/-- Every correction of a pass has been asked for at a place of the document. -/
theorem exists_place_of_mem_pass {x : Correction} (h : x ∈ pass rule subject document) :
    ∃ c ∈ Cursor.places subject document, x ∈ rule c :=
  ((shown_visit document [] []).asked x h).resolve_left List.not_mem_nil

/-- A pass asks for nothing if the rule asks for nothing anywhere. -/
theorem pass_eq_nil_iff_places : pass rule subject document = [] ↔
    ∀ c ∈ Cursor.places subject document, rule c = [] := by
  refine ⟨(shown_visit document [] []).all, fun hnone => ?_⟩
  rw [List.eq_nil_iff_forall_not_mem]
  intro x hx
  obtain ⟨c, hc, hrule⟩ := exists_place_of_mem_pass hx
  rw [hnone c hc] at hrule
  exact absurd hrule List.not_mem_nil

/-! ### Places of a document -/

theorem exists_members_of_isObject {value : Json} (h : value.isObject = true) :
    ∃ members, value = .obj members := by
  cases value with
  | obj members => exact ⟨members, rfl⟩
  | _ => cases h

theorem mem_placesOfItems {container : Json} {trail : Trail} {index : Nat} {items : List Json}
    {c : Cursor} (h : c ∈ Cursor.placesOfItems subject document container trail index items) :
    ∃ i item, items[i]? = some item ∧
      c ∈ Cursor.placesFrom subject document (⟨container, .index (index + i)⟩ :: trail) item := by
  induction items generalizing index with
  | nil => exact absurd h List.not_mem_nil
  | cons item rest ih =>
    rw [Cursor.placesOfItems, List.mem_append] at h
    rcases h with hhere | hrest
    · exact ⟨0, item, rfl, hhere⟩
    · obtain ⟨i, other, hother, hc⟩ := ih hrest
      refine ⟨i + 1, other, hother, ?_⟩
      rwa [Nat.add_right_comm] at hc

theorem mem_placesOfMembers {container : Json} {trail : Trail} {members : Members} {c : Cursor}
    (h : c ∈ Cursor.placesOfMembers subject document container trail members) :
    ∃ entry ∈ members,
      c ∈ Cursor.placesFrom subject document (⟨container, .property entry.1⟩ :: trail) entry.2 := by
  induction members with
  | nil => exact absurd h List.not_mem_nil
  | cons entry rest ih =>
    rw [Cursor.placesOfMembers, List.mem_append] at h
    rcases h with hhere | hrest
    · exact ⟨entry, List.mem_cons_self, hhere⟩
    · obtain ⟨other, hother, hc⟩ := ih hrest
      exact ⟨other, List.mem_cons_of_mem _ hother, hc⟩

/-- The tokens of a place lead from the value at hand to the value there. -/
theorem exists_tokens_of_mem_placesFrom {value : Json} (hformed : value.WellFormed)
    (hindexable : value.Indexable) {trail : Trail} {c : Cursor}
    (h : c ∈ Cursor.placesFrom subject document trail value) :
    ∃ below, c.trail.tokens = trail.tokens ++ below ∧ value.at? below = some c.value := by
  induction value using Json.partsInduction generalizing trail with
  | scalar value harr hobj =>
    rw [placesFrom_scalar harr hobj, List.mem_singleton] at h
    subst h
    exact ⟨[], (List.append_nil _).symm, rfl⟩
  | arr items ih =>
    rw [Cursor.placesFrom, List.mem_cons] at h
    rcases h with rfl | h
    · exact ⟨[], (List.append_nil _).symm, rfl⟩
    · obtain ⟨i, item, hitem, hc⟩ := mem_placesOfItems h
      obtain ⟨hlength, hitems⟩ := Json.indexable_arr.1 hindexable
      have hmem := List.mem_of_getElem? hitem
      obtain ⟨below, htokens, hat⟩ := ih item hmem (Json.wellFormed_arr.1 hformed item hmem)
        (hitems item hmem) hc
      have hindex : Pointer.index? (toString i) = some i := by
        refine Pointer.index?_toString (lt_of_lt_of_le ?_ hlength)
        exact (List.getElem?_eq_some_iff.1 hitem).1
      refine ⟨toString i :: below, ?_, ?_⟩
      · rw [htokens, Trail.tokens_cons, List.append_assoc, Nat.zero_add]
        rfl
      · rw [Json.at?, Json.child?, hindex, Option.bind_some, hitem]
        exact hat
  | obj members ih =>
    rw [Cursor.placesFrom, List.mem_cons] at h
    rcases h with rfl | h
    · exact ⟨[], (List.append_nil _).symm, rfl⟩
    · obtain ⟨entry, hentry, hc⟩ := mem_placesOfMembers h
      obtain ⟨hascending, hmembers⟩ := Json.wellFormed_obj.1 hformed
      obtain ⟨below, htokens, hat⟩ := ih entry hentry (hmembers entry hentry)
        (Json.indexable_obj.1 hindexable entry hentry) hc
      refine ⟨entry.1 :: below, ?_, ?_⟩
      · rw [htokens, Trail.tokens_cons, List.append_assoc]
        rfl
      · rw [Json.at?, Json.child?, hascending.get?_of_mem hentry]
        exact hat

/-- The tokens of a place of a document lead to the value there. -/
theorem at?_of_mem_places (hformed : document.WellFormed) (hindexable : document.Indexable)
    {c : Cursor} (h : c ∈ Cursor.places subject document) :
    document.at? c.trail.tokens = some c.value := by
  obtain ⟨below, htokens, hat⟩ := exists_tokens_of_mem_placesFrom hformed hindexable h
  rwa [htokens]

end ResourceCatalog
