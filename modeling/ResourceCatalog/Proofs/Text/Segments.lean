import Mathlib
import ResourceCatalog.Text.Split

/-!
# Segments put together

The segments of a text are cut at pairs of colons, and the pairs are taken from the left. Two
segments that follow each other can be put together again with a pair of colons, and the text that
this gives is cut into the same two.
-/

namespace ResourceCatalog.Text

theorem segmentsOf_ne_nil (text : List Char) : segmentsOf text ≠ [] := by
  induction text using segmentsOf.induct with
  | case1 rest ih => exact List.cons_ne_nil _ _
  | case2 c rest hpair hnone ih => exact absurd hnone ih
  | case3 c rest hpair piece pieces hrest ih =>
    rw [segmentsOf.eq_2 c rest hpair, hrest]
    exact List.cons_ne_nil _ _
  | case4 => exact List.cons_ne_nil _ _

/-- A text starts with its first segment, and where others follow, a pair of colons comes next. -/
theorem exists_eq_append {text piece : List Char} {pieces : List (List Char)}
    (h : segmentsOf text = piece :: pieces) : ∃ behind, text = piece ++ behind ∧
      (pieces ≠ [] → ∃ others, behind = ':' :: ':' :: others) := by
  induction text using segmentsOf.induct generalizing piece with
  | case1 rest ih =>
    rw [segmentsOf.eq_1, List.cons.injEq] at h
    exact ⟨':' :: ':' :: rest, by rw [← h.1]; rfl, fun _ => ⟨rest, rfl⟩⟩
  | case2 c rest hpair hnone ih => exact absurd hnone (segmentsOf_ne_nil rest)
  | case3 c rest hpair first others hrest ih =>
    rw [segmentsOf.eq_2 c rest hpair, hrest] at h
    obtain ⟨rfl, rfl⟩ := List.cons.inj h
    obtain ⟨behind, htext, hnext⟩ := ih hrest
    exact ⟨behind, congrArg (c :: ·) htext, hnext⟩
  | case4 =>
    rw [segmentsOf.eq_3, List.cons.injEq] at h
    exact ⟨[], by rw [← h.1]; rfl, fun hne => absurd h.2.symm hne⟩

/-- A segment is not cut again. -/
theorem segmentsOf_segment {text piece : List Char} (h : piece ∈ segmentsOf text) :
    segmentsOf piece = [piece] := by
  induction text using segmentsOf.induct generalizing piece with
  | case1 rest ih =>
    rw [segmentsOf.eq_1, List.mem_cons] at h
    rcases h with rfl | h
    · rfl
    · exact ih h
  | case2 c rest hpair hnone ih => exact absurd hnone (segmentsOf_ne_nil rest)
  | case3 c rest hpair first others hrest ih =>
    rw [segmentsOf.eq_2 c rest hpair, hrest, List.mem_cons] at h
    rcases h with rfl | h
    · have hfirst : first ∈ segmentsOf rest := hrest ▸ List.mem_cons_self
      obtain ⟨behind, htext, -⟩ := exists_eq_append hrest
      rw [segmentsOf.eq_2 c first fun later hc hlater => hpair (later ++ behind) hc (by
        rw [htext, hlater]; rfl), ih hfirst]
    · exact ih (hrest ▸ List.mem_cons_of_mem _ h)
  | case4 =>
    rw [segmentsOf.eq_3, List.mem_singleton] at h
    rw [h]
    rfl

/-- A segment that others follow can be put before any text with a pair of colons. -/
theorem segmentsOf_append {text piece next : List Char} {pieces : List (List Char)}
    (h : segmentsOf text = piece :: next :: pieces) (behind : List Char) :
    segmentsOf (piece ++ ':' :: ':' :: behind) = piece :: segmentsOf behind := by
  induction text using segmentsOf.induct generalizing piece with
  | case1 rest ih =>
    rw [segmentsOf.eq_1, List.cons.injEq] at h
    rw [← h.1]
    exact segmentsOf.eq_1 behind
  | case2 c rest hpair hnone ih => exact absurd hnone (segmentsOf_ne_nil rest)
  | case3 c rest hpair first others hrest ih =>
    rw [segmentsOf.eq_2 c rest hpair, hrest] at h
    obtain ⟨rfl, rfl⟩ := List.cons.inj h
    -- a pair that is taken earlier than before would have been taken in the text as well
    have hkept : ∀ later, c = ':' → first ++ ':' :: ':' :: behind = ':' :: later → False := by
      intro later hc hlater
      obtain ⟨after, htext, hnext⟩ := exists_eq_append hrest
      obtain ⟨others, rfl⟩ := hnext (List.cons_ne_nil _ _)
      cases first with
      | nil => exact hpair (':' :: others) hc htext
      | cons x first =>
        obtain ⟨rfl, -⟩ := List.cons.inj hlater
        exact hpair _ hc htext
    rw [List.cons_append, segmentsOf.eq_2 c _ hkept, ih hrest]
  | case4 => cases h

/-- Two segments that follow each other, put together, are cut apart again. -/
theorem segments_join {name first second : String} {rest : List String}
    (h : segments name = first :: second :: rest) :
    segments s!"{first}::{second}" = [first, second] := by
  obtain ⟨piece, pieces, hpieces, rfl, hrest⟩ := List.map_eq_cons_iff.1 h
  obtain ⟨next, others, rfl, rfl, rfl⟩ := List.map_eq_cons_iff.1 hrest
  have hmem : next ∈ segmentsOf name.toList := by
    rw [hpieces]
    exact List.mem_cons_of_mem _ List.mem_cons_self
  have htext : (s!"{String.ofList piece}::{String.ofList next}").toList =
      piece ++ ':' :: ':' :: next := by
    change (String.ofList piece ++ "::" ++ String.ofList next).toList = _
    simp only [String.toList_append, String.toList_ofList, List.append_assoc]
    rfl
  rw [segments, htext, segmentsOf_append hpieces, segmentsOf_segment hmem]
  rfl

end ResourceCatalog.Text
