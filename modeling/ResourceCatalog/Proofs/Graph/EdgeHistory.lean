import Mathlib
import ResourceCatalog.Proofs.Graph.Edges

/-!
# Relationships over time

A relationship begins without edges or with the edges of some lists, then edges are added and those
that leave an entity are removed, in any order. Which edges there are is told by these steps alone:
the ones that were added since the edges of their start were last removed, each of them once, where
it was first added. After any history a relationship presents exactly these edges, from both of
their ends and by their number.
-/

namespace ResourceCatalog

variable {α : Type}

/-- A directed edge with both of its ends. -/
structure Arrow (α : Type) where
  start : Identity
  target : Identity
  attributes : α
  deriving DecidableEq, Repr

namespace Arrow

/-- The edge as it is kept with its start. -/
def forward (arrow : Arrow α) : Edge α := ⟨arrow.target, arrow.attributes⟩

/-- The edge as it is kept with its target. -/
def backward (arrow : Arrow α) : Edge α := ⟨arrow.start, arrow.attributes⟩

theorem forward_eq_iff {arrow : Arrow α} {start target : Identity} {attributes : α} :
    arrow.start = start ∧ arrow.forward = ⟨target, attributes⟩ ↔
      arrow = ⟨start, target, attributes⟩ := by
  cases arrow
  simp only [forward, Edge.mk.injEq, mk.injEq]

end Arrow

/-- An operation on a relationship. -/
inductive EdgeStep (α : Type) where
  | add (arrow : Arrow α)
  | removeOutgoing (start : Identity)

namespace EdgeStep

/-- All edges that were added since the edges of their start were last removed, as often as they
were added. -/
def added (steps : List (EdgeStep α)) : List (Arrow α) :=
  steps.foldl
    (fun arrows step =>
      match step with
      | add arrow => arrows ++ [arrow]
      | removeOutgoing start => arrows.filter fun arrow => arrow.start ≠ start)
    []

/-- The steps that add the edges of lists by their starts. -/
def ofLists (forward : Adjacency α) : List (EdgeStep α) :=
  forward.flatMap fun entry => entry.2.map fun edge => add ⟨entry.1, edge.id, edge.attributes⟩

variable [DecidableEq α]

/-- The edges that are there after some steps, in the order in which they were first added. -/
def present (steps : List (EdgeStep α)) : List (Arrow α) := (added steps).eraseDups

def apply (edges : Edges α) : EdgeStep α → Edges α
  | add arrow => edges.add arrow.start arrow.target arrow.attributes
  | removeOutgoing start => (edges.removeOutgoing start).2

def run (steps : List (EdgeStep α)) (edges : Edges α) : Edges α := steps.foldl apply edges

/-! ### Which edges there are -/

theorem eraseDups_append_singleton (arrows : List (Arrow α)) (arrow : Arrow α) :
    (arrows ++ [arrow]).eraseDups =
      if arrow ∈ arrows then arrows.eraseDups else arrows.eraseDups ++ [arrow] := by
  rw [List.eraseDups_append]
  split
  · next hmem => simp [List.removeAll, hmem]
  · next hmem => simp [List.removeAll, hmem, List.eraseDups_cons]

theorem eraseDups_filter (keep : Arrow α → Bool) (arrows : List (Arrow α)) :
    (arrows.filter keep).eraseDups = arrows.eraseDups.filter keep := by
  induction arrows using List.reverseRecOn with
  | nil => rfl
  | append_singleton rest arrow ih =>
    rw [List.filter_append, eraseDups_append_singleton]
    cases hkeep : keep arrow with
    | false =>
      rw [List.filter_cons_of_neg (by simp [hkeep]), List.filter_nil, List.append_nil, ih]
      split
      · rfl
      · rw [List.filter_append, List.filter_cons_of_neg (by simp [hkeep]), List.filter_nil,
          List.append_nil]
    | true =>
      rw [List.filter_cons_of_pos hkeep, List.filter_nil, eraseDups_append_singleton, ih]
      simp only [List.mem_filter, hkeep, and_true]
      split
      · rfl
      · rw [List.filter_append, List.filter_cons_of_pos hkeep, List.filter_nil]

theorem present_add (steps : List (EdgeStep α)) (arrow : Arrow α) :
    present (steps ++ [add arrow]) =
      if arrow ∈ present steps then present steps else present steps ++ [arrow] := by
  have hadded : added (steps ++ [add arrow]) = added steps ++ [arrow] := by
    rw [added, List.foldl_append]
    rfl
  simp only [present, hadded, eraseDups_append_singleton, List.mem_eraseDups]

theorem present_removeOutgoing (steps : List (EdgeStep α)) (start : Identity) :
    present (steps ++ [removeOutgoing start]) =
      (present steps).filter fun arrow => arrow.start ≠ start := by
  have hadded : added (steps ++ [removeOutgoing start]) =
      (added steps).filter fun arrow => arrow.start ≠ start := by
    rw [added, List.foldl_append]
    rfl
  rw [present, hadded, eraseDups_filter, present]

theorem nodup_present (steps : List (EdgeStep α)) : (present steps).Nodup := by
  induction steps using List.reverseRecOn with
  | nil => exact List.nodup_nil
  | append_singleton steps step ih =>
    cases step with
    | add arrow =>
      rw [present_add]
      split
      · exact ih
      · next hmem =>
        exact List.nodup_append.2 ⟨ih, List.nodup_singleton _, fun a ha b hb hab =>
          hmem (List.mem_singleton.1 hb ▸ hab ▸ ha)⟩
    | removeOutgoing start =>
      rw [present_removeOutgoing]
      exact ih.filter _

end EdgeStep

namespace Edges

/-- The relationship shows exactly these edges, in all the ways in which it can be asked. -/
structure Presents [DecidableEq α] (edges : Edges α) (arrows : List (Arrow α)) : Prop where
  distinct : arrows.Nodup
  outgoing : ∀ start, edges.outgoing start =
    (arrows.filter fun arrow => arrow.start = start).map Arrow.forward
  ascending : ∀ target, Ascending (edges.incoming target)
  incoming : ∀ start target, (edges.incoming target).filter (fun edge => edge.id = start) =
    (arrows.filter fun arrow => arrow.start = start ∧ arrow.target = target).map Arrow.backward
  size : edges.size = arrows.length
  isEmpty : edges.isEmpty = arrows.isEmpty

variable [DecidableEq α] {edges : Edges α} {arrows : List (Arrow α)}

/-- The edges seen from their starts, and their number, are all there is to a coherent relationship. -/
theorem Coherent.presents (h : edges.Coherent) (hdistinct : arrows.Nodup)
    (houtgoing : ∀ start, edges.outgoing start =
      (arrows.filter fun arrow => arrow.start = start).map Arrow.forward)
    (hsize : edges.size = arrows.length) : edges.Presents arrows where
  distinct := hdistinct
  outgoing := houtgoing
  ascending := h.ascending
  incoming := by
    intro start target
    have hboth : (arrows.filter fun arrow => arrow.start = start ∧ arrow.target = target) =
        (arrows.filter fun arrow => arrow.start = start).filter
          ((fun edge : Edge α => decide (edge.id = target)) ∘ Arrow.forward) := by
      rw [List.filter_filter]
      refine List.filter_congr fun arrow _ => ?_
      rw [Bool.and_comm, Bool.decide_and]
      rfl
    rw [h.sameOrder, houtgoing, List.filter_map, List.map_map, ← hboth]
    refine List.map_congr_left fun arrow harrow => ?_
    have hstart := (of_decide_eq_true (List.mem_filter.1 harrow).2).1
    exact congrArg (fun start => Edge.mk start arrow.attributes) hstart.symm
  size := hsize
  isEmpty := by
    rw [isEmpty, hsize, Bool.eq_iff_iff, beq_iff_eq, List.isEmpty_iff, List.length_eq_zero_iff]

theorem Presents.mem_outgoing_iff (h : edges.Presents arrows) {start target : Identity}
    {attributes : α} :
    ⟨target, attributes⟩ ∈ edges.outgoing start ↔ ⟨start, target, attributes⟩ ∈ arrows := by
  rw [h.outgoing, List.mem_map]
  constructor
  · rintro ⟨arrow, harrow, heq⟩
    obtain ⟨hmem, hstart⟩ := List.mem_filter.1 harrow
    exact Arrow.forward_eq_iff.1 ⟨of_decide_eq_true hstart, heq⟩ ▸ hmem
  · exact fun hmem => ⟨_, List.mem_filter.2 ⟨hmem, decide_eq_true rfl⟩, rfl⟩

end Edges

namespace EdgeStep

variable [DecidableEq α]

theorem run_ofLists (forward : Adjacency α) :
    run (ofLists forward) Edges.empty = Edges.ofForward forward := by
  rw [run, ofLists, List.foldl_flatMap, Edges.ofForward]
  congr 1
  funext edges entry
  rw [List.foldl_map]
  rfl

theorem coherent_apply {edges : Edges α} (h : edges.Coherent) (step : EdgeStep α) :
    (apply edges step).Coherent := by
  cases step with
  | add arrow => exact h.add _ _ _
  | removeOutgoing start => exact h.removeOutgoing start

theorem coherent_run {edges : Edges α} (h : edges.Coherent) (steps : List (EdgeStep α)) :
    (run steps edges).Coherent := by
  induction steps generalizing edges with
  | nil => exact h
  | cons step rest ih => exact ih (coherent_apply h step)

/-- What a step makes of the edges that a relationship presents. -/
theorem presents_apply {edges : Edges α} (h : edges.Coherent) {steps : List (EdgeStep α)}
    (hpresents : edges.Presents (present steps)) (step : EdgeStep α) :
    (apply edges step).Presents (present (steps ++ [step])) := by
  refine (coherent_apply h step).presents (nodup_present _) ?_ ?_
  · intro other
    cases step with
    | add arrow =>
      rw [apply, Edges.outgoing_add h.forward, present_add]
      simp only [hpresents.mem_outgoing_iff]
      by_cases hmem : arrow ∈ present steps
      · rw [if_neg fun hc => hc.2 hmem, if_pos hmem, hpresents.outgoing]
      · rw [if_neg hmem, List.filter_append, List.map_append, ← hpresents.outgoing]
        by_cases hother : other = arrow.start
        · rw [if_pos ⟨hother, hmem⟩, hother, List.filter_cons_of_pos (by simp)]
          rfl
        · rw [if_neg fun hc => hother hc.1, List.filter_cons_of_neg (by simp [Ne.symm hother]),
            List.filter_nil, List.map_nil, List.append_nil]
    | removeOutgoing start =>
      rw [apply, Edges.outgoing_removeOutgoing h.forward, present_removeOutgoing,
        List.filter_filter]
      by_cases hother : other = start
      · rw [if_pos hother, List.filter_eq_nil_iff.2, List.map_nil]
        intro arrow _ hc
        rw [Bool.and_eq_true, decide_eq_true_eq, decide_eq_true_eq, hother] at hc
        exact hc.2 hc.1
      · rw [if_neg hother, hpresents.outgoing]
        refine congrArg (List.map Arrow.forward) (List.filter_congr fun arrow _ => ?_)
        rw [Bool.eq_iff_iff, Bool.and_eq_true, decide_eq_true_eq, decide_eq_true_eq]
        exact ⟨fun hc => ⟨hc, hc ▸ hother⟩, fun hc => hc.1⟩
  · have hsize := hpresents.size
    cases step with
    | add arrow =>
      rw [apply, present_add]
      by_cases hmem : arrow ∈ present steps
      · rw [Edges.add_of_mem (hpresents.mem_outgoing_iff.2 hmem), if_pos hmem, hsize]
      · rw [Edges.add_of_not_mem fun hc => hmem (hpresents.mem_outgoing_iff.1 hc), if_neg hmem,
          List.length_append, ← hsize]
        rfl
    | removeOutgoing start =>
      have hparts := (present steps).length_eq_countP_add_countP fun arrow => arrow.start = start
      have hremoved : (edges.outgoing start).length =
          (present steps).countP fun arrow => arrow.start = start := by
        rw [hpresents.outgoing, List.length_map, List.countP_eq_length_filter]
      have hkept : ((present steps).filter fun arrow => arrow.start ≠ start).length =
          (present steps).countP fun arrow => ¬ decide (arrow.start = start) = true := by
        simp only [List.countP_eq_length_filter, ne_eq, decide_eq_true_eq]
      change edges.size - (edges.outgoing start).length = _
      rw [present_removeOutgoing, hkept, hsize, hremoved]
      omega

theorem presents_run_empty (steps : List (EdgeStep α)) :
    (run steps Edges.empty).Presents (present steps) := by
  induction steps using List.reverseRecOn with
  | nil => exact Edges.coherent_empty.presents List.nodup_nil (fun _ => rfl) rfl
  | append_singleton steps step ih =>
    rw [run, List.foldl_append]
    exact presents_apply (coherent_run Edges.coherent_empty steps) ih step

/-- After any steps a relationship presents the edges that were added since the edges of their start
were last removed. From there an edge is added exactly if it is not there, and removing the edges of
an entity returns exactly these and leaves those of all others as they were, from both ends. -/
theorem presents_history (forward : Adjacency α) (steps : List (EdgeStep α)) :
    let edges := run steps (Edges.ofForward forward)
    let arrows := present (ofLists forward ++ steps)
    edges.Presents arrows ∧
      (∀ start target attributes, (edges.add? start target attributes).isSome = true ↔
        ⟨start, target, attributes⟩ ∉ arrows) ∧
      ∀ start, (edges.removeOutgoing start).1 =
          (arrows.filter fun arrow => arrow.start = start).map Arrow.forward ∧
        (∀ other ≠ start, (edges.removeOutgoing start).2.outgoing other = edges.outgoing other) ∧
        ∀ target, (edges.removeOutgoing start).2.incoming target =
          (edges.incoming target).filter fun edge => edge.id ≠ start := by
  intro edges arrows
  have hrun : edges = run (ofLists forward ++ steps) Edges.empty := by
    rw [run, List.foldl_append]
    exact congrArg (run steps) (run_ofLists forward).symm
  have hcoherent : edges.Coherent := hrun ▸ coherent_run Edges.coherent_empty _
  have hpresents : edges.Presents arrows := hrun ▸ presents_run_empty _
  refine ⟨hpresents, fun start target attributes => ?_, fun start =>
    ⟨hpresents.outgoing start, fun other hother => ?_, hcoherent.incoming_removeOutgoing start⟩⟩
  · rw [Option.isSome_iff_ne_none, Ne, Edges.add?_eq_none_iff, hpresents.mem_outgoing_iff]
  · rw [Edges.outgoing_removeOutgoing hcoherent.forward, if_neg hother]

end EdgeStep

end ResourceCatalog
