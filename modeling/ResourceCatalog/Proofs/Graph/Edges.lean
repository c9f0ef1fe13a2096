import Mathlib
import ResourceCatalog.Graph.Edges

/-!
# Edges from both ends

Each end of a relationship keeps lists of edges in the strict order of identities, none of them
empty, so two of them with the same lists are equal. A relationship is coherent when no list repeats
an edge and both ends tell the same edges. Adding an edge and removing those that leave an entity
keep it coherent, and what they do is said of the lists at one identity.
-/

namespace ResourceCatalog

variable {α : Type}

namespace Adjacency

/-- The lists are in the strict order of their identities, and none is empty. -/
structure Ordered (adjacency : Adjacency α) : Prop where
  ascending : adjacency.Pairwise fun a b => a.1.value < b.1.value
  nonempty : ∀ entry ∈ adjacency, entry.2 ≠ []

theorem ordered_nil : Ordered ([] : Adjacency α) :=
  ⟨List.Pairwise.nil, fun _ h => absurd h List.not_mem_nil⟩

theorem Ordered.tail {entry : Identity × List (Edge α)} {rest : Adjacency α}
    (h : Ordered (entry :: rest)) : Ordered rest :=
  ⟨(List.pairwise_cons.1 h.ascending).2, fun e he => h.nonempty e (List.mem_cons_of_mem _ he)⟩

theorem Ordered.head_lt {entry : Identity × List (Edge α)} {rest : Adjacency α}
    (h : Ordered (entry :: rest)) : ∀ e ∈ rest, entry.1.value < e.1.value :=
  (List.pairwise_cons.1 h.ascending).1

theorem get_eq_nil {id : Identity} {adjacency : Adjacency α}
    (h : ∀ entry ∈ adjacency, entry.1 ≠ id) : get id adjacency = [] := by
  induction adjacency with
  | nil => rfl
  | cons entry rest ih =>
    rw [get, if_neg (h entry List.mem_cons_self)]
    exact ih fun e he => h e (List.mem_cons_of_mem _ he)

theorem Ordered.get_eq_nil_of_le {entry : Identity × List (Edge α)} {rest : Adjacency α}
    (h : Ordered (entry :: rest)) {id : Identity} (hid : id.value ≤ entry.1.value) :
    get id rest = [] := by
  refine get_eq_nil fun e he heq => ?_
  have hlt := h.head_lt e he
  rw [heq] at hlt
  exact absurd hlt (not_lt.2 hid)

theorem Ordered.get_eq_of_mem {adjacency : Adjacency α} (h : Ordered adjacency)
    {entry : Identity × List (Edge α)} (hmem : entry ∈ adjacency) :
    get entry.1 adjacency = entry.2 := by
  induction adjacency with
  | nil => exact absurd hmem List.not_mem_nil
  | cons first rest ih =>
    rcases List.mem_cons.1 hmem with rfl | hrest
    · rw [get, if_pos rfl]
    · have hlt := h.head_lt entry hrest
      rw [get, if_neg fun heq => absurd (heq ▸ hlt) (lt_irrefl _)]
      exact ih h.tail hrest

theorem mem_of_get_ne_nil {id : Identity} {adjacency : Adjacency α} (h : get id adjacency ≠ []) :
    (id, get id adjacency) ∈ adjacency := by
  induction adjacency with
  | nil => exact absurd rfl h
  | cons entry rest ih =>
    obtain ⟨other, edges⟩ := entry
    rw [get] at h ⊢
    split at h
    case isTrue heq =>
      rw [if_pos heq, heq]
      exact List.mem_cons_self
    case isFalse hne =>
      rw [if_neg hne]
      exact List.mem_cons_of_mem _ (ih h)

/-- Two ends with the same lists are equal. -/
theorem Ordered.ext {a b : Adjacency α} (ha : Ordered a) (hb : Ordered b)
    (h : ∀ id, get id a = get id b) : a = b := by
  have hsub : ∀ {c d : Adjacency α}, Ordered c → (∀ id, get id c = get id d) →
      ∀ entry ∈ c, entry ∈ d := by
    intro c d hc hcd entry hentry
    have hget := hc.get_eq_of_mem hentry
    have hne : get entry.1 d ≠ [] := by
      rw [← hcd, hget]
      exact hc.nonempty entry hentry
    have hmem := mem_of_get_ne_nil hne
    rwa [← hcd, hget] at hmem
  have hnodup : ∀ {c : Adjacency α}, Ordered c → c.Nodup := fun hc =>
    hc.ascending.imp fun hlt heq => absurd (heq ▸ hlt) (lt_irrefl _)
  have hperm : a.Perm b := (List.perm_ext_iff_of_nodup (hnodup ha) (hnodup hb)).2 fun entry =>
    ⟨hsub ha h entry, hsub hb (fun id => (h id).symm) entry⟩
  exact hperm.eq_of_pairwise (fun _ _ _ _ hlt hgt => absurd hlt (not_lt.2 (le_of_lt hgt)))
    ha.ascending hb.ascending

theorem get_map (change : Edge α → Edge α) (id : Identity) (adjacency : Adjacency α) :
    get id (adjacency.map fun entry => (entry.1, entry.2.map change)) =
      (get id adjacency).map change := by
  induction adjacency with
  | nil => rfl
  | cons entry rest ih =>
    rw [List.map_cons, get, get, ih]
    split <;> rfl

theorem Ordered.map {adjacency : Adjacency α} (h : Ordered adjacency)
    (change : Edge α → Edge α) :
    Ordered (adjacency.map fun entry => (entry.1, entry.2.map change)) where
  ascending := List.Pairwise.map _ (fun _ _ hlt => hlt) h.ascending
  nonempty := by
    intro entry hentry
    obtain ⟨before, hbefore, rfl⟩ := List.mem_map.1 hentry
    exact fun hnil => h.nonempty before hbefore (List.map_eq_nil_iff.1 hnil)

/-- A list stands in front of the others, unless it is empty. -/
def inFront (id : Identity) (edges : List (Edge α)) (rest : Adjacency α) : Adjacency α :=
  if edges.isEmpty then rest else (id, edges) :: rest

section InFront

variable {id : Identity} {edges : List (Edge α)} {rest : Adjacency α}

theorem get_inFront (habsent : get id rest = []) (other : Identity) :
    get other (inFront id edges rest) = if other = id then edges else get other rest := by
  rw [inFront]
  by_cases hother : other = id
  · subst hother
    rw [if_pos rfl]
    split
    · next hempty => rw [habsent, List.isEmpty_iff.1 hempty]
    · rw [get, if_pos rfl]
  · rw [if_neg hother]
    split
    · rfl
    · rw [get, if_neg (Ne.symm hother)]

theorem mem_inFront {entry : Identity × List (Edge α)} (h : entry ∈ inFront id edges rest) :
    entry ∈ rest ∨ entry = (id, edges) ∧ edges ≠ [] := by
  rw [inFront] at h
  split at h
  · exact Or.inl h
  · next hedges =>
    rcases List.mem_cons.1 h with rfl | h
    · exact Or.inr ⟨rfl, fun hnil => hedges (List.isEmpty_iff.2 hnil)⟩
    · exact Or.inl h

theorem ascending_inFront (h : rest.Pairwise fun a b => a.1.value < b.1.value)
    (hhead : ∀ entry ∈ rest, id.value < entry.1.value) :
    (inFront id edges rest).Pairwise fun a b => a.1.value < b.1.value := by
  rw [inFront]
  split
  · exact h
  · exact List.pairwise_cons.2 ⟨hhead, h⟩

theorem length_inFront : ((inFront id edges rest).flatMap Prod.snd).length =
    edges.length + (rest.flatMap Prod.snd).length := by
  rw [inFront]
  split
  · next hempty => rw [List.isEmpty_iff.1 hempty, List.length_nil, Nat.zero_add]
  · rw [List.flatMap_cons, List.length_append]

end InFront

theorem set_nil (id : Identity) (edges : List (Edge α)) : set id edges [] = inFront id edges [] := rfl

theorem set_cons (id other : Identity) (edges present : List (Edge α)) (rest : Adjacency α) :
    set id edges ((other, present) :: rest) =
      if id = other then inFront id edges rest
      else if id.value < other.value then inFront id edges ((other, present) :: rest)
      else (other, present) :: set id edges rest := rfl

theorem get_set {adjacency : Adjacency α} (h : Ordered adjacency) (id other : Identity)
    (edges : List (Edge α)) :
    get other (set id edges adjacency) = if other = id then edges else get other adjacency := by
  induction adjacency with
  | nil => exact get_inFront rfl other
  | cons entry rest ih =>
    obtain ⟨first, present⟩ := entry
    rw [set_cons]
    by_cases hfirst : id = first
    · subst hfirst
      rw [if_pos rfl, get_inFront (h.get_eq_nil_of_le le_rfl)]
      by_cases hother : other = id
      · rw [if_pos hother, if_pos hother]
      · rw [if_neg hother, if_neg hother, get, if_neg (Ne.symm hother)]
    · rw [if_neg hfirst]
      by_cases hlt : id.value < first.value
      · have habsent : get id ((first, present) :: rest) = [] := by
          rw [get, if_neg (Ne.symm hfirst), h.get_eq_nil_of_le (le_of_lt hlt)]
        rw [if_pos hlt, get_inFront habsent]
      · rw [if_neg hlt, get, get, ih h.tail]
        by_cases hother : other = id
        · subst hother
          rw [if_neg (Ne.symm hfirst), if_pos rfl, if_pos rfl]
        · rw [if_neg hother, if_neg hother]

theorem mem_set {id : Identity} {edges : List (Edge α)} {adjacency : Adjacency α}
    {entry : Identity × List (Edge α)} (h : entry ∈ set id edges adjacency) :
    entry ∈ adjacency ∨ entry = (id, edges) ∧ edges ≠ [] := by
  induction adjacency with
  | nil => exact mem_inFront h
  | cons first rest ih =>
    obtain ⟨other, present⟩ := first
    rw [set_cons] at h
    split at h
    · exact (mem_inFront h).imp_left (List.mem_cons_of_mem _)
    · split at h
      · exact mem_inFront h
      · rcases List.mem_cons.1 h with rfl | h
        · exact Or.inl List.mem_cons_self
        · exact (ih h).imp_left (List.mem_cons_of_mem _)

theorem Ordered.set {adjacency : Adjacency α} (h : Ordered adjacency) (id : Identity)
    (edges : List (Edge α)) : Ordered (Adjacency.set id edges adjacency) := by
  refine ⟨?_, fun entry hentry => ?_⟩
  · induction adjacency with
    | nil => exact ascending_inFront List.Pairwise.nil fun _ hentry => absurd hentry List.not_mem_nil
    | cons first rest ih =>
      obtain ⟨other, present⟩ := first
      rw [set_cons]
      by_cases hfirst : id = other
      · subst hfirst
        rw [if_pos rfl]
        exact ascending_inFront h.tail.ascending h.head_lt
      · rw [if_neg hfirst]
        by_cases hlt : id.value < other.value
        · rw [if_pos hlt]
          refine ascending_inFront h.ascending fun entry hentry => ?_
          rcases List.mem_cons.1 hentry with rfl | hentry
          · exact hlt
          · exact lt_trans hlt (h.head_lt entry hentry)
        · rw [if_neg hlt]
          refine List.pairwise_cons.2 ⟨fun entry hentry => ?_, ih h.tail⟩
          rcases mem_set hentry with hentry | ⟨rfl, _⟩
          · exact h.head_lt entry hentry
          · have hne : id.value ≠ other.value := fun heq =>
              hfirst (by cases id; cases other; exact congrArg Identity.mk heq)
            exact lt_of_le_of_ne (not_lt.1 hlt) (Ne.symm hne)
  · rcases mem_set hentry with hentry | ⟨rfl, hne⟩
    · exact h.nonempty entry hentry
    · exact hne

/-- Replacing a list exchanges its edges for the new ones. -/
theorem length_set {adjacency : Adjacency α} (h : Ordered adjacency) (id : Identity)
    (edges : List (Edge α)) :
    ((set id edges adjacency).flatMap Prod.snd).length + (get id adjacency).length =
      (adjacency.flatMap Prod.snd).length + edges.length := by
  induction adjacency with
  | nil =>
    rw [set_nil, length_inFront]
    exact Nat.add_comm _ _
  | cons entry rest ih =>
    obtain ⟨other, present⟩ := entry
    rw [set_cons, get]
    by_cases hid : id = other
    · rw [if_pos hid, if_pos hid.symm, length_inFront]
      simp only [List.flatMap_cons, List.length_append]
      omega
    · rw [if_neg hid, if_neg (Ne.symm hid)]
      by_cases hlt : id.value < other.value
      · rw [if_pos hlt, h.get_eq_nil_of_le (le_of_lt hlt), length_inFront, List.length_nil]
        omega
      · rw [if_neg hlt]
        have hrest := ih h.tail
        simp only [List.flatMap_cons, List.length_append]
        omega

end Adjacency

namespace Edges

/-! ### The place of an edge -/

/-- The starts of some edges are in the order of identities. -/
def Ascending (edges : List (Edge α)) : Prop := edges.Pairwise fun a b => a.id.value ≤ b.id.value

/-- An edge comes where the starts up to its own end, however this place is searched for. -/
theorem insertByStart_append {edge : Edge α} {front back : List (Edge α)}
    (hfront : ∀ e ∈ front, e.id.value ≤ edge.id.value)
    (hback : ∀ e ∈ back, edge.id.value < e.id.value) :
    insertByStart edge (front ++ back) = front ++ edge :: back := by
  induction front with
  | nil =>
    cases back with
    | nil => rfl
    | cons e rest =>
      rw [List.nil_append, insertByStart, if_neg (not_le.2 (hback e List.mem_cons_self))]
      rfl
  | cons e rest ih =>
    obtain ⟨he, hrest⟩ := List.forall_mem_cons.1 hfront
    rw [List.cons_append, insertByStart, if_pos he, ih hrest]
    rfl

/-- In ascending lists there is such a place. -/
theorem Ascending.exists_place {edges : List (Edge α)} (h : Ascending edges) (edge : Edge α) :
    ∃ front back, edges = front ++ back ∧ (∀ e ∈ front, e.id.value ≤ edge.id.value) ∧
      ∀ e ∈ back, edge.id.value < e.id.value := by
  induction edges with
  | nil => exact ⟨[], [], rfl, fun _ he => absurd he List.not_mem_nil,
      fun _ he => absurd he List.not_mem_nil⟩
  | cons first rest ih =>
    obtain ⟨hhead, htail⟩ := List.pairwise_cons.1 h
    by_cases hfirst : first.id.value ≤ edge.id.value
    · obtain ⟨front, back, rfl, hfront, hback⟩ := ih htail
      exact ⟨first :: front, back, rfl, List.forall_mem_cons.2 ⟨hfirst, hfront⟩, hback⟩
    · have hlt := not_le.1 hfirst
      exact ⟨[], first :: rest, rfl, fun _ he => absurd he List.not_mem_nil,
        List.forall_mem_cons.2 ⟨hlt, fun e he => lt_of_lt_of_le hlt (hhead e he)⟩⟩

theorem Ascending.insertByStart {edges : List (Edge α)} (h : Ascending edges) (edge : Edge α) :
    Ascending (insertByStart edge edges) := by
  obtain ⟨front, back, rfl, hfront, hback⟩ := h.exists_place edge
  rw [insertByStart_append hfront hback]
  obtain ⟨hf, hb, hfb⟩ := List.pairwise_append.1 h
  refine List.pairwise_append.2 ⟨hf, List.pairwise_cons.2 ⟨fun e he => le_of_lt (hback e he), hb⟩,
    fun a ha b hb => ?_⟩
  rcases List.mem_cons.1 hb with rfl | hb
  · exact hfront a ha
  · exact hfb a ha b hb

/-- Among the edges of its start the new edge is the last. -/
theorem Ascending.filter_insertByStart {edges : List (Edge α)} (h : Ascending edges)
    (edge : Edge α) (start : Identity) :
    (Edges.insertByStart edge edges).filter (fun e => e.id = start) =
      edges.filter (fun e => e.id = start) ++ if edge.id = start then [edge] else [] := by
  obtain ⟨front, back, rfl, hfront, hback⟩ := h.exists_place edge
  rw [insertByStart_append hfront hback, List.filter_append, List.filter_append, List.filter_cons,
    List.append_assoc]
  split
  case isTrue hstart =>
    have hstart' : edge.id = start := of_decide_eq_true hstart
    have hnone : back.filter (fun e => e.id = start) = [] := by
      refine List.filter_eq_nil_iff.2 fun e he heq => ?_
      have hlt := hback e he
      rw [of_decide_eq_true heq, hstart'] at hlt
      exact lt_irrefl _ hlt
    rw [hnone, if_pos hstart', List.nil_append]
  case isFalse hstart =>
    rw [if_neg fun heq => hstart (decide_eq_true heq), List.append_nil]

/-- Ascending lists are equal if they have the same edges of each start, in the same order. -/
theorem Ascending.ext {edges others : List (Edge α)} (h : Ascending edges) (h' : Ascending others)
    (hsame : ∀ start : Identity,
      edges.filter (fun e => e.id = start) = others.filter (fun e => e.id = start)) :
    edges = others := by
  have hmem : ∀ {l m : List (Edge α)}, (∀ start : Identity,
      l.filter (fun e => e.id = start) = m.filter (fun e => e.id = start)) → l ⊆ m := by
    intro l m hlm e he
    have hin : e ∈ l.filter fun other => other.id = e.id :=
      List.mem_filter.2 ⟨he, decide_eq_true rfl⟩
    rw [hlm] at hin
    exact (List.mem_filter.1 hin).1
  induction edges generalizing others with
  | nil => exact (List.subset_nil.1 (hmem fun start => (hsame start).symm)).symm
  | cons e rest ih =>
    obtain ⟨hhead, htail⟩ := List.pairwise_cons.1 h
    cases others with
    | nil => exact absurd (hmem hsame List.mem_cons_self) List.not_mem_nil
    | cons e' rest' =>
      obtain ⟨hhead', htail'⟩ := List.pairwise_cons.1 h'
      -- the first starts are the least of both lists
      have hle : e.id.value ≤ e'.id.value := by
        rcases List.mem_cons.1 (hmem (fun start => (hsame start).symm) List.mem_cons_self) with
          heq | hin
        · exact le_of_eq (by rw [heq])
        · exact hhead e' hin
      have hge : e'.id.value ≤ e.id.value := by
        rcases List.mem_cons.1 (hmem hsame List.mem_cons_self) with heq | hin
        · exact le_of_eq (by rw [heq])
        · exact hhead' e hin
      have hid : e.id = e'.id := congrArg Identity.mk (le_antisymm hle hge)
      have hfirst := hsame e.id
      simp only [List.filter_cons, hid, decide_true, if_true] at hfirst
      obtain rfl : e = e' := (List.cons.inj hfirst).1
      refine congrArg (e :: ·) (ih htail htail' fun start => ?_)
      have hstart := hsame start
      rw [List.filter_cons, List.filter_cons] at hstart
      split at hstart
      · exact (List.cons.inj hstart).2
      · exact hstart

/-! ### Coherence -/

/-- What every operation keeps. -/
structure Coherent (edges : Edges α) : Prop where
  forward : Adjacency.Ordered edges.forward
  backward : Adjacency.Ordered edges.backward
  distinct : ∀ start, (edges.outgoing start).Nodup
  ascending : ∀ target, Ascending (edges.incoming target)
  /-- Both ends tell the same edges, those between two entities in the same order. -/
  sameOrder : ∀ start target, (edges.incoming target).filter (fun e => e.id = start) =
    ((edges.outgoing start).filter fun e => e.id = target).map fun e => ⟨start, e.attributes⟩
  counted : edges.count = (edges.forward.flatMap Prod.snd).length

theorem Coherent.mirror {edges : Edges α} (h : edges.Coherent) (start target : Identity)
    (attributes : α) :
    ⟨start, attributes⟩ ∈ edges.incoming target ↔ ⟨target, attributes⟩ ∈ edges.outgoing start := by
  have hincoming : ⟨start, attributes⟩ ∈ edges.incoming target ↔
      ⟨start, attributes⟩ ∈ (edges.incoming target).filter fun e => e.id = start := by
    rw [List.mem_filter, decide_eq_true_eq, and_iff_left rfl]
  rw [hincoming, h.sameOrder, List.mem_map]
  constructor
  · rintro ⟨⟨id, a⟩, hedge, heq⟩
    rw [Edge.mk.injEq] at heq
    obtain ⟨hmem, hid⟩ := List.mem_filter.1 hedge
    obtain rfl : id = target := of_decide_eq_true hid
    exact heq.2 ▸ hmem
  · exact fun hmem => ⟨⟨target, attributes⟩, List.mem_filter.2 ⟨hmem, decide_eq_true rfl⟩, rfl⟩

theorem Coherent.incomingDistinct {edges : Edges α} (h : edges.Coherent) (target : Identity) :
    (edges.incoming target).Nodup := by
  -- an edge that came twice would come twice among those of its start
  classical
  refine List.nodup_iff_count_le_one.2 fun edge => ?_
  have hcount : (edges.incoming target).count edge =
      ((edges.incoming target).filter fun e => e.id = edge.id).count edge := by
    rw [List.count_filter (by rw [decide_eq_true_eq])]
  rw [hcount, h.sameOrder]
  refine List.nodup_iff_count_le_one.1 (List.Nodup.map_on ?_ ((h.distinct edge.id).filter _)) edge
  rintro ⟨a, x⟩ ha ⟨b, y⟩ hb heq
  rw [Edge.mk.injEq] at heq ⊢
  have hta : a = target := of_decide_eq_true (List.mem_filter.1 ha).2
  have htb : b = target := of_decide_eq_true (List.mem_filter.1 hb).2
  exact ⟨hta.trans htb.symm, heq.2⟩

/-- Edges that are changed one by one do not change in number. -/
theorem Coherent.count_eq_of_map {edges others : Edges α} (h : edges.Coherent)
    (h' : others.Coherent) {change : Edge α → Edge α}
    (houtgoing : ∀ start, others.outgoing start = (edges.outgoing start).map change) :
    others.count = edges.count := by
  have hforward : others.forward =
      edges.forward.map fun entry => (entry.1, entry.2.map change) :=
    h'.forward.ext (h.forward.map change) fun id =>
      (houtgoing id).trans (Adjacency.get_map change id edges.forward).symm
  rw [h'.counted, h.counted, hforward, List.flatMap_map, List.length_flatMap, List.length_flatMap]
  simp only [List.length_map]

theorem coherent_empty : (empty : Edges α).Coherent where
  forward := Adjacency.ordered_nil
  backward := Adjacency.ordered_nil
  distinct := fun _ => List.nodup_nil
  ascending := fun _ => List.Pairwise.nil
  sameOrder := fun _ _ => rfl
  counted := rfl

variable [DecidableEq α]

/-! ### Adding -/

/-- An edge that is there already is not added. -/
theorem add?_eq_none_iff {edges : Edges α} {start target : Identity} {attributes : α} :
    edges.add? start target attributes = none ↔ ⟨target, attributes⟩ ∈ edges.outgoing start := by
  rw [add?]
  split
  case isTrue hmem => exact iff_of_true rfl (List.contains_iff_mem.1 hmem)
  case isFalse hmem =>
    exact iff_of_false (Option.some_ne_none _) fun hc => hmem (List.contains_iff_mem.2 hc)

theorem add_of_mem {edges : Edges α} {start target : Identity} {attributes : α}
    (h : ⟨target, attributes⟩ ∈ edges.outgoing start) :
    edges.add start target attributes = edges := by
  rw [add, add?_eq_none_iff.2 h]
  rfl

theorem add_of_not_mem {edges : Edges α} {start target : Identity} {attributes : α}
    (h : ⟨target, attributes⟩ ∉ edges.outgoing start) :
    edges.add start target attributes =
      { forward := Adjacency.set start (edges.outgoing start ++ [⟨target, attributes⟩])
          edges.forward
        backward := Adjacency.set target
          (insertByStart ⟨start, attributes⟩ (edges.incoming target)) edges.backward
        count := edges.count + 1 } := by
  rw [add, add?, if_neg fun hc => h (List.contains_iff_mem.1 hc)]
  rfl

theorem ordered_add {edges : Edges α} (h : Adjacency.Ordered edges.forward)
    (start target : Identity) (attributes : α) :
    Adjacency.Ordered (edges.add start target attributes).forward := by
  rw [add, add?]
  split
  · exact h
  · exact h.set _ _

theorem outgoing_add {edges : Edges α} (h : Adjacency.Ordered edges.forward)
    (start target : Identity) (attributes : α) (other : Identity) :
    (edges.add start target attributes).outgoing other =
      if other = start ∧ ⟨target, attributes⟩ ∉ edges.outgoing start then
        edges.outgoing start ++ [⟨target, attributes⟩]
      else edges.outgoing other := by
  by_cases hmem : ⟨target, attributes⟩ ∈ edges.outgoing start
  · rw [add_of_mem hmem, if_neg (fun hc => hc.2 hmem)]
  · rw [add_of_not_mem hmem, outgoing, Adjacency.get_set h]
    simp only [hmem, not_false_eq_true, and_true]
    rfl

theorem incoming_add {edges : Edges α} (h : Adjacency.Ordered edges.backward)
    {start target : Identity} {attributes : α} (hnew : ⟨target, attributes⟩ ∉ edges.outgoing start)
    (other : Identity) :
    (edges.add start target attributes).incoming other =
      if other = target then insertByStart ⟨start, attributes⟩ (edges.incoming target)
      else edges.incoming other := by
  rw [add_of_not_mem hnew, incoming, Adjacency.get_set h]
  rfl

theorem mem_outgoing_add {edges : Edges α} (h : Adjacency.Ordered edges.forward)
    {start target : Identity} {attributes : α} {other : Identity} {edge : Edge α} :
    edge ∈ (edges.add start target attributes).outgoing other ↔
      edge ∈ edges.outgoing other ∨ other = start ∧ edge = ⟨target, attributes⟩ := by
  rw [outgoing_add h]
  split
  case isTrue hnew =>
    rw [hnew.1, List.mem_append, List.mem_singleton]
    simp only [true_and]
  case isFalse hold =>
    rw [not_and, not_not] at hold
    refine ⟨Or.inl, fun hedge => ?_⟩
    rcases hedge with hedge | ⟨hother, rfl⟩
    · exact hedge
    · exact hother ▸ hold hother

theorem Coherent.add {edges : Edges α} (h : edges.Coherent) (start target : Identity)
    (attributes : α) : (edges.add start target attributes).Coherent := by
  by_cases hmem : ⟨target, attributes⟩ ∈ edges.outgoing start
  · rw [add_of_mem hmem]
    exact h
  constructor
  case forward => exact ordered_add h.forward _ _ _
  case backward =>
    rw [add_of_not_mem hmem]
    exact h.backward.set _ _
  case distinct =>
    intro other
    rw [outgoing_add h.forward]
    split
    · rw [List.nodup_append]
      exact ⟨h.distinct start, List.nodup_singleton _, fun a ha b hb hab =>
        hmem (List.mem_singleton.1 hb ▸ hab ▸ ha)⟩
    · exact h.distinct other
  case ascending =>
    intro other
    rw [incoming_add h.backward hmem]
    split
    · exact (h.ascending target).insertByStart _
    · exact h.ascending other
  case sameOrder =>
    intro s t
    rw [incoming_add h.backward hmem, outgoing_add h.forward]
    simp only [hmem, not_false_eq_true, and_true]
    by_cases ht : t = target
    · subst ht
      rw [if_pos rfl, (h.ascending t).filter_insertByStart, h.sameOrder]
      by_cases hs : s = start
      · rw [if_pos hs.symm, if_pos hs, hs, List.filter_append, List.map_append]
        simp only [List.filter_cons, decide_true, if_true, List.filter_nil, List.map_cons,
          List.map_nil]
      · rw [if_neg (Ne.symm hs), if_neg hs, List.append_nil]
    · rw [if_neg ht, h.sameOrder]
      by_cases hs : s = start
      · rw [if_pos hs, hs, List.filter_append, List.filter_cons_of_neg (by simp [Ne.symm ht]),
          List.filter_nil, List.append_nil]
      · rw [if_neg hs]
  case counted =>
    have hlength := Adjacency.length_set h.forward start
      (edges.outgoing start ++ [⟨target, attributes⟩])
    rw [List.length_append, List.length_singleton, outgoing] at hlength
    rw [add_of_not_mem hmem]
    dsimp only
    rw [h.counted, outgoing]
    omega

/-! ### Removing -/

/-- The backward lists without some edges of one start. -/
def eraseAll (start : Identity) (removed : List (Edge α)) (backward : Adjacency α) :
    Adjacency α :=
  removed.foldl (fun backward edge =>
    Adjacency.set edge.id ((Adjacency.get edge.id backward).erase ⟨start, edge.attributes⟩)
      backward) backward

theorem ordered_eraseAll (start : Identity) (removed : List (Edge α)) {backward : Adjacency α}
    (h : Adjacency.Ordered backward) : Adjacency.Ordered (eraseAll start removed backward) := by
  induction removed generalizing backward with
  | nil => exact h
  | cons edge rest ih => exact ih (h.set _ _)

theorem get_eraseAll (start : Identity) (removed : List (Edge α)) {backward : Adjacency α}
    (h : Adjacency.Ordered backward) (hd : ∀ target, (Adjacency.get target backward).Nodup)
    (target : Identity) :
    Adjacency.get target (eraseAll start removed backward) =
      (Adjacency.get target backward).filter fun e =>
        ¬ (e.id = start ∧ ⟨target, e.attributes⟩ ∈ removed) := by
  induction removed generalizing backward with
  | nil =>
    refine (List.filter_eq_self.2 fun e _ => ?_).symm
    simp only [List.not_mem_nil, and_false, not_false_eq_true, decide_true]
  | cons first rest ih =>
    have hset : ∀ other, Adjacency.get other (Adjacency.set first.id
        ((Adjacency.get first.id backward).erase ⟨start, first.attributes⟩) backward) =
        if other = first.id then (Adjacency.get first.id backward).filter
          fun e => e != ⟨start, first.attributes⟩
        else Adjacency.get other backward := by
      intro other
      rw [Adjacency.get_set h, (hd first.id).erase_eq_filter]
    refine (ih (h.set _ _) fun other => ?_).trans ?_
    · rw [hset]
      split
      · exact (hd first.id).filter _
      · exact hd other
    · rw [hset]
      obtain ⟨other, b⟩ := first
      by_cases htarget : target = other
      · subst htarget
        rw [if_pos rfl, List.filter_filter]
        refine List.filter_congr fun e _ => ?_
        obtain ⟨id, a⟩ := e
        rw [Bool.eq_iff_iff, Bool.and_eq_true, bne_iff_ne, decide_eq_true_eq, decide_eq_true_eq,
          List.mem_cons]
        simp only [ne_eq, Edge.mk.injEq, true_and]
        tauto
      · rw [if_neg htarget]
        refine List.filter_congr fun e _ => ?_
        simp only [List.mem_cons, Edge.mk.injEq, htarget, false_and, false_or]

theorem outgoing_removeOutgoing {edges : Edges α} (h : Adjacency.Ordered edges.forward)
    (start other : Identity) :
    (edges.removeOutgoing start).2.outgoing other =
      if other = start then [] else edges.outgoing other := by
  rw [removeOutgoing, outgoing, Adjacency.get_set h]
  rfl

theorem Coherent.incoming_removeOutgoing {edges : Edges α} (h : edges.Coherent)
    (start target : Identity) :
    (edges.removeOutgoing start).2.incoming target =
      (edges.incoming target).filter fun e => e.id ≠ start := by
  refine (get_eraseAll start (edges.outgoing start) h.backward h.incomingDistinct target).trans ?_
  refine List.filter_congr fun e he => ?_
  obtain ⟨id, attributes⟩ := e
  have hmirror := (h.mirror id target attributes).1 he
  rw [Bool.eq_iff_iff, decide_eq_true_eq, decide_eq_true_eq]
  exact not_congr ⟨fun hc => hc.1, fun hc => ⟨hc, hc ▸ hmirror⟩⟩

theorem Coherent.removeOutgoing {edges : Edges α} (h : edges.Coherent) (start : Identity) :
    (edges.removeOutgoing start).2.Coherent where
  forward := h.forward.set _ _
  backward := ordered_eraseAll _ _ h.backward
  distinct := by
    intro other
    rw [outgoing_removeOutgoing h.forward]
    split
    · exact List.nodup_nil
    · exact h.distinct other
  ascending := by
    intro target
    rw [h.incoming_removeOutgoing]
    exact (h.ascending target).filter _
  sameOrder := by
    intro s t
    rw [h.incoming_removeOutgoing, outgoing_removeOutgoing h.forward, List.filter_filter]
    by_cases hs : s = start
    · rw [if_pos hs, List.filter_nil, List.map_nil]
      refine List.filter_eq_nil_iff.2 fun e _ => ?_
      rw [Bool.and_eq_true, decide_eq_true_eq, decide_eq_true_eq, hs]
      exact fun hc => hc.2 hc.1
    · rw [if_neg hs, ← h.sameOrder]
      refine List.filter_congr fun e _ => ?_
      rw [Bool.eq_iff_iff, Bool.and_eq_true, decide_eq_true_eq, decide_eq_true_eq]
      exact ⟨fun hc => hc.1, fun hc => ⟨hc, hc ▸ hs⟩⟩
  counted := by
    have hlength := Adjacency.length_set h.forward start []
    change edges.count - (edges.outgoing start).length = _
    change _ = ((Adjacency.set start [] edges.forward).flatMap Prod.snd).length
    rw [outgoing, h.counted]
    rw [List.length_nil] at hlength
    omega

/-! ### Adding lists -/

theorem ordered_foldl_add (start : Identity) (added : List (Edge α)) {edges : Edges α}
    (h : Adjacency.Ordered edges.forward) :
    Adjacency.Ordered (added.foldl (fun edges edge => edges.add start edge.id edge.attributes)
      edges).forward := by
  induction added generalizing edges with
  | nil => exact h
  | cons edge rest ih => exact ih (ordered_add h start edge.id edge.attributes)

theorem outgoing_foldl_add (start : Identity) {added : List (Edge α)} {edges : Edges α}
    (h : Adjacency.Ordered edges.forward) (hnew : (edges.outgoing start ++ added).Nodup)
    (other : Identity) :
    (added.foldl (fun edges edge => edges.add start edge.id edge.attributes) edges).outgoing
        other =
      if other = start then edges.outgoing start ++ added else edges.outgoing other := by
  induction added generalizing edges with
  | nil =>
    rw [List.foldl_nil, List.append_nil]
    split
    · next heq => rw [heq]
    · rfl
  | cons edge rest ih =>
    have hmem : edge ∉ edges.outgoing start := fun hmem =>
      (List.nodup_append.1 hnew).2.2 edge hmem edge List.mem_cons_self rfl
    have hstep : (edges.add start edge.id edge.attributes).outgoing start =
        edges.outgoing start ++ [edge] := by
      rw [outgoing_add h, if_pos ⟨rfl, hmem⟩]
    rw [List.foldl_cons, ih (ordered_add h start edge.id edge.attributes), hstep,
      List.append_assoc, List.singleton_append,
      outgoing_add h]
    · by_cases hother : other = start
      · rw [if_pos hother, if_pos hother]
      · rw [if_neg hother, if_neg hother, if_neg fun hc => hother hc.1]
    · rw [hstep, List.append_assoc]
      exact hnew

theorem outgoing_ofForward_aux {forward : Adjacency α} {edges : Edges α}
    (h : Adjacency.Ordered edges.forward) (hforward : Adjacency.Ordered forward)
    (hd : ∀ entry ∈ forward, entry.2.Nodup)
    (hnew : ∀ entry ∈ forward, edges.outgoing entry.1 = []) :
    Adjacency.Ordered (forward.foldl (fun edges entry =>
        entry.2.foldl (fun edges edge => edges.add entry.1 edge.id edge.attributes) edges)
        edges).forward ∧
      ∀ other, (forward.foldl (fun edges entry =>
        entry.2.foldl (fun edges edge => edges.add entry.1 edge.id edge.attributes) edges)
        edges).outgoing other = edges.outgoing other ++ Adjacency.get other forward := by
  induction forward generalizing edges with
  | nil => exact ⟨h, fun other => (List.append_nil _).symm⟩
  | cons entry rest ih =>
    obtain ⟨start, added⟩ := entry
    have hempty : edges.outgoing start = [] := hnew (start, added) List.mem_cons_self
    have hnodup : (edges.outgoing start ++ added).Nodup := by
      rw [hempty]
      exact hd (start, added) List.mem_cons_self
    have hstep := outgoing_foldl_add start h hnodup
    have hrest := ih (ordered_foldl_add start added h) hforward.tail
      (fun e he => hd e (List.mem_cons_of_mem _ he)) (fun e he => by
        have hlt := hforward.head_lt e he
        rw [hstep, if_neg fun heq => absurd (heq ▸ hlt) (lt_irrefl _)]
        exact hnew e (List.mem_cons_of_mem _ he))
    refine ⟨hrest.1, fun other => ?_⟩
    rw [List.foldl_cons, hrest.2, hstep, Adjacency.get]
    by_cases hother : other = start
    · subst hother
      rw [if_pos rfl, if_pos rfl, hforward.get_eq_nil_of_le le_rfl, hempty, List.append_nil,
        List.nil_append]
    · rw [if_neg hother, if_neg (Ne.symm hother)]

/-- Edges built from the lists of one end have these lists. -/
theorem forward_ofForward {forward : Adjacency α} (h : Adjacency.Ordered forward)
    (hd : ∀ entry ∈ forward, entry.2.Nodup) : (ofForward forward).forward = forward := by
  have hempty : Adjacency.Ordered (empty : Edges α).forward := Adjacency.ordered_nil
  obtain ⟨hordered, hget⟩ := outgoing_ofForward_aux hempty h hd fun _ _ => rfl
  exact hordered.ext h fun id => (hget id).trans (List.nil_append _)

omit [DecidableEq α] in
/-- What edges lead to is looked up at their ends only. -/
theorem dereference_congr {β : Type} [Entity β] {edges : List (Edge α)} {c c' : Collection β}
    (h : ∀ edge ∈ edges, c'.get edge.id = c.get edge.id) :
    dereference edges c' = dereference edges c := by
  rw [dereference, dereference]
  induction edges with
  | nil => rfl
  | cons edge rest ih =>
    obtain ⟨hedge, hrest⟩ := List.forall_mem_cons.1 h
    rw [List.mapM_cons, List.mapM_cons, hedge, ih hrest]

end Edges

end ResourceCatalog
