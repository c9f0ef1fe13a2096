import Mathlib
import ResourceCatalog.Proofs.Graph.Collection
import ResourceCatalog.Proofs.Text.Utf8

/-!
# What a look-up answers

The answer to a query is told by the records alone. Under one key are the records with this key, in
the order in which they came in. Under the keys with some beginning are the records whose keys begin
so, in the order of the bytes of the keys, and those of one key in the order in which they came in.
A coherent collection answers every query of an index that its kind declares, and refuses the others.
-/

namespace ResourceCatalog

variable {α : Type}

/-- What a query of an index finds among the records of a collection. -/
def IndexDefinition.Answers (definition : IndexDefinition α) (all found : List (Record α)) :
    Query → Prop
  | .equals key => found = all.filter fun r => definition.key r.entity == key
  | .startsWith start =>
    found.Perm (all.filter fun r =>
      Text.startsWith start.toList (definition.key r.entity).toList) ∧
    found.Pairwise fun a b =>
      Text.bytes (definition.key a.entity) < Text.bytes (definition.key b.entity) ∨
        definition.key a.entity = definition.key b.entity ∧ [a, b].Sublist all

theorem exists_map_of_perm {β : Type} {f : α → β} {items : List α} {shuffled : List β}
    (h : shuffled.Perm (items.map f)) :
    ∃ others : List α, shuffled = others.map f ∧ others.Perm items := by
  have hcomp : (Relation.Comp (· = List.map f ·) List.Perm) shuffled items := by
    rw [List.eq_map_comp_perm]
    exact h
  exact hcomp

/-- Of two items of a list in strict order, the smaller one stands in front. -/
theorem pair_sublist_of_pairwise {before : α → α → Prop} (hasymm : ∀ a b, before a b → ¬ before b a)
    {items : List α} (h : items.Pairwise before) {a b : α} (ha : a ∈ items) (hb : b ∈ items)
    (hab : before a b) : [a, b].Sublist items := by
  induction items with
  | nil => exact absurd ha List.not_mem_nil
  | cons first rest ih =>
    obtain ⟨hhead, htail⟩ := List.pairwise_cons.1 h
    rcases List.mem_cons.1 ha with hfirst | ha
    · rcases List.mem_cons.1 hb with hsame | hb
      · rw [hfirst, hsame] at hab
        exact absurd hab (hasymm _ _ hab)
      · rw [hfirst]
        exact (List.singleton_sublist.2 hb).cons_cons _
    · rcases List.mem_cons.1 hb with hfirst | hb
      · rw [hfirst] at hab
        exact absurd hab (hasymm _ _ (hhead a ha))
      · exact (ih htail ha hb).cons _

/-- The entries that a query of an index is about. -/
def Query.covers : Query → KeyEntry → Bool
  | .equals key, e => e.key == key
  | .startsWith start, e => Text.startsWith start.toList e.key.toList

theorem KeyIndex.find_eq_filter {index : KeyIndex} (h : Sorted index.entries) (query : Query) :
    index.find query = (index.entries.filter query.covers).map KeyEntry.id := by
  cases query with
  | equals key => exact equal_eq_filter h key
  | startsWith start => exact startingWith_eq_filter h start

namespace Collection

variable [Entity α] {c : Collection α} {definition : IndexDefinition α} {index : KeyIndex}

omit [Entity α] in
/-- The rows behind the entries of an index that a query is about, in the order of the entries. -/
theorem exists_rows (h : index.Lists definition c.rows) (query : Query) :
    ∃ rows : List (Row α), index.entries.filter query.covers = rows.map (Row.entry definition) ∧
      rows.Perm (c.rows.filter fun row => query.covers (row.entry definition)) ∧
      rows.Pairwise fun a b => (a.entry definition).NotAfter (b.entry definition) := by
  have hperm := h.perm.filter query.covers
  rw [List.filter_map] at hperm
  obtain ⟨rows, hrows, hfiltered⟩ := exists_map_of_perm hperm
  refine ⟨rows, hrows, hfiltered, ?_⟩
  have hsorted := h.sorted.filter query.covers
  rwa [hrows, List.pairwise_map] at hsorted

theorem mapM_get_of_rows (hd : c.ids.Nodup) {rows : List (Row α)}
    (h : ∀ row ∈ rows, row ∈ c.rows) :
    (rows.map fun row => row.record.id).mapM c.get = .ok (rows.map Row.record) := by
  induction rows with
  | nil => rfl
  | cons row rest ih =>
    obtain ⟨hrow, hrest⟩ := List.forall_mem_cons.1 h
    rw [List.map_cons, List.mapM_cons, get_of_mem hd (mem_all.2 ⟨row, hrow, rfl⟩), ih hrest]
    rfl

/-- Rows with one key come in the order of their sequences. -/
theorem sequence_lt (h : c.Coherent) {a b : Row α} (ha : a ∈ c.rows) (hb : b ∈ c.rows)
    (hne : a ≠ b) (hle : a.sequence ≤ b.sequence) : a.sequence < b.sequence := by
  refine lt_of_le_of_ne hle fun hsame => ?_
  have hinjective : (c.rows.map Row.sequence).Nodup :=
    List.pairwise_map.2 (h.ascending.imp fun hlt => ne_of_lt hlt)
  exact hne (List.inj_on_of_nodup_map hinjective ha hb hsame)

/-- The rows in the order of the entries answer the query. -/
theorem answers_of_rows (h : c.Coherent) {query : Query} {rows : List (Row α)}
    (hperm : rows.Perm (c.rows.filter fun row => query.covers (row.entry definition)))
    (hsorted : rows.Pairwise fun a b => (a.entry definition).NotAfter (b.entry definition)) :
    definition.Answers c.all (rows.map Row.record) query := by
  have hmem : ∀ row ∈ rows, row ∈ c.rows ∧ query.covers (row.entry definition) = true :=
    fun row hrow => List.mem_filter.1 (hperm.mem_iff.1 hrow)
  have hfilter : (c.rows.filter fun row => query.covers (row.entry definition)).map Row.record =
      c.all.filter fun r => query.covers ⟨definition.key r.entity, 0, r.id⟩ := by
    rw [all, List.filter_map]
    cases query <;> rfl
  have hdistinct : c.rows.Nodup := h.ascending.imp fun {a b} hlt (hsame : a = b) =>
    absurd hlt (hsame ▸ lt_irrefl a.sequence)
  have hnodup : rows.Nodup := hperm.nodup_iff.2 (hdistinct.filter _)
  cases query with
  | equals key =>
    have hsequences : rows.Pairwise fun a b => a.sequence ≤ b.sequence := by
      refine hsorted.imp_of_mem fun {a b} ha hb hab => ?_
      have hkeys : (a.entry definition).key = (b.entry definition).key :=
        (beq_iff_eq.1 (hmem a ha).2).trans (beq_iff_eq.1 (hmem b hb).2).symm
      rcases hab with hlt | ⟨_, hle⟩
      · exact absurd hlt (hkeys ▸ lt_irrefl _)
      · exact hle
    have heq : rows = c.rows.filter fun row =>
        (Query.equals key).covers (row.entry definition) := by
      refine hperm.eq_of_pairwise (fun a b ha hb hab hba => ?_) hsequences
        ((h.ascending.filter _).imp le_of_lt)
      by_contra hne
      have hlt := sequence_lt h (hmem a ha).1 (List.mem_filter.1 hb).1 hne hab
      exact absurd hba (not_le.2 hlt)
    rw [heq, hfilter]
    rfl
  | startsWith start =>
    refine ⟨(hperm.map Row.record).trans (List.Perm.of_eq hfilter), ?_⟩
    refine List.pairwise_map.2 ((hsorted.and hnodup).imp_of_mem fun {a b} ha hb hab => ?_)
    obtain ⟨hlt | ⟨hkeys, hle⟩, hne⟩ := hab
    · exact Or.inl (Text.bytes_lt_iff.2 hlt)
    · refine Or.inr ⟨hkeys, ?_⟩
      have hpair := pair_sublist_of_pairwise (fun _ _ hlt => lt_asymm hlt) h.ascending
        (hmem a ha).1 (hmem b hb).1 (sequence_lt h (hmem a ha).1 (hmem b hb).1 hne hle)
      exact hpair.map Row.record

/-- A query of a declared index is answered. Of several indexes of one name, the first is asked. -/
theorem exists_lookup (h : c.Coherent) {name : String}
    (hname : (Entity.indexes (α := α)).find? (fun d => d.name == name) = some definition)
    (query : Query) :
    ∃ found, c.lookup name query = .ok ⟨Entity.collection α, s!"{name} {query.text}", found⟩ ∧
      definition.Answers c.all found query := by
  have hsame : (definition.name == name) = true := by simpa using List.find?_some hname
  obtain rfl : definition.name = name := beq_iff_eq.1 hsame
  obtain ⟨index, hindex, hlists⟩ := index?_eq_some h hname
  obtain ⟨rows, hrows, hperm, hsorted⟩ := exists_rows hlists query
  refine ⟨rows.map Row.record, ?_, answers_of_rows h hperm hsorted⟩
  have hids : index.find query = rows.map fun row => row.record.id := by
    rw [KeyIndex.find_eq_filter hlists.sorted, hrows, List.map_map]
    rfl
  rw [lookup, hindex]
  dsimp only
  rw [hids, mapM_get_of_rows h.distinct fun row hrow =>
    (List.mem_filter.1 (hperm.mem_iff.1 hrow)).1]
  rfl

theorem lookup_eq_error {name : String}
    (hname : (Entity.indexes (α := α)).find? (fun d => d.name == name) = none) (query : Query) :
    c.lookup name query = .error (.noSuchIndex (Entity.collection α) name) := by
  have hindex : c.index? name = none := by
    rw [index?, Option.map_eq_none_iff, List.find?_eq_none]
    rintro ⟨definition, index⟩ hmem
    exact List.find?_eq_none.1 hname definition (List.of_mem_zip hmem).1
  rw [lookup, hindex]

end Collection

end ResourceCatalog
