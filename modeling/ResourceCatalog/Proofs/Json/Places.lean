import Mathlib
import ResourceCatalog.Proofs.Json.WellFormed
import ResourceCatalog.Proofs.Pointer.Tokens

/-!
# Changes at a place

A change of the value at the end of some tokens puts the changed child back at every step on the
way. Where the tokens lead nowhere it changes nothing, and in a well-formed document neither does a
change that leaves the value there as it is. So an edit that is refused and an edit without effect
are the same to the document. Places that lie apart from the place of a change do not notice it.
-/

namespace ResourceCatalog

/-! ### Places that are apart -/

/-- Neither of two places is the other one or inside of it. -/
def Apart (a b : List String) : Prop := ¬ a <+: b ∧ ¬ b <+: a

theorem Apart.symm {a b : List String} (h : Apart a b) : Apart b a := And.symm h

theorem apart_cons_self {token : String} {a b : List String} :
    Apart (token :: a) (token :: b) ↔ Apart a b := by
  simp [Apart, List.cons_prefix_cons]

theorem apart_cons_of_ne {token other : String} (h : token ≠ other) (a b : List String) :
    Apart (token :: a) (other :: b) := by
  simp [Apart, List.cons_prefix_cons, h, Ne.symm h]

theorem ne_of_apart_singleton {token other : String} {rest : List String}
    (h : Apart [token] (other :: rest)) : token ≠ other := by
  rintro rfl
  exact h.1 (by simp [List.cons_prefix_cons])

namespace Json

variable {value child : Json} {token other : String}

/-! ### One step -/

theorem WellFormed.setChild_self (h : value.WellFormed) (hchild : value.child? token = some child) :
    value.setChild token child = value := by
  cases value with
  | arr items =>
    obtain ⟨i, hi, hitem⟩ := Option.bind_eq_some_iff.1 hchild
    obtain ⟨hlt, hget⟩ := List.getElem?_eq_some_iff.1 hitem
    rw [setChild, hi]
    dsimp only
    rw [← hget, List.set_getElem_self]
  | obj members =>
    exact congrArg Json.obj ((wellFormed_obj.1 h).1.insert_self hchild)
  | _ => cases hchild

theorem WellFormed.setChild (h : value.WellFormed) (hthere : (value.child? token).isSome)
    (hchild : child.WellFormed) : (value.setChild token child).WellFormed := by
  cases value with
  | arr items =>
    rw [Json.setChild]
    split
    · refine wellFormed_arr.2 fun item hitem => ?_
      rcases List.mem_or_eq_of_mem_set hitem with hitem | rfl
      · exact wellFormed_arr.1 h item hitem
      · exact hchild
    · exact h
  | obj members =>
    obtain ⟨old, hold⟩ := Option.isSome_iff_exists.1 hthere
    obtain ⟨hascending, hmembers⟩ := wellFormed_obj.1 h
    rw [Json.setChild, hascending.insert_eq_map ⟨_, Keyed.mem_of_get? hold, rfl⟩, wellFormed_obj]
    refine ⟨hascending.map fun entry => ?_, fun entry hentry => ?_⟩
    · split
      · next hsame => exact hsame.symm
      · rfl
    · obtain ⟨before, hbefore, rfl⟩ := List.mem_map.1 hentry
      split
      · exact hchild
      · exact hmembers before hbefore
  | _ => exact h

theorem child?_setChild (hthere : (value.child? token).isSome) (child : Json) :
    (value.setChild token child).child? token = some child := by
  obtain ⟨old, hold⟩ := Option.isSome_iff_exists.1 hthere
  cases value with
  | arr items =>
    obtain ⟨i, hi, hitem⟩ := Option.bind_eq_some_iff.1 hold
    obtain ⟨hlt, _⟩ := List.getElem?_eq_some_iff.1 hitem
    simp only [setChild, child?, hi, Option.bind_some, List.getElem?_set_self hlt]
  | obj members => exact Keyed.get?_insert_self token child members
  | _ => cases hold

theorem setChild_setChild (value : Json) (token : String) (other child : Json) :
    (value.setChild token other).setChild token child = value.setChild token child := by
  cases value with
  | arr items =>
    cases hi : Pointer.index? token with
    | none => simp only [setChild, hi]
    | some i => simp only [setChild, hi, List.set_set]
  | obj members => exact congrArg Json.obj (Keyed.insert_insert _ _ _ _)
  | _ => rfl

theorem index?_ne_of_ne (h : token ≠ other) {i j : Nat} (hi : Pointer.index? token = some i)
    (hj : Pointer.index? other = some j) : i ≠ j := by
  rintro rfl
  exact h ((Pointer.index?_eq_some_iff.1 hi).1.trans (Pointer.index?_eq_some_iff.1 hj).1.symm)

theorem child?_setChild_of_ne (h : other ≠ token) (value child : Json) :
    (value.setChild token child).child? other = value.child? other := by
  cases value with
  | arr items =>
    cases hi : Pointer.index? token with
    | none => simp only [setChild, hi]
    | some i =>
      cases hj : Pointer.index? other with
      | none => simp only [setChild, hi, child?, hj, Option.bind_none]
      | some j =>
        simp only [setChild, hi, child?, hj, Option.bind_some]
        exact List.getElem?_set_ne (index?_ne_of_ne h hj hi).symm
  | obj members => exact Keyed.get?_insert_of_ne h child members
  | _ => rfl

/-! ### Along tokens -/

/-- The document with the value at some tokens changed. Nothing changes if there is no such value. -/
def mapAt (change : Json → Json) : List String → Json → Json
  | [], value => change value
  | token :: rest, value =>
    match value.child? token with
    | some child => value.setChild token (mapAt change rest child)
    | none => value

theorem WellFormed.mapAt {change : Json → Json}
    (hchange : ∀ value : Json, value.WellFormed → (change value).WellFormed)
    (tokens : List String) (h : value.WellFormed) : (value.mapAt change tokens).WellFormed := by
  induction tokens generalizing value with
  | nil => exact hchange value h
  | cons token rest ih =>
    rw [Json.mapAt]
    split
    · next child hchild =>
      refine h.setChild ?_ (ih (h.child hchild))
      rw [hchild]
      rfl
    · exact h

theorem at?_append (tokens more : List String) (value : Json) :
    value.at? (tokens ++ more) = (value.at? tokens).bind fun found => found.at? more := by
  induction tokens generalizing value with
  | nil => rfl
  | cons token rest ih =>
    rw [List.cons_append, at?, at?, Option.bind_assoc]
    simp only [ih]

theorem WellFormed.at? {tokens : List String} {found : Json} (h : value.WellFormed)
    (hat : value.at? tokens = some found) : found.WellFormed :=
  holds_at? WellFormed (fun hvalue hchild => hvalue.child hchild) h hat

theorem Indexable.at? {tokens : List String} {found : Json} (h : value.Indexable)
    (hat : value.at? tokens = some found) : found.Indexable :=
  holds_at? Indexable (fun hvalue hchild => hvalue.child hchild) h hat

theorem at?_mapAt {change : Json → Json} {tokens : List String} {found : Json}
    (hat : value.at? tokens = some found) :
    (value.mapAt change tokens).at? tokens = some (change found) := by
  induction tokens generalizing value with
  | nil =>
    obtain rfl := Option.some.inj hat
    rfl
  | cons token rest ih =>
    obtain ⟨child, hchild, hrest⟩ := Option.bind_eq_some_iff.1 hat
    have hthere : (value.child? token).isSome := by simp [hchild]
    rw [mapAt, hchild, at?, child?_setChild hthere, Option.bind_some]
    exact ih hrest

theorem at?_mapAt_append {change : Json → Json} {tokens : List String} {found : Json}
    (hat : value.at? tokens = some found) (more : List String) :
    (value.mapAt change tokens).at? (tokens ++ more) = (change found).at? more := by
  rw [at?_append, at?_mapAt hat, Option.bind_some]

theorem mapAt_mapAt (first second : Json → Json) (tokens : List String) (value : Json) :
    (value.mapAt first tokens).mapAt second tokens =
      value.mapAt (fun found => second (first found)) tokens := by
  induction tokens generalizing value with
  | nil => simp [mapAt]
  | cons token rest ih =>
    cases hchild : value.child? token with
    | none => simp [mapAt, hchild]
    | some child =>
      have hthere : (value.child? token).isSome := by simp [hchild]
      simp [mapAt, hchild, child?_setChild hthere, setChild_setChild, ih]

theorem WellFormed.mapAt_self {tokens : List String} {found : Json} (h : value.WellFormed)
    (hat : value.at? tokens = some found) : value.mapAt (fun _ => found) tokens = value := by
  induction tokens generalizing value with
  | nil => simpa [Json.mapAt, Json.at?] using hat.symm
  | cons token rest ih =>
    obtain ⟨child, hchild, hrest⟩ := Option.bind_eq_some_iff.1 hat
    simp [Json.mapAt, hchild, ih (h.child hchild) hrest, h.setChild_self hchild]

/-- A change at a place is not seen at places that are apart from it. -/
theorem at?_mapAt_of_apart {tokens others : List String} (h : Apart tokens others)
    (change : Json → Json) (value : Json) :
    (value.mapAt change tokens).at? others = value.at? others := by
  induction tokens generalizing value others with
  | nil => exact absurd List.nil_prefix h.1
  | cons token rest ih =>
    cases others with
    | nil => exact absurd List.nil_prefix h.2
    | cons other more =>
      cases hchild : value.child? token with
      | none => simp [mapAt, hchild]
      | some child =>
        by_cases hsame : token = other
        · subst hsame
          have hthere : (value.child? token).isSome := by simp [hchild]
          have hrest := ih (apart_cons_self.1 h) child
          simp [mapAt, at?, hchild, child?_setChild hthere, hrest]
        · simp [mapAt, at?, hchild, child?_setChild_of_ne (Ne.symm hsame)]

/-! ### Edits along tokens -/

/-- An edit at the end of some tokens puts what it makes there in the place of what it found. -/
theorem modifyAt?_eq {ε : Type} (change : Json → Except ε Json) (tokens : List String)
    (value : Json) : value.modifyAt? change tokens = (value.at? tokens).map fun found =>
      (change found).map fun changed => value.mapAt (fun _ => changed) tokens := by
  induction tokens generalizing value with
  | nil =>
    simp only [modifyAt?, at?, Option.map_some, mapAt]
    cases change value <;> rfl
  | cons token rest ih =>
    rw [modifyAt?, at?]
    cases hchild : value.child? token with
    | none => simp
    | some child =>
      simp only [Option.bind_some, ih, Option.map_map]
      cases child.at? rest with
      | none => simp
      | some found =>
        simp only [Option.map_some, Function.comp_apply]
        cases change found with
        | error e => simp [Except.map]
        | ok changed => simp [Except.map, mapAt, hchild]

/-- What can be edited at the end of some tokens can be edited from the root. -/
theorem exists_modifyAt?_eq_ok {ε : Type} (change : Json → Except ε Json) {tokens : List String}
    {found new : Json} (hat : value.at? tokens = some found) (hok : change found = .ok new) :
    ∃ changed, value.modifyAt? change tokens = some (.ok changed) :=
  ⟨value.mapAt (fun _ => new) tokens, by simp [modifyAt?_eq, hat, hok, Except.map]⟩

/-- The result of an edit is a change of the value, or the edit is refused and the change has no
effect. -/
def Reaches {ε : Type} (result : Option (Except ε Json)) (value changed : Json) : Prop :=
  result = some (.ok changed) ∨
    (result = none ∨ ∃ e, result = some (.error e)) ∧ changed = value

/-- An edit at the end of some tokens reaches what its change there does to the whole document. -/
theorem reaches_modifyAt? {ε : Type} {edit : Json → Except ε Json} {change : Json → Json}
    {last : List String}
    (hedit : ∀ value, Reaches (value.modifyAt? edit last) value (change value))
    (tokens : List String) (h : value.WellFormed) :
    Reaches (value.modifyAt? edit (tokens ++ last)) value (value.mapAt change tokens) := by
  induction tokens generalizing value with
  | nil => exact hedit value
  | cons token rest ih =>
    rw [List.cons_append, modifyAt?, mapAt]
    cases hchild : value.child? token with
    | none => exact Or.inr ⟨Or.inl rfl, rfl⟩
    | some child =>
      dsimp only [Option.bind_some]
      rcases ih (h.child hchild) with hok | ⟨hrefused, hsame⟩
      · rw [hok]
        exact Or.inl rfl
      · rw [hsame, h.setChild_self hchild]
        refine Or.inr ⟨?_, rfl⟩
        rcases hrefused with hnone | ⟨e, herr⟩
        · rw [hnone]
          exact Or.inl rfl
        · rw [herr]
          exact Or.inr ⟨e, rfl⟩

end Json

end ResourceCatalog
