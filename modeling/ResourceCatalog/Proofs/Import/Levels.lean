import Mathlib
import ResourceCatalog.Proofs.Import.Failures

/-!
# Further levels

Typing goes in at most so many levels. With more of them a schema that had a type has one again:
what was typed before it ran out of levels is typed still. The state that is left may be another
one, since a property inside of a record that had no type can have one now, but whether a schema has
a type does not depend on the state.
-/

namespace ResourceCatalog

namespace Typing

/-- A computation has a result where nothing has been typed yet. -/
def Succeeds {α : Type} (m : Typing α) : Prop :=
  Ends m .empty (fun _ _ => True) fun _ _ => False

section Rules

variable {resource : Identity} {path : String} {α β : Type} {mentioned : α → List Identity}
  {post : α → Prop}

theorem Course.succeeds_iff {error? : Option TypingError} {m : Typing α}
    (h : Course resource path mentioned post [] error? m) : Succeeds m ↔ error? = none := by
  have hends := h.keeps Database.empty Supply.full .empty (progress_empty resource)
    (List.nil_subset _)
  rw [Succeeds]
  rw [Ends] at hends ⊢
  generalize m.run.run .empty = outcome at hends ⊢
  obtain ⟨e | a, left⟩ := outcome
  · exact iff_of_false id fun hnone =>
      absurd (hends.2.2.symm.trans hnone) (Option.some_ne_none e)
  · exact iff_of_true trivial hends.2.2.1

/-- What succeeds where nothing has been typed yet succeeds everywhere. -/
theorem Goes.course {m : Typing PropertyType} (h : Goes resource path m) (hm : Succeeds m)
    (known : List Identity) :
    Course resource path PropertyType.references (fun _ => True) known none m := by
  obtain ⟨error?, hcourse⟩ := h
  obtain rfl := (hcourse []).succeeds_iff.1 hm
  exact hcourse known

theorem succeeds_map {m : Typing β} {g : β → α} :
    Succeeds (m >>= fun b => pure (g b)) ↔ Succeeds m := ends_bind

theorem Outright.succeeds_bind {m : Typing β} (hm : Outright m) {f f' : β → Typing α}
    (hf : ∀ b, Succeeds (f b) → Succeeds (f' b)) (h : Succeeds (m >>= f)) :
    Succeeds (m >>= f') := by
  rcases hm with ⟨b, rfl⟩ | ⟨e, _, rfl⟩
  · exact hf b h
  · exact h

end Rules

/-! ### Computations by way of those one level further in -/

/-- Two computations one level further in, of which the second succeeds where the first does. -/
structure InnerSucceeds (resource : Identity)
    (inner inner' : String → String → Schema.Resolved → Typing PropertyType) : Prop where
  goes : InnerGoes resource inner
  goes' : InnerGoes resource inner'
  succeeds : ∀ path hint resolved,
    Succeeds (inner path hint resolved) → Succeeds (inner' path hint resolved)

section Level

variable {inner inner' : String → String → Schema.Resolved → Typing PropertyType}
  {subject : Subject}

theorem succeeds_typeInner (hinner : InnerSucceeds subject.resource inner inner')
    (path hint : String) (schema : Json) (h : Succeeds (typeInner inner subject path hint schema)) :
    Succeeds (typeInner inner' subject path hint schema) :=
  (outright_resolve subject schema).succeeds_bind
    (fun resolved => hinner.succeeds path hint resolved) h

theorem succeeds_propertyOf (hinner : InnerSucceeds subject.resource inner inner')
    (path name : String) (schema : Json)
    (h : Succeeds (propertyOf inner subject path name schema)) :
    Succeeds (propertyOf inner' subject path name schema) :=
  (outright_resolve subject schema).succeeds_bind (fun resolved htype => succeeds_map.2
    (hinner.succeeds path name resolved (succeeds_map.1 htype))) h

theorem succeeds_typeOfValues (hinner : InnerSucceeds subject.resource inner inner')
    (path name : String) (values : List Json)
    (h : Succeeds (typeOfValues inner subject path name values)) :
    Succeeds (typeOfValues inner' subject path name values) := by
  unfold typeOfValues at h ⊢
  split at h
  · exact succeeds_typeInner hinner path name _ h
  · refine (Outright.mapM (outright_resolve subject) _).succeeds_bind (fun resolved => ?_) h
    exact (outright_unification _).succeeds_bind fun unified =>
      succeeds_typeInner hinner path _ unified

theorem succeeds_typeOfAll (hinner : InnerSucceeds subject.resource inner inner')
    (path hint : String) (branches : List Schema.Resolved)
    (h : Succeeds (typeOfAll inner subject path hint branches)) :
    Succeeds (typeOfAll inner' subject path hint branches) :=
  (outright_unification _).succeeds_bind
    (fun unified => succeeds_typeInner hinner path _ unified) h

/-- A record has a type, whatever becomes of its properties. -/
theorem succeeds_typeOfObject (hinner : InnerSucceeds subject.resource inner inner')
    (path name : String) (schema : Json)
    (h : Succeeds (typeOfObject inner subject path name schema)) :
    Succeeds (typeOfObject inner' subject path name schema) := by
  rw [typeOfObject] at h ⊢
  split
  · exact succeeds_map.2 ((course_definitionOf hinner.goes' path name schema []).succeeds_iff.2 rfl)
  · next hrecord =>
    rw [if_neg hrecord] at h
    split
    · next hmap =>
      rw [if_pos hmap] at h
      exact succeeds_map.2 (succeeds_typeOfValues hinner path name _ (succeeds_map.1 h))
    · trivial

theorem succeeds_typeOfConcrete (hinner : InnerSucceeds subject.resource inner inner')
    (path name : String) (schema : Json)
    (h : Succeeds (typeOfConcrete inner subject path name schema)) :
    Succeeds (typeOfConcrete inner' subject path name schema) := by
  have hobject := succeeds_typeOfObject hinner path name schema
  revert h
  rw [typeOfConcrete, typeOfConcrete]
  repeat' split
  all_goals first | exact hobject | exact id

/-- A union succeeds where its branches do. -/
theorem succeeds_union (hinner : InnerSucceeds subject.resource inner inner')
    (path hint : String) (branches : List Schema.Resolved)
    (hbranches : Succeeds (typesOf inner subject path hint [] branches) →
      Succeeds (typesOf inner' subject path hint [] branches))
    (h : Succeeds (do typeOf.unionOf path (← typesOf inner subject path hint [] branches))) :
    Succeeds (do typeOf.unionOf path (← typesOf inner' subject path hint [] branches)) := by
  rw [Succeeds, ends_bind] at h
  cases branches with
  | nil => exact h.elim
  | cons branch rest =>
    obtain ⟨error?, hcourse⟩ := course_typesOf hinner.goes' path hint (branch :: rest)
    obtain rfl := (hcourse [] []).succeeds_iff.1
      (hbranches (h.mono (fun _ _ _ => trivial) fun _ _ h => h))
    rw [Succeeds, ends_bind]
    refine ((hcourse [] []).keeps _ _ .empty (progress_empty _) (List.nil_subset _)).mono
      (fun types left hleft => ?_) fun _ _ hleft => nomatch hleft.2.2
    have hne : types ≠ [] := hleft.2.2.2.2 rfl (List.cons_ne_nil _ _)
    match types, hne with
    | [single], _ => trivial
    | first :: second :: others, _ => trivial

mutual

theorem succeeds_typeOf (hinner : InnerSucceeds subject.resource inner inner')
    (path hint : String) (resolved : Schema.Resolved)
    (h : Succeeds (typeOf inner subject path hint resolved)) :
    Succeeds (typeOf inner' subject path hint resolved) := by
  cases resolved with
  | concrete schema name => exact succeeds_typeOfConcrete hinner path _ schema h
  | array schema name items =>
    cases items with
    | none => trivial
    | some items =>
      rw [typeOf] at h ⊢
      exact succeeds_map.2 (succeeds_typeOf hinner path hint items (succeeds_map.1 h))
  | combined schema name op branches =>
    have hunion := succeeds_union hinner path hint branches
      (succeeds_typesOf hinner path hint [] [] branches)
    cases op with
    | allOf =>
      revert h
      rw [typeOf, typeOf]
      split
      · exact id
      · exact succeeds_typeOfConstrained hinner path hint branches
      · exact succeeds_typeOfAll hinner path hint _
    | anyOf => exact hunion h
    | oneOf => exact hunion h

theorem succeeds_typeOfConstrained (hinner : InnerSucceeds subject.resource inner inner')
    (path hint : String) (branches : List Schema.Resolved)
    (h : Succeeds (typeOfConstrained inner subject path hint branches)) :
    Succeeds (typeOfConstrained inner' subject path hint branches) := by
  cases branches with
  | nil => trivial
  | cons branch rest =>
    rw [typeOfConstrained] at h ⊢
    split
    · next hconstrained =>
      rw [if_pos hconstrained] at h
      exact succeeds_typeOf hinner path hint branch h
    · next hconstrained =>
      rw [if_neg hconstrained] at h
      exact succeeds_typeOfConstrained hinner path hint rest h

/-- Branches succeed where each of them does. Which texts have been seen makes no difference. -/
theorem succeeds_typesOf (hinner : InnerSucceeds subject.resource inner inner')
    (path hint : String) (texts texts' : List String) (branches : List Schema.Resolved)
    (h : Succeeds (typesOf inner subject path hint texts branches)) :
    Succeeds (typesOf inner' subject path hint texts' branches) := by
  cases branches with
  | nil => trivial
  | cons branch rest =>
    obtain ⟨first?, hfirst⟩ := goes_typeOf hinner.goes path hint branch
    obtain ⟨last?, hlast⟩ := course_typesOf hinner.goes path hint rest
    obtain ⟨rfl, rfl⟩ := Option.or_eq_none_iff.1
      ((course_typesOf_cons hinner.goes hfirst hlast texts []).succeeds_iff.1 h)
    have hbranch := succeeds_typeOf hinner path hint branch ((hfirst []).succeeds_iff.2 rfl)
    have hrest := succeeds_typesOf hinner path hint [] [] rest ((hlast [] []).succeeds_iff.2 rfl)
    obtain ⟨rest?, hcourse⟩ := course_typesOf hinner.goes' path hint rest
    obtain rfl := (hcourse [] []).succeeds_iff.1 hrest
    exact (course_typesOf_cons hinner.goes'
      ((goes_typeOf hinner.goes' path hint branch).course hbranch) hcourse texts' []).succeeds_iff.2
        rfl

end

end Level

/-! ### Levels -/

theorem innerSucceeds_succ (subject : Subject) (levels : Nat) :
    InnerSucceeds subject.resource (typeWithin subject levels) (typeWithin subject (levels + 1)) where
  goes := innerGoes_typeWithin subject levels
  goes' := innerGoes_typeWithin subject (levels + 1)
  succeeds := by
    induction levels with
    | zero => exact fun _ _ _ h => h.elim
    | succ levels ih =>
      exact succeeds_typeOf ⟨innerGoes_typeWithin subject levels, innerGoes_typeWithin subject _, ih⟩

theorem innerSucceeds_of_le (subject : Subject) {levels more : Nat} (h : levels ≤ more) :
    InnerSucceeds subject.resource (typeWithin subject levels) (typeWithin subject more) where
  goes := innerGoes_typeWithin subject levels
  goes' := innerGoes_typeWithin subject more
  succeeds := by
    induction more, h using Nat.le_induction with
    | base => exact fun _ _ _ h => h
    | succ more _ ih =>
      exact fun path hint resolved h =>
        (innerSucceeds_succ subject more).succeeds path hint resolved (ih path hint resolved h)

end Typing

end ResourceCatalog
