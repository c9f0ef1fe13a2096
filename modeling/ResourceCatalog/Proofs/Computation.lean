import Mathlib

/-!
# How computations end

The steps of an import change a state and can fail, and what they have changed stays when they do.
`Ends` says what holds of the result or the error and of the state that is left. It is an equation
for every building block, so a computation is followed block by block, and a block that is a
computation itself is replaced by what is known of it (`Ends.mono`). `EndTogether` does the same for
two computations that are followed side by side.
-/

namespace ResourceCatalog

variable {ε σ α β : Type}

/-- What holds of the result of a computation, or else of its error, and of the state it leaves. -/
def Ends (m : ExceptT ε (StateM σ) α) (state : σ) (ok : α → σ → Prop) (err : ε → σ → Prop) :
    Prop :=
  match m.run.run state with
  | (.ok a, left) => ok a left
  | (.error e, left) => err e left

section Ends

variable {state : σ} {ok : α → σ → Prop} {err : ε → σ → Prop}

theorem ends_pure {a : α} :
    Ends (pure a : ExceptT ε (StateM σ) α) state ok err ↔ ok a state := Iff.rfl

theorem ends_throw {e : ε} :
    Ends (throw e : ExceptT ε (StateM σ) α) state ok err ↔ err e state := Iff.rfl

theorem ends_bind {m : ExceptT ε (StateM σ) β} {f : β → ExceptT ε (StateM σ) α} :
    Ends (m >>= f) state ok err ↔ Ends m state (fun b left => Ends (f b) left ok err) err := by
  simp only [Ends, ExceptT.run_bind, StateT.run_bind]
  cases h : m.run.run state with
  | mk result left => cases result <;> rfl

theorem ends_map {m : ExceptT ε (StateM σ) β} {f : β → α} :
    Ends (f <$> m) state ok err ↔ Ends m state (fun b left => ok (f b) left) err := by
  rw [map_eq_pure_bind, ends_bind]
  rfl

theorem ends_tryCatch {m : ExceptT ε (StateM σ) α} {handle : ε → ExceptT ε (StateM σ) α} :
    Ends (tryCatch m handle) state ok err ↔
      Ends m state ok (fun e left => Ends (handle e) left ok err) := by
  simp only [Ends, ExceptT.run_tryCatch, StateT.run_bind]
  cases h : m.run.run state with
  | mk result left => cases result <;> rfl

theorem ends_lift {result : Except ε α} :
    Ends (liftM result : ExceptT ε (StateM σ) α) state ok err ↔
      match result with
      | .ok a => ok a state
      | .error e => err e state := by
  cases result <;> rfl

theorem ends_lift_ok {a : α} :
    Ends (liftM (.ok a : Except ε α) : ExceptT ε (StateM σ) α) state ok err ↔ ok a state := Iff.rfl

theorem ends_get {ok : σ → σ → Prop} :
    Ends (get : ExceptT ε (StateM σ) σ) state ok err ↔ ok state state := Iff.rfl

theorem ends_set {left : σ} {ok : PUnit → σ → Prop} :
    Ends (set left : ExceptT ε (StateM σ) PUnit) state ok err ↔ ok ⟨⟩ left := Iff.rfl

theorem ends_modify {change : σ → σ} {ok : PUnit → σ → Prop} :
    Ends (modify change : ExceptT ε (StateM σ) PUnit) state ok err ↔ ok ⟨⟩ (change state) :=
  Iff.rfl

theorem Ends.mono {m : ExceptT ε (StateM σ) α} {ok' : α → σ → Prop} {err' : ε → σ → Prop}
    (h : Ends m state ok err) (hok : ∀ a left, ok a left → ok' a left)
    (herr : ∀ e left, err e left → err' e left) : Ends m state ok' err' := by
  revert h
  rw [Ends, Ends]
  split
  · exact hok _ _
  · exact herr _ _

theorem Ends.of_run_ok {m : ExceptT ε (StateM σ) α} {a : α} {left : σ} (h : Ends m state ok err)
    (hrun : m.run.run state = (.ok a, left)) : ok a left := by
  rw [Ends, hrun] at h
  exact h

/-- The state that is left when it does not matter how a computation ends. -/
theorem Ends.of_left {m : ExceptT ε (StateM σ) α} {P : σ → Prop}
    (h : Ends m state (fun _ left => P left) fun _ left => P left) : P (m.run.run state).2 := by
  rw [Ends] at h
  generalize m.run.run state = outcome at h ⊢
  obtain ⟨result, left⟩ := outcome
  cases result <;> exact h

/-- A computation that cannot fail has a result. -/
theorem Ends.exists_run_ok {m : ExceptT ε (StateM σ) α} (h : Ends m state ok fun _ _ => False) :
    ∃ a left, m.run.run state = (.ok a, left) ∧ ok a left := by
  rw [Ends] at h
  generalize m.run.run state = outcome at h ⊢
  obtain ⟨result, left⟩ := outcome
  cases result with
  | ok a => exact ⟨a, left, rfl, h⟩
  | error _ => exact h.elim

theorem run_bind_of_ok {m : ExceptT ε (StateM σ) β} {f : β → ExceptT ε (StateM σ) α} {b : β}
    {left : σ} (h : m.run.run state = (.ok b, left)) :
    (m >>= f).run.run state = (f b).run.run left := by
  rw [ExceptT.run_bind, StateT.run_bind, h]
  rfl

theorem Ends.of_run_error {m : ExceptT ε (StateM σ) α} {e : ε} {left : σ}
    (h : Ends m state ok err) (hrun : m.run.run state = (.error e, left)) : err e left := by
  rw [Ends, hrun] at h
  exact h

theorem Ends.and {m : ExceptT ε (StateM σ) α} {ok' : α → σ → Prop} {err' : ε → σ → Prop}
    (h : Ends m state ok err) (h' : Ends m state ok' err') :
    Ends m state (fun a left => ok a left ∧ ok' a left) (fun e left => err e left ∧ err' e left) := by
  revert h h'
  rw [Ends, Ends, Ends]
  split
  · exact fun h h' => ⟨h, h'⟩
  · exact fun h h' => ⟨h, h'⟩

end Ends

/-! ### Two computations side by side -/

/-- What holds of the results of two computations, or else of their errors, and of the states they
leave. One has a result if the other has. -/
def EndTogether (m m' : ExceptT ε (StateM σ) α) (state state' : σ) (ok : α → α → σ → σ → Prop)
    (err : ε → ε → σ → σ → Prop) : Prop :=
  match m.run.run state, m'.run.run state' with
  | (.ok a, left), (.ok a', left') => ok a a' left left'
  | (.error e, left), (.error e', left') => err e e' left left'
  | _, _ => False

section EndTogether

variable {state state' : σ} {ok : α → α → σ → σ → Prop} {err : ε → ε → σ → σ → Prop}

theorem endTogether_get {ok : σ → σ → σ → σ → Prop} :
    EndTogether (get : ExceptT ε (StateM σ) σ) get state state' ok err ↔
      ok state state' state state' := Iff.rfl

theorem EndTogether.mono {m m' : ExceptT ε (StateM σ) α} {ok' : α → α → σ → σ → Prop}
    {err' : ε → ε → σ → σ → Prop} (h : EndTogether m m' state state' ok err)
    (hok : ∀ a a' left left', ok a a' left left' → ok' a a' left left')
    (herr : ∀ e e' left left', err e e' left left' → err' e e' left left') :
    EndTogether m m' state state' ok' err' := by
  revert h
  rw [EndTogether, EndTogether]
  split
  · exact hok _ _ _ _
  · exact herr _ _ _ _
  · exact id

theorem EndTogether.of_run_ok {m m' : ExceptT ε (StateM σ) α} {a a' : α} {left left' : σ}
    (h : EndTogether m m' state state' ok err) (hrun : m.run.run state = (.ok a, left))
    (hrun' : m'.run.run state' = (.ok a', left')) : ok a a' left left' := by
  rw [EndTogether, hrun, hrun'] at h
  exact h

theorem EndTogether.bind {m m' : ExceptT ε (StateM σ) β} {f f' : β → ExceptT ε (StateM σ) α}
    (h : EndTogether m m' state state'
      (fun b b' left left' => EndTogether (f b) (f' b') left left' ok err) err) :
    EndTogether (m >>= f) (m' >>= f') state state' ok err := by
  revert h
  rw [EndTogether, EndTogether]
  simp only [ExceptT.run_bind, StateT.run_bind]
  obtain ⟨_ | _, _⟩ := m.run.run state <;> obtain ⟨_ | _, _⟩ := m'.run.run state'
  · exact id
  · exact False.elim
  · exact False.elim
  · exact id

theorem EndTogether.tryCatch {m m' : ExceptT ε (StateM σ) α}
    {handle handle' : ε → ExceptT ε (StateM σ) α}
    (h : EndTogether m m' state state' ok
      (fun e e' left left' => EndTogether (handle e) (handle' e') left left' ok err)) :
    EndTogether (tryCatch m handle) (tryCatch m' handle') state state' ok err := by
  revert h
  rw [EndTogether, EndTogether]
  simp only [ExceptT.run_tryCatch, StateT.run_bind]
  obtain ⟨_ | _, _⟩ := m.run.run state <;> obtain ⟨_ | _, _⟩ := m'.run.run state'
  · exact id
  · exact False.elim
  · exact False.elim
  · exact id

end EndTogether

end ResourceCatalog
