import Mathlib
import ResourceCatalog.Patch.Recipe
import ResourceCatalog.Patch.Settle

/-!
# Passes one after the other

Whatever the rule, settling is the repetition of one step: a pass, and its corrections applied. The
first of the passes that asks for nothing decides how settling ends. If it is one of the ten passes
allowed, the document it has found is the outcome, with what the first pass had asked for. Otherwise
the document is refused with what the last two passes asked for, so a rule that is never content is
always caught.
-/

namespace ResourceCatalog

variable {rule : Rule} {subject : String} {document : Json}

/-! ### A settled document -/

theorem correct_nil (document : Json) : correct document [] = document := by
  simp [correct, applicationOrder, applyAll, ItemRemoval.dedup]

/-- A pass that asks for nothing changes nothing, nor do those after it. -/
theorem iterate_passStep_of_settled {n m : Nat}
    (hsettled : pass rule subject ((passStep rule subject)^[n] document) = []) (hm : n ≤ m) :
    (passStep rule subject)^[m] document = (passStep rule subject)^[n] document := by
  have hfixed : passStep rule subject ((passStep rule subject)^[n] document) =
      (passStep rule subject)^[n] document := by
    rw [passStep, hsettled, correct_nil]
  obtain ⟨more, rfl⟩ := Nat.exists_eq_add_of_le hm
  rw [Nat.add_comm, Function.iterate_add_apply]
  exact Function.iterate_fixed hfixed more

theorem settle_of_settled (h : pass rule subject document = []) :
    settle rule subject document = .ok ⟨document, [], 1⟩ := by
  simp only [settle, maxPasses, settleFrom, h, Option.getD_none, Nat.zero_add]

/-! ### The passes that are left -/

theorem settleFrom_succ (h : pass rule subject document ≠ []) (first? : Option (List Correction))
    (made left : Nat) (previous last : List Correction) :
    settleFrom rule subject first? made previous last (left + 1) document =
      settleFrom rule subject (first?.or (some (pass rule subject document))) (made + 1) last
        (pass rule subject document) left (passStep rule subject document) := by
  obtain ⟨c, rest, hpass⟩ := List.exists_cons_of_ne_nil h
  rw [settleFrom, passStep, hpass]

theorem settleFrom_eq_ok {n left : Nat} (hleft : n < left)
    (hchanging : ∀ m < n, pass rule subject ((passStep rule subject)^[m] document) ≠ [])
    (hsettled : pass rule subject ((passStep rule subject)^[n] document) = [])
    (first? : Option (List Correction)) (made : Nat) (previous last : List Correction) :
    settleFrom rule subject first? made previous last left document =
      .ok ⟨(passStep rule subject)^[n] document, first?.getD (pass rule subject document),
        made + n + 1⟩ := by
  induction n generalizing left document first? made previous last with
  | zero =>
    obtain ⟨left, rfl⟩ := Nat.exists_eq_succ_of_ne_zero (Nat.ne_zero_of_lt hleft)
    have hnone : pass rule subject document = [] := hsettled
    rw [settleFrom, hnone]
    rfl
  | succ n ih =>
    obtain ⟨left, rfl⟩ := Nat.exists_eq_succ_of_ne_zero (Nat.ne_zero_of_lt hleft)
    have hpass : pass rule subject document ≠ [] := hchanging 0 (Nat.succ_pos n)
    rw [Nat.succ_eq_add_one, settleFrom_succ hpass, ih (Nat.lt_of_succ_lt_succ hleft)
      (fun m hm => hchanging (m + 1) (Nat.succ_lt_succ hm)) hsettled]
    cases first? <;> simp [Nat.add_right_comm, Nat.add_assoc]

theorem settleFrom_eq_error {left : Nat}
    (hchanging : ∀ m < left + 2, pass rule subject ((passStep rule subject)^[m] document) ≠ [])
    (first? : Option (List Correction)) (made : Nat) (previous last : List Correction) :
    settleFrom rule subject first? made previous last (left + 2) document =
      .error ⟨subject, pass rule subject ((passStep rule subject)^[left + 1] document),
        pass rule subject ((passStep rule subject)^[left] document)⟩ := by
  induction left generalizing document first? made previous last with
  | zero =>
    have hpass : pass rule subject document ≠ [] := hchanging 0 (by omega)
    have hnext : pass rule subject (passStep rule subject document) ≠ [] := hchanging 1 (by omega)
    rw [settleFrom_succ hpass, settleFrom_succ hnext]
    rfl
  | succ left ih =>
    have hpass : pass rule subject document ≠ [] := hchanging 0 (by omega)
    rw [settleFrom_succ hpass]
    exact ih (fun m hm => hchanging (m + 1) (Nat.succ_lt_succ hm)) _ _ _ _

/-! ### The passes allowed -/

theorem settle_of_changing
    (h : ∀ m < maxPasses, pass rule subject ((passStep rule subject)^[m] document) ≠ []) :
    settle rule subject document =
      .error ⟨subject, pass rule subject ((passStep rule subject)^[maxPasses - 1] document),
        pass rule subject ((passStep rule subject)^[maxPasses - 2] document)⟩ :=
  settleFrom_eq_error h none 0 [] []

/-- The first pass that asks for nothing decides how settling ends. -/
theorem settle_eq_of_first {n : Nat}
    (hchanging : ∀ m < n, pass rule subject ((passStep rule subject)^[m] document) ≠ [])
    (hsettled : pass rule subject ((passStep rule subject)^[n] document) = []) :
    settle rule subject document =
      if n < maxPasses then
        .ok ⟨(passStep rule subject)^[n] document, pass rule subject document, n + 1⟩
      else
        .error ⟨subject, pass rule subject ((passStep rule subject)^[maxPasses - 1] document),
          pass rule subject ((passStep rule subject)^[maxPasses - 2] document)⟩ := by
  split
  · next hallowed =>
    rw [settle, settleFrom_eq_ok hallowed hchanging hsettled, Nat.zero_add]
    rfl
  · next hrefused =>
    exact settle_of_changing fun m hm => hchanging m (lt_of_lt_of_le hm (not_lt.1 hrefused))

/-- Among the passes up to one that asks for nothing there is a first one. -/
theorem exists_first_settled {k : Nat}
    (hsettled : pass rule subject ((passStep rule subject)^[k] document) = []) :
    ∃ n ≤ k, (∀ m < n, pass rule subject ((passStep rule subject)^[m] document) ≠ []) ∧
      pass rule subject ((passStep rule subject)^[n] document) = [] := by
  classical
  have hsome : ∃ n, pass rule subject ((passStep rule subject)^[n] document) = [] := ⟨k, hsettled⟩
  exact ⟨Nat.find hsome, Nat.find_min' hsome hsettled, fun m hm => Nat.find_min hsome hm,
    Nat.find_spec hsome⟩

/-- What has been settled has come from a pass that asked for nothing. -/
theorem exists_settled_of_settle_eq_ok {s : Settled} (h : settle rule subject document = .ok s) :
    ∃ n < maxPasses, s.document = (passStep rule subject)^[n] document ∧
      pass rule subject s.document = [] := by
  by_cases hchanging : ∀ m < maxPasses,
      pass rule subject ((passStep rule subject)^[m] document) ≠ []
  · rw [settle_of_changing hchanging] at h
    cases h
  · push Not at hchanging
    obtain ⟨k, hk, hsettled⟩ := hchanging
    obtain ⟨n, hn, hbefore, hnone⟩ := exists_first_settled hsettled
    have hallowed : n < maxPasses := lt_of_le_of_lt hn hk
    rw [settle_eq_of_first hbefore hnone, if_pos hallowed] at h
    obtain rfl := Except.ok.inj h
    exact ⟨n, hallowed, rfl, hnone⟩

/-- Settling succeeds if and only if one of the first ten passes asks for nothing, and the first of
these tells the document and the number of passes; the document is then settled at once. Otherwise
the last two of the ten passes are reported. -/
theorem settle_by_passes (rule : Rule) (subject : String) (document : Json) :
    ((∃ s, settle rule subject document = .ok s) ↔
      ∃ k ≤ 9, pass rule subject ((passStep rule subject)^[k] document) = []) ∧
    (∀ k ≤ 9, pass rule subject ((passStep rule subject)^[k] document) = [] →
      (∀ m < k, pass rule subject ((passStep rule subject)^[m] document) ≠ []) →
        settle rule subject document =
            .ok ⟨(passStep rule subject)^[k] document, pass rule subject document, k + 1⟩ ∧
          settle rule subject ((passStep rule subject)^[k] document) =
            .ok ⟨(passStep rule subject)^[k] document, [], 1⟩) ∧
    ((∀ k ≤ 9, pass rule subject ((passStep rule subject)^[k] document) ≠ []) →
      settle rule subject document =
        .error ⟨subject, pass rule subject ((passStep rule subject)^[9] document),
          pass rule subject ((passStep rule subject)^[8] document)⟩) := by
  have hrefused : (∀ k ≤ 9, pass rule subject ((passStep rule subject)^[k] document) ≠ []) →
      settle rule subject document =
        .error ⟨subject, pass rule subject ((passStep rule subject)^[9] document),
          pass rule subject ((passStep rule subject)^[8] document)⟩ := fun hchanging =>
    settle_of_changing fun m hm => hchanging m (Nat.le_of_lt_succ hm)
  refine ⟨⟨?_, ?_⟩, ?_, hrefused⟩
  · rintro ⟨s, hs⟩
    obtain ⟨n, hn, hdocument, hsettled⟩ := exists_settled_of_settle_eq_ok hs
    exact ⟨n, Nat.le_of_lt_succ hn, hdocument ▸ hsettled⟩
  · rintro ⟨k, hk, hsettled⟩
    obtain ⟨n, hn, hchanging, hnone⟩ := exists_first_settled hsettled
    have hallowed : n < maxPasses := lt_of_le_of_lt hn (Nat.lt_succ_of_le hk)
    have hfirst := settle_eq_of_first hchanging hnone
    rw [if_pos hallowed] at hfirst
    exact ⟨_, hfirst⟩
  · intro k hk hsettled hchanging
    constructor
    · rw [settle_eq_of_first hchanging hsettled]
      exact if_pos (Nat.lt_succ_of_le hk)
    · exact settle_of_settled hsettled

/-! #### A rule that comes to an end and one that does not -/

/-- The rule that counts `n` down to zero. -/
def countingDown : Rule := (Recipe.when [] [(.countDown "n", "one less")] []).rule

/-- The rule that negates `flag` in every pass. -/
def negating : Rule := (Recipe.when [] [(.toggle "flag", "the other way round")] []).rule

def counted (n : Nat) : Json := .obj [("n", .nat n)]

def flagged (on : Bool) : Json := .obj [("flag", .bool on)]

theorem iterate_passStep_negating (subject : String) (k : Nat) :
    ∃ on, (passStep negating subject)^[k] (flagged true) = flagged on := by
  induction k with
  | zero => exact ⟨true, rfl⟩
  | succ k ih =>
    obtain ⟨on, hon⟩ := ih
    refine ⟨!on, ?_⟩
    rw [Function.iterate_succ_apply', hon]
    cases on <;> cbv

theorem pass_negating_ne_nil (subject : String) (on : Bool) :
    pass negating subject (flagged on) ≠ [] := by
  have hone : (pass negating subject (flagged on)).length = 1 := by
    cases on <;> cbv
  exact List.ne_nil_of_length_eq_add_one hone

/-- Counting down from two takes three passes, and negating never ends. -/
theorem settle_by_passes_countingDown_negating :
    (pass countingDown "Test" ((passStep countingDown "Test")^[2] (counted 2)) = [] ∧
      (∀ m < 2, pass countingDown "Test" ((passStep countingDown "Test")^[m] (counted 2)) ≠ []) ∧
      settle countingDown "Test" (counted 2) =
        .ok ⟨counted 0, pass countingDown "Test" (counted 2), 3⟩ ∧
      settle countingDown "Test" (counted 0) = .ok ⟨counted 0, [], 1⟩) ∧
    (∀ k ≤ 9, pass negating "Test" ((passStep negating "Test")^[k] (flagged true)) ≠ []) ∧
      settle negating "Test" (flagged true) =
        .error ⟨"Test", pass negating "Test" (flagged false),
          pass negating "Test" (flagged true)⟩ := by
  have hsettled : pass countingDown "Test" ((passStep countingDown "Test")^[2] (counted 2)) = [] := by
    cbv
  have hcounting : ∀ m < 2,
      pass countingDown "Test" ((passStep countingDown "Test")^[m] (counted 2)) ≠ [] := by
    intro m hm
    have hone : (pass countingDown "Test"
        ((passStep countingDown "Test")^[m] (counted 2))).length = 1 := by
      interval_cases m <;> cbv
    exact List.ne_nil_of_length_eq_add_one hone
  have hnegating : ∀ k ≤ 9,
      pass negating "Test" ((passStep negating "Test")^[k] (flagged true)) ≠ [] := by
    intro k _
    obtain ⟨on, hon⟩ := iterate_passStep_negating "Test" k
    rw [hon]
    exact pass_negating_ne_nil "Test" on
  have hlast : (passStep negating "Test")^[9] (flagged true) = flagged false := by cbv
  have hprevious : (passStep negating "Test")^[8] (flagged true) = flagged true := by cbv
  have hzero : (passStep countingDown "Test")^[2] (counted 2) = counted 0 := by cbv
  have hok := (settle_by_passes countingDown "Test" (counted 2)).2.1 2 (by decide) hsettled
    hcounting
  have herror := (settle_by_passes negating "Test" (flagged true)).2.2 hnegating
  rw [hzero] at hok
  rw [hlast, hprevious] at herror
  exact ⟨⟨hsettled, hcounting, hok.1, hok.2⟩, hnegating, herror⟩

end ResourceCatalog
