import CongestionControl.Pevm.Scheduler
import CongestionControl.Pevm.Proofs.LifecycleProofs

/-!
# Proofs: what the calls on the scheduler do

One specification for each function of `Scheduler`; the proofs about the engine use these and never
unfold the functions.
-/

namespace CongestionControl.Pevm.Scheduler

open Function (update)

/-! ## `next_task` -/

def PollOutcome (s s' : Scheduler) : Poll → Prop
  | .again => s'.transactionsStatus = s.transactionsStatus
  | .done none => s'.transactionsStatus = s.transactionsStatus ∧
      s'.blockSize ≤ s'.executionIdx ∧ s'.blockSize ≤ s'.validationIdx ∧
      s'.blockSize - s'.minValidationIdx ≤ s'.numValidated
  | .done (some (.execution v)) => v.txIdx < s.blockSize ∧
      s.transactionsStatus v.txIdx = ⟨v.txIncarnation, .readyToExecute⟩ ∧
      s'.transactionsStatus = update s.transactionsStatus v.txIdx ⟨v.txIncarnation, .executing⟩
  | .done (some (.validation v)) => s'.transactionsStatus = s.transactionsStatus ∧
      v.txIdx < s.blockSize ∧ (s.transactionsStatus v.txIdx).incarnation = v.txIncarnation ∧
      ((s.transactionsStatus v.txIdx).status = .executed ∨
        (s.transactionsStatus v.txIdx).status = .validated)

/-- What `next_task` does to a scheduler that is not aborted: the two indices only grow, they pass
no ready transaction, and they pass a finished one only by returning its validation task. -/
structure PollSpec (s s' : Scheduler) (r : Poll) : Prop where
  blockSize : s'.blockSize = s.blockSize
  dependents : s'.transactionsDependents = s.transactionsDependents
  minValidation : s'.minValidationIdx = s.minValidationIdx
  numValidated : s'.numValidated = s.numValidated
  aborted : s'.aborted = s.aborted
  execution_le : s.executionIdx ≤ s'.executionIdx
  execution_skip : ∀ i, s.executionIdx ≤ i → i < s'.executionIdx → i < s.blockSize →
    (s'.transactionsStatus i).status ≠ .readyToExecute
  validation_le : s.validationIdx ≤ s'.validationIdx
  validation_skip : ∀ i, s.validationIdx ≤ i → i < s'.validationIdx → i < s.blockSize →
    (s'.transactionsStatus i).status = .executing ∨ (s'.transactionsStatus i).status = .aborting ∨
      ∃ k, r = .done (some (.validation ⟨i, k⟩))
  outcome : PollOutcome s s' r

variable {s : Scheduler}

theorem PollOutcome.status_eq {s' : Scheduler} {r : Poll} (h : PollOutcome s s' r) {i : TxIdx}
    (hi : (s.transactionsStatus i).status ≠ .readyToExecute) :
    s'.transactionsStatus i = s.transactionsStatus i := by
  match r with
  | .again => rw [show s'.transactionsStatus = s.transactionsStatus from h]
  | .done none => rw [h.1]
  | .done (some (.execution v)) =>
    obtain ⟨-, hr, hs⟩ := h
    rw [hs, Function.update_of_ne]
    rintro rfl
    exact hi (by rw [hr])
  | .done (some (.validation v)) => rw [h.1]

theorem PollSpec.trans {s1 s2 : Scheduler} {r : Poll} (h1 : PollSpec s s1 .again)
    (h2 : PollSpec s1 s2 r) : PollSpec s s2 r where
  blockSize := h2.blockSize.trans h1.blockSize
  dependents := h2.dependents.trans h1.dependents
  minValidation := h2.minValidation.trans h1.minValidation
  numValidated := h2.numValidated.trans h1.numValidated
  aborted := h2.aborted.trans h1.aborted
  execution_le := h1.execution_le.trans h2.execution_le
  execution_skip := by
    intro i hlo hhi hn
    by_cases hi : i < s1.executionIdx
    · have hr := h1.execution_skip i hlo hi hn
      rw [h2.outcome.status_eq hr]
      exact hr
    · exact h2.execution_skip i (by omega) hhi (by rw [h1.blockSize]; exact hn)
  validation_le := h1.validation_le.trans h2.validation_le
  validation_skip := by
    intro i hlo hhi hn
    by_cases hi : i < s1.validationIdx
    · rcases h1.validation_skip i hlo hi hn with hs | hs | ⟨k, hk⟩
      · exact .inl (by rw [h2.outcome.status_eq (by rw [hs]; simp), hs])
      · exact .inr (.inl (by rw [h2.outcome.status_eq (by rw [hs]; simp), hs]))
      · cases hk
    · exact h2.validation_skip i (by omega) hhi (by rw [h1.blockSize]; exact hn)
  outcome := by
    have hst : s1.transactionsStatus = s.transactionsStatus := h1.outcome
    have hbs := h1.blockSize
    have h := h2.outcome
    match r with
    | .again => exact (show s2.transactionsStatus = _ from h).trans hst
    | .done none => exact ⟨h.1.trans hst, h.2⟩
    | .done (some (.execution v)) => simpa only [PollOutcome, hst, hbs] using h
    | .done (some (.validation v)) => simpa only [PollOutcome, hst, hbs] using h

theorem PollSpec.rfl_again : PollSpec s s .again where
  blockSize := rfl
  dependents := rfl
  minValidation := rfl
  numValidated := rfl
  aborted := rfl
  execution_le := le_rfl
  execution_skip := fun i h1 h2 => absurd h2 (by omega)
  validation_le := le_rfl
  validation_skip := fun i h1 h2 => absurd h2 (by omega)
  outcome := rfl

theorem pollSpec_skip (h : s.validationIdx < s.blockSize →
      (s.transactionsStatus s.validationIdx).status = .executing ∨
      (s.transactionsStatus s.validationIdx).status = .aborting) :
    PollSpec s { s with validationIdx := s.validationIdx + 1 } .again where
  blockSize := rfl
  dependents := rfl
  minValidation := rfl
  numValidated := rfl
  aborted := rfl
  execution_le := le_rfl
  execution_skip := fun i h1 h2 => absurd h2 (by simp; omega)
  validation_le := Nat.le_succ _
  validation_skip := by
    intro i h1 h2 hn
    have hi : i = s.validationIdx := by simp at h2; omega
    subst hi
    exact (h hn).imp id .inl
  outcome := rfl

theorem tryExecute_cases (s : Scheduler) (i : TxIdx) :
    (∃ k, i < s.blockSize ∧ s.transactionsStatus i = ⟨k, .readyToExecute⟩ ∧
      s.tryExecute i = (s.setStatus i ⟨k, .executing⟩, some ⟨i, k⟩)) ∨
    ((i < s.blockSize → (s.transactionsStatus i).status ≠ .readyToExecute) ∧
      s.tryExecute i = (s, none)) := by
  unfold tryExecute
  by_cases hi : i < s.blockSize
  · by_cases hr : (s.transactionsStatus i).status = .readyToExecute
    · refine .inl ⟨(s.transactionsStatus i).incarnation, hi, ?_, by simp [hi, hr]⟩
      rw [← hr]
    · exact .inr ⟨fun _ => hr, by simp [hi, hr]⟩
  · exact .inr ⟨fun h => absurd h hi, by simp [hi]⟩

theorem pollExecution_spec (s : Scheduler) : PollSpec s s.pollExecution.1 s.pollExecution.2 := by
  unfold pollExecution
  rcases tryExecute_cases { s with executionIdx := s.executionIdx + 1 } s.executionIdx with
    ⟨k, hi, hr, he⟩ | ⟨hr, he⟩
  · rw [he]
    exact
      { blockSize := rfl, dependents := rfl, minValidation := rfl, numValidated := rfl
        aborted := rfl
        execution_le := Nat.le_succ _
        execution_skip := by
          intro i h1 h2 _
          have hi' : i = s.executionIdx := by simp [setStatus] at h2; omega
          simp [setStatus, hi']
        validation_le := le_rfl
        validation_skip := fun i h1 h2 => absurd h2 (by simp [setStatus]; omega)
        outcome := ⟨hi, hr, rfl⟩ }
  · rw [he]
    exact
      { blockSize := rfl, dependents := rfl, minValidation := rfl, numValidated := rfl
        aborted := rfl
        execution_le := Nat.le_succ _
        execution_skip := by
          intro i h1 h2 hn
          have hi' : i = s.executionIdx := by simp at h2; omega
          subst hi'
          exact hr hn
        validation_le := le_rfl
        validation_skip := fun i h1 h2 => absurd h2 (by simp; omega)
        outcome := rfl }

theorem pollSpec_validate (hn : s.validationIdx < s.blockSize)
    (hst : (s.transactionsStatus s.validationIdx).status = .executed ∨
      (s.transactionsStatus s.validationIdx).status = .validated) :
    PollSpec s { s with validationIdx := s.validationIdx + 1 } (.done (some (.validation
      ⟨s.validationIdx, (s.transactionsStatus s.validationIdx).incarnation⟩))) where
  blockSize := rfl
  dependents := rfl
  minValidation := rfl
  numValidated := rfl
  aborted := rfl
  execution_le := le_rfl
  execution_skip := fun i h1 h2 => absurd h2 (by simp; omega)
  validation_le := Nat.le_succ _
  validation_skip := by
    intro i h1 h2 _
    have hi : i = s.validationIdx := by simp at h2; omega
    exact .inr (.inr ⟨_, by rw [hi]⟩)
  outcome := ⟨rfl, hn, rfl, hst⟩

theorem pollSpec_steal (hn : s.validationIdx < s.blockSize)
    (hst : (s.transactionsStatus s.validationIdx).status = .readyToExecute) :
    PollSpec s ({ s with validationIdx := s.validationIdx + 1 }.setStatus s.validationIdx
      { s.transactionsStatus s.validationIdx with status := .executing }) (.done (some (.execution
      ⟨s.validationIdx, (s.transactionsStatus s.validationIdx).incarnation⟩))) where
  blockSize := rfl
  dependents := rfl
  minValidation := rfl
  numValidated := rfl
  aborted := rfl
  execution_le := le_rfl
  execution_skip := fun i h1 h2 => absurd h2 (by simp [setStatus]; omega)
  validation_le := Nat.le_succ _
  validation_skip := by
    intro i h1 h2 _
    have hi : i = s.validationIdx := by simp [setStatus] at h2; omega
    exact .inl (by simp [setStatus, hi])
  outcome := ⟨hn, by rw [← hst], rfl⟩

theorem pollTask_spec (hab : s.aborted = false) :
    PollSpec s s.pollTask.1 s.pollTask.2 := by
  unfold pollTask
  rw [if_neg (by simp [hab])]
  by_cases hdone : s.blockSize ≤ s.executionIdx ∧ s.blockSize ≤ s.validationIdx
  · rw [if_pos hdone]
    by_cases hnum : s.blockSize - s.minValidationIdx ≤ s.numValidated
    · rw [if_pos hnum]
      exact { PollSpec.rfl_again with
        validation_skip := fun i h1 h2 => absurd h1 (Nat.not_le.mpr h2)
        outcome := ⟨rfl, hdone.1, hdone.2, hnum⟩ }
    · rw [if_neg hnum]
      exact PollSpec.rfl_again
  rw [if_neg hdone]
  by_cases hlt : s.validationIdx < s.executionIdx
  · rw [if_pos hlt]
    by_cases hn : s.validationIdx < s.blockSize
    · simp only [hn, if_true]
      -- The status of the fetched transaction decides.
      cases hst : (s.transactionsStatus s.validationIdx).status with
      | readyToExecute => exact pollSpec_steal hn hst
      | executing => exact (pollSpec_skip fun _ => .inl hst).trans (pollExecution_spec _)
      | executed => exact pollSpec_validate hn (.inl hst)
      | validated => exact pollSpec_validate hn (.inr hst)
      | aborting => exact pollSpec_skip fun _ => .inr hst
    · simp only [hn, if_false]
      exact (pollSpec_skip fun h => absurd h hn).trans (pollExecution_spec _)
  · rw [if_neg hlt]
    exact pollExecution_spec s

def pollOf : Option (Option Task) → Poll
  | none => .again
  | some task => .done task

theorem nextTask_spec (fuel : Nat) (hab : s.aborted = false) :
    PollSpec s (s.nextTask fuel).1 (pollOf (s.nextTask fuel).2) := by
  induction fuel generalizing s with
  | zero => exact PollSpec.rfl_again
  | succ fuel ih =>
    have h := pollTask_spec hab
    unfold nextTask
    cases hp : s.pollTask with
    | mk s1 r =>
      rw [hp] at h
      cases r with
      | done task => exact h
      | again => exact h.trans (ih (h.aborted.trans hab))

/-! ## `add_dependency` -/

theorem addDependency_cases (s : Scheduler) (i b : TxIdx) :
    ((s.transactionsStatus b).status ≠ .executed ∧ (s.transactionsStatus b).status ≠ .validated ∧
      s.addDependency i b = ({ s with
        transactionsStatus := update s.transactionsStatus i
          { s.transactionsStatus i with status := .aborting }
        transactionsDependents := update s.transactionsDependents b
          (s.transactionsDependents b ++ [i]) }, true)) ∨
    s.addDependency i b = (s, false) := by
  unfold addDependency
  cases hb : (s.transactionsStatus b).status with
  | executed => exact .inr rfl
  | validated => exact .inr rfl
  | readyToExecute => exact .inl ⟨by simp, by simp, rfl⟩
  | executing => exact .inl ⟨by simp, by simp, rfl⟩
  | aborting => exact .inl ⟨by simp, by simp, rfl⟩

/-! ## `finish_execution` -/

theorem resumed_cons {status : TxIdx → TxStatus} {d : TxIdx} {rest : List TxIdx}
    (hd : d ∉ rest) :
    resumed (update status d ⟨(status d).incarnation + 1, .readyToExecute⟩) rest =
      resumed status (d :: rest) := by
  funext i
  by_cases hi : i = d
  · subst hi
    simp [resumed, hd]
  · simp [resumed, hi]

theorem foldl_resumeDependent : ∀ (deps : List TxIdx) (s : Scheduler), deps.Nodup →
    ∃ e, deps.foldl resumeDependent s =
        { s with transactionsStatus := resumed s.transactionsStatus deps, executionIdx := e } ∧
      e ≤ s.executionIdx ∧ ∀ d ∈ deps, e ≤ d
  | [], s, _ => by
    refine ⟨s.executionIdx, ?_, le_rfl, by simp⟩
    simp only [List.foldl_nil]
    rfl
  | d :: rest, s, hnd => by
    obtain ⟨hd, hrest⟩ := List.nodup_cons.mp hnd
    obtain ⟨e, he, hle, hall⟩ := foldl_resumeDependent rest (s.resumeDependent d) hrest
    refine ⟨e, ?_, hle.trans (Nat.min_le_left _ _), ?_⟩
    · rw [List.foldl_cons, he, ← resumed_cons hd]
      rfl
    · intro x hx
      rcases List.mem_cons.mp hx with rfl | hx
      · exact hle.trans (Nat.min_le_right _ _)
      · exact hall x hx

/-- What `finish_execution` does for a transaction of the block that waits in no list of its own:
its dependents become ready, it becomes executed, and it is validated next unless the validation
index has yet to pass it. -/
structure FinishSpec (s s' : Scheduler) (v : TxVersion) (flags : FinishExecFlags)
    (task : Option Task) : Prop where
  blockSize : s'.blockSize = s.blockSize
  numValidated : s'.numValidated = s.numValidated
  aborted : s'.aborted = s.aborted
  status : s'.transactionsStatus = update
    (resumed s.transactionsStatus (s.transactionsDependents v.txIdx)) v.txIdx
    { s.transactionsStatus v.txIdx with status := .executed }
  dependents : s'.transactionsDependents = update s.transactionsDependents v.txIdx []
  minValidation : s'.minValidationIdx = min s.minValidationIdx v.txIdx
  execution_le : s'.executionIdx ≤ s.executionIdx
  execution_dep : ∀ d ∈ s.transactionsDependents v.txIdx, s'.executionIdx ≤ d
  validation : (v.txIdx < s.validationIdx ∧ task = some (.validation v) ∧
      s'.validationIdx = if flags.contains .wroteNewLocation then min s.validationIdx (v.txIdx + 1)
        else s.validationIdx) ∨
    (s.validationIdx ≤ v.txIdx ∧ task = none ∧ s'.validationIdx = s.validationIdx)

theorem finishExecution_spec {v : TxVersion} (flags : FinishExecFlags) (hn : v.txIdx < s.blockSize)
    (hnd : (s.transactionsDependents v.txIdx).Nodup)
    (hself : v.txIdx ∉ s.transactionsDependents v.txIdx) :
    FinishSpec s (s.finishExecution v flags).1 v flags (s.finishExecution v flags).2 := by
  obtain ⟨e, he, hle, hdep⟩ := foldl_resumeDependent (s.transactionsDependents v.txIdx)
    { s with transactionsDependents := update s.transactionsDependents v.txIdx [] } hnd
  have hres : s.resumeDependents v.txIdx = { s with
      transactionsStatus := resumed s.transactionsStatus (s.transactionsDependents v.txIdx)
      transactionsDependents := update s.transactionsDependents v.txIdx []
      executionIdx := e } := he
  have hst : resumed s.transactionsStatus (s.transactionsDependents v.txIdx) v.txIdx =
      s.transactionsStatus v.txIdx := by rw [resumed, if_neg hself]
  have hmin : min s.minValidationIdx v.txIdx < s.blockSize :=
    (Nat.min_le_right _ _).trans_lt hn
  have hmin' : ¬ v.txIdx < min s.minValidationIdx v.txIdx :=
    Nat.not_lt.mpr (Nat.min_le_right _ _)
  unfold finishExecution lowerMinValidation
  simp only [hres, FinishExecFlags.contains_needValidation, if_true, hmin, hmin', if_false]
  by_cases hv : v.txIdx < s.validationIdx
  · simp only [hv, if_true]
    cases hf : flags.contains .wroteNewLocation with
    | true =>
      exact
        { blockSize := rfl, numValidated := rfl, aborted := rfl, dependents := rfl
          minValidation := rfl
          status := by simp [setStatus, lowerValidation, hst]
          execution_le := hle
          execution_dep := hdep
          validation := .inl ⟨hv, rfl, by simp [setStatus, lowerValidation, hf]⟩ }
    | false =>
      exact
        { blockSize := rfl, numValidated := rfl, aborted := rfl, dependents := rfl
          minValidation := rfl
          status := by simp [setStatus, hst]
          execution_le := hle
          execution_dep := hdep
          validation := .inl ⟨hv, rfl, by simp [setStatus, hf]⟩ }
  · simp only [hv, if_false, settle, FinishExecFlags.contains_needValidation, if_true]
    exact
      { blockSize := rfl, numValidated := rfl, aborted := rfl, dependents := rfl
        minValidation := rfl
        status := by simp [setStatus, hst]
        execution_le := hle
        execution_dep := hdep
        validation := .inr ⟨Nat.not_lt.mp hv, rfl, rfl⟩ }

/-! ## `try_validation_abort` and `finish_validation` -/

/-- The abort looks at the status only: it succeeds for an executed or validated transaction,
whatever its incarnation is. -/
theorem tryValidationAbort_cases (s : Scheduler) (v : TxVersion) :
    ((s.transactionsStatus v.txIdx).status = .executed ∧
      s.tryValidationAbort v = ({ s with
        transactionsStatus := update s.transactionsStatus v.txIdx
          { s.transactionsStatus v.txIdx with status := .aborting } }, true)) ∨
    ((s.transactionsStatus v.txIdx).status = .validated ∧
      s.tryValidationAbort v = ({ s with
        transactionsStatus := update s.transactionsStatus v.txIdx
          { s.transactionsStatus v.txIdx with status := .aborting }
        numValidated := s.numValidated - 1 }, true)) ∨
    ((s.transactionsStatus v.txIdx).status ≠ .executed ∧
      (s.transactionsStatus v.txIdx).status ≠ .validated ∧ s.tryValidationAbort v = (s, false)) := by
  unfold tryValidationAbort
  cases hb : (s.transactionsStatus v.txIdx).status with
  | executed => exact .inl ⟨rfl, by simp [setStatus, hb]⟩
  | validated => exact .inr (.inl ⟨rfl, by simp [setStatus, hb]⟩)
  | readyToExecute => exact .inr (.inr ⟨by simp, by simp, by simp [hb]⟩)
  | executing => exact .inr (.inr ⟨by simp, by simp, by simp [hb]⟩)
  | aborting => exact .inr (.inr ⟨by simp, by simp, by simp [hb]⟩)

def readied (s : Scheduler) (i : TxIdx) : Scheduler :=
  (s.setReadyStatus i).lowerValidation (i + 1)

def reissued (s : Scheduler) (i : TxIdx) : Scheduler :=
  (s.readied i).setStatus i ⟨(s.transactionsStatus i).incarnation + 1, .executing⟩

/-- After an abort the transaction is ready again; it is issued at once if the execution index has
passed it. -/
theorem finishValidation_aborted (s : Scheduler) (v : TxVersion) (hn : v.txIdx < s.blockSize) :
    (v.txIdx < s.executionIdx ∧
      s.finishValidation v true = (s.reissued v.txIdx,
        some (.execution ⟨v.txIdx, (s.transactionsStatus v.txIdx).incarnation + 1⟩))) ∨
    (s.executionIdx ≤ v.txIdx ∧ s.finishValidation v true = (s.readied v.txIdx, none)) := by
  have hready : (s.readied v.txIdx).transactionsStatus v.txIdx =
      ⟨(s.transactionsStatus v.txIdx).incarnation + 1, .readyToExecute⟩ := by
    simp [readied, lowerValidation, setReadyStatus, setStatus]
  by_cases he : v.txIdx < s.executionIdx
  · refine .inl ⟨he, ?_⟩
    rcases tryExecute_cases (s.readied v.txIdx) v.txIdx with ⟨k, -, hk, ht⟩ | ⟨hr, -⟩
    · obtain ⟨rfl⟩ : k = (s.transactionsStatus v.txIdx).incarnation + 1 := by
        rw [hready] at hk
        exact ((TxStatus.mk.inj hk).1).symm
      have hgt : ((s.setReadyStatus v.txIdx).lowerValidation (v.txIdx + 1)).executionIdx >
          v.txIdx := he
      simp only [finishValidation, if_true, hgt]
      rw [show (s.setReadyStatus v.txIdx).lowerValidation (v.txIdx + 1) = s.readied v.txIdx from rfl,
        ht, reissued]
    · exact absurd (by rw [hready]) (hr hn)
  · refine .inr ⟨Nat.not_lt.mp he, ?_⟩
    have hgt : ¬ ((s.setReadyStatus v.txIdx).lowerValidation (v.txIdx + 1)).executionIdx >
        v.txIdx := he
    simp only [finishValidation, if_true, hgt, if_false]
    rfl

theorem finishValidation_passed (s : Scheduler) (v : TxVersion) :
    ((s.transactionsStatus v.txIdx).status = .executed ∧
      s.finishValidation v false = ({ s with
        transactionsStatus := update s.transactionsStatus v.txIdx
          { s.transactionsStatus v.txIdx with status := .validated }
        numValidated := s.numValidated + 1 }, none)) ∨
    ((s.transactionsStatus v.txIdx).status ≠ .executed ∧
      s.finishValidation v false = (s, none)) := by
  unfold finishValidation
  by_cases he : (s.transactionsStatus v.txIdx).status = .executed
  · exact .inl ⟨he, by simp [he, setStatus]⟩
  · exact .inr ⟨he, by simp [he]⟩

/-! ## Only `abort` stops a scheduler -/

theorem nextTask_aborted (fuel : Nat) (s : Scheduler) :
    (s.nextTask fuel).1.aborted = s.aborted := by
  cases hab : s.aborted with
  | false => rw [(nextTask_spec fuel hab).aborted, hab]
  | true => cases fuel <;> simp [nextTask, pollTask, hab]

theorem addDependency_aborted (s : Scheduler) (i b : TxIdx) :
    (s.addDependency i b).1.aborted = s.aborted := by
  rcases addDependency_cases s i b with ⟨-, -, h⟩ | h <;> rw [h]

theorem resumeDependents_aborted (s : Scheduler) (i : TxIdx) :
    (s.resumeDependents i).aborted = s.aborted := by
  have hfold : ∀ (deps : List TxIdx) (s : Scheduler),
      (deps.foldl resumeDependent s).aborted = s.aborted := by
    intro deps
    induction deps with
    | nil => exact fun _ => rfl
    | cons d rest ih => exact fun s => ih (s.resumeDependent d)
  exact hfold _ _

theorem settle_aborted (s : Scheduler) (v : TxVersion) (flags : FinishExecFlags) :
    (s.settle v flags).aborted = s.aborted := by
  simp [settle, setStatus]

theorem finishExecution_aborted (s : Scheduler) (v : TxVersion) (flags : FinishExecFlags) :
    (s.finishExecution v flags).1.aborted = s.aborted := by
  rw [← resumeDependents_aborted s v.txIdx]
  simp only [finishExecution, lowerMinValidation, FinishExecFlags.contains_needValidation, if_true]
  split
  · split
    · rw [settle_aborted]; split <;> rfl
    · split
      · show Scheduler.aborted (setStatus _ _ _) = _
        split <;> rfl
      · rw [settle_aborted]
  · rw [settle_aborted]

theorem tryValidationAbort_aborted (s : Scheduler) (v : TxVersion) :
    (s.tryValidationAbort v).1.aborted = s.aborted := by
  rcases tryValidationAbort_cases s v with ⟨-, h⟩ | ⟨-, h⟩ | ⟨-, -, h⟩ <;> rw [h]

theorem finishValidation_stopped (s : Scheduler) (v : TxVersion) (aborted : Bool) :
    (s.finishValidation v aborted).1.aborted = s.aborted := by
  cases aborted with
  | false => rcases finishValidation_passed s v with ⟨-, h⟩ | ⟨-, h⟩ <;> rw [h]
  | true =>
    simp only [finishValidation, if_true]
    split
    · rcases tryExecute_cases ((s.setReadyStatus v.txIdx).lowerValidation (v.txIdx + 1)) v.txIdx
        with ⟨k, -, -, h⟩ | ⟨-, h⟩ <;> rw [h] <;> rfl
    · rfl

end CongestionControl.Pevm.Scheduler
