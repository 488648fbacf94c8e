import CongestionControl.Pevm.TryExecute
import CongestionControl.Pevm.Proofs.VmReaderProofs

/-!
# When an attempt ends

An attempt that is refused leaves the scheduler and the memory as they are, so `Pevm::try_execute`
returns at once or never: it never returns if the virtual machine names a blocking transaction that is
already executed. `GraphPevm::try_execute` gives up the second time.
-/

namespace CongestionControl.Pevm

def IncarnationStatus.IsDone (status : IncarnationStatus) : Prop :=
  status = .executed ∨ status = .validated

/-- `add_dependency` refuses exactly if the blocking transaction is executed, and changes nothing
then. -/
theorem Scheduler.addDependency_done_cases (s : Scheduler) (i j : TxIdx) :
    ((s.transactionsStatus j).status.IsDone ∧ s.addDependency i j = (s, false)) ∨
      (¬ (s.transactionsStatus j).status.IsDone ∧ ∃ s', s.addDependency i j = (s', true)) := by
  unfold Scheduler.addDependency IncarnationStatus.IsDone
  cases (s.transactionsStatus j).status with
  | executed => exact .inl ⟨.inl rfl, rfl⟩
  | validated => exact .inl ⟨.inr rfl, rfl⟩
  | readyToExecute => exact .inr ⟨by simp, _, rfl⟩
  | executing => exact .inr ⟨by simp, _, rfl⟩
  | aborting => exact .inr ⟨by simp, _, rfl⟩

theorem GraphScheduler.addDependency_done_cases (s : GraphScheduler) (i j : TxIdx) :
    ((s.transactionsStatus j).status.IsDone ∧ s.addDependency i j = (s, false)) ∨
      (¬ (s.transactionsStatus j).status.IsDone ∧ ∃ s', s.addDependency i j = (s', true)) := by
  unfold GraphScheduler.addDependency IncarnationStatus.IsDone
  cases (s.transactionsStatus j).status with
  | executed => exact .inl ⟨.inl rfl, rfl⟩
  | validated => exact .inl ⟨.inr rfl, rfl⟩
  | readyToExecute => exact .inr ⟨by simp, _, rfl⟩
  | executing => exact .inr ⟨by simp, _, rfl⟩
  | aborting => exact .inr ⟨by simp, _, rfl⟩

variable {M R E : Type} {vm : Vm M R E} {version : TxVersion}

section Pevm

variable {g : AttemptState Scheduler M R E}

/-- The virtual machine asks for another try, or names a transaction that is executed. -/
def Refused (vm : Vm M R E) (version : TxVersion) (memory : M)
    (status : TxIdx → IncarnationStatus) : Prop :=
  vm.execute memory version = .error .retry ∨
    ∃ j, vm.execute memory version = .error (.blocking j) ∧ (status j).IsDone

theorem attempt_refused (hreason : g.abortReason = none)
    (h : Refused vm version g.memory fun i => (g.scheduler.transactionsStatus i).status) :
    attempt vm version g = .inl g := by
  obtain ⟨scheduler, memory, results, reason⟩ := g
  obtain rfl : reason = none := hreason
  unfold attempt
  rcases h with hexec | ⟨j, hexec, hdone⟩
  · simp only [hexec]
    rfl
  · have hadd : scheduler.addDependency version.txIdx j = (scheduler, false) :=
      ((scheduler.addDependency_done_cases version.txIdx j).resolve_right fun h => h.1 hdone).2
    simp only [hexec, hadd]
    rfl

theorem attempt_done (h : g.abortReason = none →
      ¬ Refused vm version g.memory fun i => (g.scheduler.transactionsStatus i).status) :
    ∃ r, attempt vm version g = .inr r := by
  obtain ⟨scheduler, memory, results, reason⟩ := g
  unfold attempt
  cases hexec : vm.execute memory version with
  | ok r => exact ⟨_, rfl⟩
  | error e =>
    cases e with
    | retry =>
      cases reason with
      | none => exact absurd (.inl hexec) (h rfl)
      | some reason => exact ⟨_, rfl⟩
    | fallbackToSequential => exact ⟨_, rfl⟩
    | executionError e => exact ⟨_, rfl⟩
    | blocking j =>
      rcases scheduler.addDependency_done_cases version.txIdx j with ⟨hdone, hadd⟩ | ⟨-, s, hadd⟩
      · simp only [hadd]
        cases reason with
        | none => exact absurd (.inr ⟨j, hexec, hdone⟩) (h rfl)
        | some reason => exact ⟨_, rfl⟩
      · simp only [hadd]
        exact ⟨_, rfl⟩

/-- An attempt returns unless it is refused before the block was stopped. -/
theorem tryExecuteReturns_iff : TryExecuteReturns vm version g ↔
    (g.abortReason = none →
      ¬ Refused vm version g.memory fun i => (g.scheduler.transactionsStatus i).status) := by
  constructor
  · intro hreturns hreason hrefused
    exact Loop.not_returns_of_stuck (attempt_refused hreason hrefused) hreturns
  · intro h
    obtain ⟨r, hdone⟩ := attempt_done h
    exact Loop.returns_of_done hdone

end Pevm

section GraphPevm

variable {g : AttemptState GraphScheduler M R E}

theorem graphAttempt_retry (hvm : vm.execute g.memory version = .error .retry)
    (last : Option TxIdx) :
    graphAttempt vm version (g, last) =
      if g.abortReason.isNone && !g.scheduler.aborted then .inl (g, last) else .inr (g, none) := by
  simp only [graphAttempt, hvm]

theorem graphAttempt_cases (hvm : vm.execute g.memory version ≠ .error .retry)
    (last : Option TxIdx) :
    (∃ r, graphAttempt vm version (g, last) = .inr r) ∨
      ∃ j, vm.execute g.memory version = .error (.blocking j) ∧ last ≠ some j ∧
        graphAttempt vm version (g, last) = .inl (g, some j) := by
  obtain ⟨scheduler, memory, results, reason⟩ := g
  unfold graphAttempt
  dsimp only at hvm ⊢
  cases hexec : vm.execute memory version with
  | ok r => exact .inl ⟨_, rfl⟩
  | error e =>
    cases e with
    | retry => exact absurd hexec hvm
    | fallbackToSequential => exact .inl ⟨_, rfl⟩
    | executionError e => exact .inl ⟨_, rfl⟩
    | blocking j =>
      rcases scheduler.addDependency_done_cases version.txIdx j with ⟨-, hadd⟩ | ⟨-, s, hadd⟩
      · simp only [hadd]
        split_ifs with hstopped hlast
        · exact .inl ⟨_, rfl⟩
        · exact .inl ⟨_, rfl⟩
        · exact .inr ⟨j, rfl, hlast, rfl⟩
      · simp only [hadd]
        exact .inl ⟨_, rfl⟩

/-- Two passes are enough, unless the virtual machine asks for another try. -/
theorem graphTryExecuteReturns_iff : GraphTryExecuteReturns vm version g ↔
    (g.abortReason = none → g.scheduler.aborted = false →
      vm.execute g.memory version ≠ .error .retry) := by
  by_cases hvm : vm.execute g.memory version = .error .retry
  · by_cases hgo : g.abortReason = none ∧ g.scheduler.aborted = false
    · have hagain : graphAttempt vm version (g, none) = .inl (g, none) := by
        rw [graphAttempt_retry hvm, if_pos (by simp [hgo.1, hgo.2])]
      exact iff_of_false (Loop.not_returns_of_stuck hagain) fun h => h hgo.1 hgo.2 hvm
    · have hdone : graphAttempt vm version (g, none) = .inr (g, none) := by
        rw [graphAttempt_retry hvm]
        simpa [Option.isNone_iff_eq_none] using hgo
      exact iff_of_true (Loop.returns_of_done hdone) fun hnone hrun => absurd ⟨hnone, hrun⟩ hgo
  · refine iff_of_true ?_ fun _ _ => hvm
    rcases graphAttempt_cases hvm none with ⟨r, hdone⟩ | ⟨j, hexec, -, hagain⟩
    · exact Loop.returns_of_done hdone
    · refine Loop.returns_of_again hagain ?_
      rcases graphAttempt_cases hvm (some j) with ⟨r, hdone⟩ | ⟨j', hexec', hne, -⟩
      · exact Loop.returns_of_done hdone
      · rw [hexec] at hexec'
        cases hexec'
        exact absurd rfl hne

end GraphPevm

def readSender (storage : StorageReads Unit) (tx : TxCall) :
    Vm (MvMemory MemoryLocation MemoryValue) Unit Unit where
  transact memory version := do
    let view := memory.view fun _ => none
    let db ← (VmReader.new storage view version.txIdx tx).mapError .database
    let _ ← (db.basic storage view tx.caller).1.mapError .database
    return (memory, ⟨(), .needValidation⟩)

/-- Transaction 1 has the nonce 5 of an account with the nonce 0, and transaction 0 is validated. -/
def behindValidated : AttemptState Scheduler (MvMemory MemoryLocation MemoryValue) Unit Unit where
  scheduler := ((Scheduler.new 2).setStatus 0 ⟨0, .validated⟩).setStatus 1 ⟨0, .executing⟩
  memory := .new []
  executionResults _ := none
  abortReason := none

theorem wrongNonce_blocks :
    (readSender emptyAccounts ⟨1, none, some 5⟩).execute behindValidated.memory ⟨1, 0⟩ =
      .error (.blocking 0) := rfl

/-- The attempt is blocked by transaction 0 again and again. -/
theorem wrongNonce_never_returns :
    ¬ TryExecuteReturns (readSender emptyAccounts ⟨1, none, some 5⟩) ⟨1, 0⟩ behindValidated :=
  Loop.not_returns_of_stuck (attempt_refused rfl (.inr ⟨0, wrongNonce_blocks, .inr rfl⟩))

end CongestionControl.Pevm
