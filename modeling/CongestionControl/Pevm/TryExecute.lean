import CongestionControl.Lib.Loop
import CongestionControl.Pevm.GraphScheduler
import CongestionControl.Pevm.Scheduler
import CongestionControl.Pevm.VmReader

/-!
# Attempts to execute a transaction

`try_execute` of `pevm.rs` and of `graph_pevm.rs`, with the errors of `Vm::execute`. The virtual machine
is a parameter: it depends on the shared memory, and changes it only if it succeeds. The cause of a
blocked read is left out.
-/

namespace CongestionControl.Pevm

inductive EvmError (E : Type)
  | database (e : VmReadError)
  | lackOfFundForMaxFee
  | nonceTooHigh
  | other (e : E)
  deriving DecidableEq

inductive VmExecutionError (E : Type)
  | retry
  | fallbackToSequential
  | blocking (txIdx : TxIdx)
  | executionError (e : EvmError E)
  deriving DecidableEq

def VmExecutionError.ofRead {E : Type} : VmReadError → VmExecutionError E
  | .read .inconsistentRead => .retry
  | .selfDestructedAccount => .fallbackToSequential
  | .read (.blockingEstimate txIdx) => .blocking txIdx
  | .read (.blockingNonce txIdx) => .blocking txIdx
  | e => .executionError (.database e)

structure VmExecutionResult (R : Type) where
  executionResult : R
  flags : FinishExecFlags

structure Vm (M R E : Type) where
  transact : M → TxVersion → Except (EvmError E) (M × VmExecutionResult R)

namespace Vm

variable {M R E : Type}

/-- The errors at the end of `execute`: a lack of funds and a nonce that is too high are blamed on the
transaction before. -/
def executionError (txIdx : TxIdx) : EvmError E → VmExecutionError E
  | .database e => .ofRead e
  | .lackOfFundForMaxFee =>
    if txIdx > 0 then .blocking (txIdx - 1) else .executionError .lackOfFundForMaxFee
  | .nonceTooHigh => if txIdx > 0 then .blocking (txIdx - 1) else .executionError .nonceTooHigh
  | e => .executionError e

def execute (vm : Vm M R E) (memory : M) (version : TxVersion) :
    Except (VmExecutionError E) (M × VmExecutionResult R) :=
  (vm.transact memory version).mapError (executionError version.txIdx)

end Vm

inductive AbortReason (E : Type)
  | fallbackToSequential
  | executionError (e : EvmError E)
  deriving DecidableEq

structure AttemptState (S M R E : Type) where
  scheduler : S
  memory : M
  executionResults : TxIdx → Option R
  abortReason : Option (AbortReason E)

namespace AttemptState

variable {S M R E : Type}

def stop (g : AttemptState S M R E) (scheduler : S) (reason : AbortReason E) :
    AttemptState S M R E :=
  { g with scheduler, abortReason := some (g.abortReason.getD reason) }

def store (g : AttemptState S M R E) (txIdx : TxIdx) (memory : M) (executionResult : R) :
    AttemptState S M R E :=
  { g with
    memory
    executionResults := Function.update g.executionResults txIdx (some executionResult) }

end AttemptState

variable {M R E : Type}

def attempt (vm : Vm M R E) (version : TxVersion) (g : AttemptState Scheduler M R E) :
    AttemptState Scheduler M R E ⊕ AttemptState Scheduler M R E × Option Task :=
  match vm.execute g.memory version with
  | .error .retry => if g.abortReason.isNone then .inl g else .inr (g, none)
  | .error .fallbackToSequential =>
    .inr (g.stop g.scheduler.abort .fallbackToSequential, none)
  | .error (.blocking blockingTxIdx) =>
    match g.scheduler.addDependency version.txIdx blockingTxIdx with
    | (scheduler, true) => .inr ({ g with scheduler }, none)
    -- The blocking transaction was executed: try again at once.
    | (scheduler, false) =>
      if g.abortReason.isNone then .inl { g with scheduler } else .inr ({ g with scheduler }, none)
  | .error (.executionError e) => .inr (g.stop g.scheduler.abort (.executionError e), none)
  | .ok (memory, result) =>
    let g := g.store version.txIdx memory result.executionResult
    let (scheduler, task) := g.scheduler.finishExecution version result.flags
    .inr ({ g with scheduler }, task)

/-- The loop body of `GraphPevm::try_execute`, which keeps the transaction that blocked it last. -/
def graphAttempt (vm : Vm M R E) (version : TxVersion)
    (s : AttemptState GraphScheduler M R E × Option TxIdx) :
    (AttemptState GraphScheduler M R E × Option TxIdx) ⊕
      AttemptState GraphScheduler M R E × Option Task :=
  let (g, lastFailedBlocking) := s
  match vm.execute g.memory version with
  | .error .retry =>
    if g.abortReason.isNone && !g.scheduler.aborted then .inl (g, lastFailedBlocking)
    else .inr (g, none)
  | .error .fallbackToSequential =>
    .inr (g.stop g.scheduler.abort .fallbackToSequential, none)
  | .error (.blocking blockingTxIdx) =>
    match g.scheduler.addDependency version.txIdx blockingTxIdx with
    | (scheduler, true) => .inr ({ g with scheduler }, none)
    | (scheduler, false) =>
      let g := { g with scheduler }
      if g.abortReason.isSome || g.scheduler.aborted then .inr (g, none)
      -- The second time in a row: give up instead of trying forever.
      else if lastFailedBlocking = some blockingTxIdx then
        .inr (g.stop g.scheduler.abort .fallbackToSequential, none)
      else .inl (g, some blockingTxIdx)
  | .error (.executionError e) => .inr (g.stop g.scheduler.abort (.executionError e), none)
  | .ok (memory, result) =>
    let g := g.store version.txIdx memory result.executionResult
    let (scheduler, task) := g.scheduler.finishExecution version result.flags
    .inr ({ g with scheduler }, task)

def TryExecuteReturns (vm : Vm M R E) (version : TxVersion) (g : AttemptState Scheduler M R E) :
    Prop :=
  Loop.Returns (attempt vm version) g

def GraphTryExecuteReturns (vm : Vm M R E) (version : TxVersion)
    (g : AttemptState GraphScheduler M R E) : Prop :=
  Loop.Returns (graphAttempt vm version) (g, none)

end CongestionControl.Pevm
