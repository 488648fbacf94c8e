import CongestionControl.Lib.Mutex
import CongestionControl.Pevm.Lifecycle
import CongestionControl.Pevm.Scheduler

/-!
# The collaborative scheduler, step by step

The functions of `scheduler.rs` cut at every atomic operation and at every lock. Where a function does
atomic operations under a lock, the lock stays taken between the steps. A worker asks its environment
how an execution or a validation ends.
-/

namespace CongestionControl.Pevm

open Function (update)
open Transition

structure LockedScheduler extends Scheduler where
  statusLock : TxIdx → Bool
  issued : List TxVersion

inductive TaskEnd
  | blocked (blockingTxIdx : TxIdx)
  | executed (flags : FinishExecFlags)
  | valid
  | invalid
  /-- The block is stopped by an error, or was stopped meanwhile: the worker leaves. -/
  | stopped

inductive Point
  -- The loop of `next_task`.
  | loadAborted
  | loadExecutionIdx
  | loadValidationIdx (executionIdx : Nat)
  | loadNumValidated
  | loadMinValidationIdx (numValidated : Nat)
  | fetchValidationIdx
  | lookAt (txIdx : TxIdx)
  | fetchExecutionIdx
  | tryExecute (txIdx : TxIdx)
  | left
  -- An execution, with `add_dependency` and `finish_execution`.
  | executing (version : TxVersion)
  | failed (version : TxVersion)
  | addDependency (version : TxVersion) (blockingTxIdx : TxIdx)
  | pushDependent (version : TxVersion) (blockingTxIdx : TxIdx)
  | finishExecution (version : TxVersion) (flags : FinishExecFlags)
  | drainDependents (version : TxVersion) (flags : FinishExecFlags)
  | lowerExecutionIdx (version : TxVersion) (flags : FinishExecFlags) (dependent : TxIdx)
  | lowerMinValidationIdx (version : TxVersion) (flags : FinishExecFlags)
  | compareValidationIdx (version : TxVersion) (flags : FinishExecFlags)
  | lowerValidationIdx (version : TxVersion) (flags : FinishExecFlags) (bound : Nat)
      (validateNext : Bool)
  | settleValidating (version : TxVersion) (flags : FinishExecFlags)
  | countTwice (version : TxVersion) (flags : FinishExecFlags)
  | settle (version : TxVersion) (flags : FinishExecFlags)
  -- A validation, with `try_validation_abort` and `finish_validation`.
  | validating (version : TxVersion)
  | tryAbort (version : TxVersion)
  | uncount (version : TxVersion)
  | setAborting (version : TxVersion)
  | aborted (version : TxVersion)
  | lowerAfterAbort (version : TxVersion)
  | compareExecutionIdx (version : TxVersion)
  | confirm (version : TxVersion)
  | count (version : TxVersion)

namespace LockedScheduler

def new (blockSize : Nat) : LockedScheduler :=
  { Scheduler.new blockSize with statusLock := fun _ => false, issued := [] }

def setStatus (g : LockedScheduler) (txIdx : TxIdx) (tx : TxStatus) : LockedScheduler :=
  { g with transactionsStatus := update g.transactionsStatus txIdx tx }

def setDependents (g : LockedScheduler) (txIdx : TxIdx) (dependents : List TxIdx) :
    LockedScheduler :=
  { g with transactionsDependents := update g.transactionsDependents txIdx dependents }

def lock (g : LockedScheduler) (txIdx : TxIdx) : LockedScheduler :=
  { g with statusLock := update g.statusLock txIdx true }

def unlock (g : LockedScheduler) (txIdx : TxIdx) : LockedScheduler :=
  { g with statusLock := update g.statusLock txIdx false }

def issue (g : LockedScheduler) (version : TxVersion) : LockedScheduler :=
  { g.setStatus version.txIdx ⟨version.txIncarnation, .executing⟩ with
    issued := g.issued ++ [version] }

def withStatus (g : LockedScheduler) (txIdx : TxIdx) (status : IncarnationStatus) : TxStatus :=
  { g.transactionsStatus txIdx with status }

def setReadyStatus (g : LockedScheduler) (txIdx : TxIdx) : LockedScheduler :=
  g.setStatus txIdx ⟨(g.transactionsStatus txIdx).incarnation + 1, .readyToExecute⟩

def afterMinValidation (g : LockedScheduler) (version : TxVersion) (flags : FinishExecFlags)
    (minValidationIdx : Nat) : Point :=
  if minValidationIdx < g.blockSize then
    if version.txIdx < minValidationIdx then
      if flags.contains .wroteNewLocation then
        .lowerValidationIdx version flags minValidationIdx false
      else .settle version flags
    else .compareValidationIdx version flags
  else .settle version flags

def whenFree (g : LockedScheduler) (txIdx : TxIdx) (next : LockedScheduler × Point) :
    Option (LockedScheduler × Point) :=
  if g.statusLock txIdx then none else some next

def exec (g : LockedScheduler) : Point → TaskEnd → Option (LockedScheduler × Point)
  | .loadAborted, _ => some (g, if g.aborted then .left else .loadExecutionIdx)
  | .loadExecutionIdx, _ => some (g, .loadValidationIdx g.executionIdx)
  | .loadValidationIdx executionIdx, _ =>
    some (g, if g.blockSize ≤ executionIdx ∧ g.blockSize ≤ g.validationIdx then .loadNumValidated
      else if g.validationIdx < executionIdx then .fetchValidationIdx
      else .fetchExecutionIdx)
  | .loadNumValidated, _ => some (g, .loadMinValidationIdx g.numValidated)
  | .loadMinValidationIdx numValidated, _ =>
    some (g, if g.blockSize - g.minValidationIdx ≤ numValidated then .left else .loadAborted)
  | .fetchValidationIdx, _ =>
    some ({ g with validationIdx := g.validationIdx + 1 },
      if g.validationIdx < g.blockSize then .lookAt g.validationIdx else .fetchExecutionIdx)
  | .lookAt txIdx, _ =>
    let tx := g.transactionsStatus txIdx
    let version : TxVersion := ⟨txIdx, tx.incarnation⟩
    g.whenFree txIdx (match tx.status with
      | .readyToExecute => (g.issue version, .executing version)
      | .executed | .validated => (g, .validating version)
      | .aborting => (g, .loadAborted)
      | .executing => (g, .fetchExecutionIdx))
  | .fetchExecutionIdx, _ =>
    some ({ g with executionIdx := g.executionIdx + 1 }, .tryExecute g.executionIdx)
  | .tryExecute txIdx, _ =>
    if txIdx < g.blockSize then
      let tx := g.transactionsStatus txIdx
      let version : TxVersion := ⟨txIdx, tx.incarnation⟩
      g.whenFree txIdx (if tx.status = .readyToExecute then (g.issue version, .executing version)
        else (g, .loadAborted))
    else some (g, .loadAborted)
  | .left, _ => none
  | .executing version, .blocked blockingTxIdx =>
    if blockingTxIdx < version.txIdx then some (g, .addDependency version blockingTxIdx) else none
  | .executing version, .executed flags => some (g, .finishExecution version flags)
  | .executing version, .stopped => some ({ g with aborted := true }, .failed version)
  | .executing _, _ => none
  | .failed _, _ => none
  | .addDependency version blockingTxIdx, _ =>
    g.whenFree blockingTxIdx (match (g.transactionsStatus blockingTxIdx).status with
      -- The caller executes the transaction again.
      | .executed | .validated => (g, .executing version)
      | _ => (g.lock blockingTxIdx, .pushDependent version blockingTxIdx))
  | .pushDependent version blockingTxIdx, _ =>
    let blockingDependents := g.transactionsDependents blockingTxIdx ++ [version.txIdx]
    let g' := g.setStatus version.txIdx (g.withStatus version.txIdx .aborting)
    g.whenFree version.txIdx
      ((g'.setDependents blockingTxIdx blockingDependents).unlock blockingTxIdx, .loadAborted)
  | .finishExecution version flags, _ =>
    g.whenFree version.txIdx (g.lock version.txIdx, .drainDependents version flags)
  | .drainDependents version flags, _ =>
    match g.transactionsDependents version.txIdx with
    | [] => some (g, .lowerMinValidationIdx version flags)
    | txIdx :: rest =>
      g.whenFree txIdx ((g.setReadyStatus txIdx).setDependents version.txIdx rest,
        .lowerExecutionIdx version flags txIdx)
  | .lowerExecutionIdx version flags dependent, _ =>
    some ({ g with executionIdx := min g.executionIdx dependent }, .drainDependents version flags)
  | .lowerMinValidationIdx version flags, _ =>
    if flags.contains .needValidation then
      let minValidationIdx := min g.minValidationIdx version.txIdx
      some ({ g with minValidationIdx }, g.afterMinValidation version flags minValidationIdx)
    else some (g, g.afterMinValidation version flags g.minValidationIdx)
  | .compareValidationIdx version flags, _ =>
    some (g, if version.txIdx < g.validationIdx then
        if flags.contains .wroteNewLocation then
          .lowerValidationIdx version flags (version.txIdx + 1) true
        else .settleValidating version flags
      else .settle version flags)
  | .lowerValidationIdx version flags bound validateNext, _ =>
    some ({ g with validationIdx := min g.validationIdx bound },
      if validateNext then .settleValidating version flags else .settle version flags)
  | .settleValidating version flags, _ =>
    if flags.contains .needValidation then
      some ((g.setStatus version.txIdx (g.withStatus version.txIdx .executed)).unlock version.txIdx,
        .validating version)
    else some (g.setStatus version.txIdx (g.withStatus version.txIdx .validated),
      .countTwice version flags)
  -- This branch counts the transaction and falls through to the counting below.
  | .countTwice version flags, _ =>
    some ({ g with numValidated := g.numValidated + 1 }, .settle version flags)
  | .settle version flags, _ =>
    if flags.contains .needValidation then
      some ((g.setStatus version.txIdx (g.withStatus version.txIdx .executed)).unlock version.txIdx,
        .loadAborted)
    else some (g.setStatus version.txIdx (g.withStatus version.txIdx .validated), .count version)
  | .validating version, .valid => some (g, .confirm version)
  | .validating version, .invalid => some (g, .tryAbort version)
  | .validating _, .stopped => some (g, .left)
  | .validating _, _ => none
  | .tryAbort version, _ =>
    g.whenFree version.txIdx (match (g.transactionsStatus version.txIdx).status with
      | .validated => (g.lock version.txIdx, .uncount version)
      | .executed => (g.setStatus version.txIdx (g.withStatus version.txIdx .aborting),
          .aborted version)
      | _ => (g, .confirm version))
  | .uncount version, _ =>
    some ({ g with numValidated := g.numValidated - 1 }, .setAborting version)
  | .setAborting version, _ =>
    some ((g.setStatus version.txIdx (g.withStatus version.txIdx .aborting)).unlock version.txIdx,
      .aborted version)
  | .aborted version, _ =>
    g.whenFree version.txIdx (g.setReadyStatus version.txIdx, .lowerAfterAbort version)
  | .lowerAfterAbort version, _ =>
    some ({ g with validationIdx := min g.validationIdx (version.txIdx + 1) },
      .compareExecutionIdx version)
  | .compareExecutionIdx version, _ =>
    some (g, if g.executionIdx > version.txIdx then .tryExecute version.txIdx else .loadAborted)
  | .confirm version, _ =>
    g.whenFree version.txIdx (if (g.transactionsStatus version.txIdx).status = .executed then
        ((g.setStatus version.txIdx (g.withStatus version.txIdx .validated)).lock version.txIdx,
          .count version)
      else (g, .loadAborted))
  | .count version, _ =>
    some (({ g with numValidated := g.numValidated + 1 } : LockedScheduler).unlock version.txIdx,
      .loadAborted)

def program (blockSize : Nat) : Program LockedScheduler Point TaskEnd where
  shared := new blockSize
  start := .loadAborted
  exec := exec

end LockedScheduler

namespace Point

def role : Point → Role
  | .executing v | .failed v | .addDependency v _ | .pushDependent v _ | .finishExecution v _
  | .drainDependents v _ | .lowerExecutionIdx v _ _ | .lowerMinValidationIdx v _
  | .compareValidationIdx v _ | .lowerValidationIdx v _ _ _ | .settleValidating v _
  | .settle v _ => .executing v
  | .aborted v => .aborting v.txIdx
  | _ => .free

def lock : Point → Option TxIdx
  | .pushDependent _ blockingTxIdx => some blockingTxIdx
  | .drainDependents v _ | .lowerExecutionIdx v _ _ | .lowerMinValidationIdx v _
  | .compareValidationIdx v _ | .lowerValidationIdx v _ _ _ | .settleValidating v _
  | .countTwice v _ | .settle v _ | .uncount v | .setAborting v | .count v => some v.txIdx
  | _ => none

def tx : Point → Option TxIdx
  | .lookAt i => some i
  | .executing v | .failed v | .addDependency v _ | .pushDependent v _ | .finishExecution v _
  | .drainDependents v _ | .lowerExecutionIdx v _ _ | .lowerMinValidationIdx v _
  | .compareValidationIdx v _ | .lowerValidationIdx v _ _ _ | .settleValidating v _
  | .countTwice v _ | .settle v _ | .validating v | .tryAbort v | .uncount v | .setAborting v
  | .aborted v | .lowerAfterAbort v | .compareExecutionIdx v | .confirm v | .count v =>
    some v.txIdx
  | _ => none

def Marks (i : TxIdx) : Point → Prop
  | .uncount v | .setAborting v | .count v => v.txIdx = i
  | _ => False

/-- The count does not include the transaction though its status is Validated: the worker has taken
it out of the count, or has yet to put it in. -/
def Lags (i : TxIdx) : Point → Prop
  | .setAborting v | .count v => v.txIdx = i
  | _ => False

def Idle : Point → Prop
  | .uncount _ | .setAborting _ | .count _ | .countTwice _ _ => False
  | _ => True

/-- A move of a worker that changes neither its role nor its lock and leaves the count alone. -/
structure Calm (p l : Point) : Prop where
  role : l.role = p.role
  lock : l.lock = p.lock
  tx : l.tx = none ∨ l.tx = p.tx
  marks : ∀ i, ¬ l.Marks i
  lags : ∀ i, ¬ p.Lags i
  once : ∀ v flags, l ≠ .countTwice v flags

end Point

variable {ω : Type}

structure LockedScheduler.Agrees (g g' : LockedScheduler) : Prop where
  blockSize : g'.blockSize = g.blockSize
  status : g'.transactionsStatus = g.transactionsStatus
  dependents : g'.transactionsDependents = g.transactionsDependents
  issued : g'.issued = g.issued
  locks : g'.statusLock = g.statusLock
  numValidated : g'.numValidated = g.numValidated

def Counted (g : LockedScheduler) (points : ω → Point) (i : TxIdx) : Prop :=
  (g.transactionsStatus i).status = .validated ∧ ¬ ∃ w, (points w).Lags i

noncomputable instance (g : LockedScheduler) (points : ω → Point) :
    DecidablePred (Counted g points) := fun _ => Classical.propDecidable _

structure StepInv (n : Nat) (g : LockedScheduler) (points : ω → Point) : Prop where
  blockSize : g.blockSize = n
  cycle : LifeCycle g.transactionsStatus g.transactionsDependents fun w => (points w).role
  issue : IssueInv g.transactionsStatus g.issued
  locks : Mutex.LockInv g.statusLock fun w => (points w).lock
  bound : ∀ {w i}, (points w).tx = some i → i < n
  marked : ∀ {w i}, (points w).Marks i → (g.transactionsStatus i).status = .validated
  once : ∀ {w v flags}, points w ≠ .countTwice v flags
  count : g.numValidated = Nat.count (Counted g points) n

structure Bookkeeping (g : LockedScheduler) (points : ω → Point) : Prop where
  one_execution : ∀ {w w' v v'}, (points w).role = .executing v → (points w').role = .executing v' →
    v.txIdx = v'.txIdx → w = w'
  /-- No version is issued twice, and the incarnations of a transaction are issued in order. -/
  issued : g.issued.Pairwise fun a b => a.txIdx = b.txIdx → a.txIncarnation < b.txIncarnation
  /-- An aborting transaction is once in one list of dependents, or in the hands of one worker that
  has aborted it and has not called `finish_validation` yet. -/
  aborting : ∀ {i}, (g.transactionsStatus i).status = .aborting →
    ((∃ b, (g.transactionsDependents b).count i = 1 ∧
        ∀ b', b' ≠ b → i ∉ g.transactionsDependents b') ∧
      ∀ w, (points w).role ≠ .aborting i) ∨
    ((∃ w, (points w).role = .aborting i ∧ ∀ w', (points w').role = .aborting i → w' = w) ∧
      ∀ b, i ∉ g.transactionsDependents b)
  validated : (∀ i, g.statusLock i = false) → g.numValidated =
    Nat.count (fun i => (g.transactionsStatus i).status = .validated) g.blockSize

end CongestionControl.Pevm
