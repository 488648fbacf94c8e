import CongestionControl.Pevm.Types

/-!
# The collaborative scheduler

The functions of `scheduler.rs`, each as one function on the scheduler's state. The vectors of
mutexes are functions of the transaction index; every index used is below the block size.
-/

namespace CongestionControl.Pevm

open Function (update)

structure Scheduler where
  blockSize : Nat
  transactionsStatus : TxIdx → TxStatus
  transactionsDependents : TxIdx → List TxIdx
  executionIdx : Nat
  validationIdx : Nat
  minValidationIdx : Nat
  numValidated : Nat
  aborted : Bool

inductive Poll
  | again
  | done (task : Option Task)
  deriving DecidableEq, Repr

namespace Scheduler

def new (blockSize : Nat) : Scheduler where
  blockSize := blockSize
  transactionsStatus _ := ⟨0, .readyToExecute⟩
  transactionsDependents _ := []
  executionIdx := 0
  validationIdx := blockSize
  minValidationIdx := blockSize
  numValidated := 0
  aborted := false

def abort (s : Scheduler) : Scheduler := { s with aborted := true }

def setStatus (s : Scheduler) (txIdx : TxIdx) (tx : TxStatus) : Scheduler :=
  { s with transactionsStatus := update s.transactionsStatus txIdx tx }

def tryExecute (s : Scheduler) (txIdx : TxIdx) : Scheduler × Option TxVersion :=
  if txIdx < s.blockSize then
    let tx := s.transactionsStatus txIdx
    if tx.status = .readyToExecute then
      (s.setStatus txIdx { tx with status := .executing }, some ⟨txIdx, tx.incarnation⟩)
    else (s, none)
  else (s, none)

def pollExecution (s : Scheduler) : Scheduler × Poll :=
  match { s with executionIdx := s.executionIdx + 1 }.tryExecute s.executionIdx with
  | (s', some version) => (s', .done (some (.execution version)))
  | (s', none) => (s', .again)

def pollTask (s : Scheduler) : Scheduler × Poll :=
  if s.aborted then (s, .done none)
  else if s.blockSize ≤ s.executionIdx ∧ s.blockSize ≤ s.validationIdx then
    if s.blockSize - s.minValidationIdx ≤ s.numValidated then (s, .done none) else (s, .again)
  else if s.validationIdx < s.executionIdx then
    let txIdx := s.validationIdx
    let s := { s with validationIdx := s.validationIdx + 1 }
    if txIdx < s.blockSize then
      let tx := s.transactionsStatus txIdx
      match tx.status with
      -- "Steal" the execution job while holding the lock.
      | .readyToExecute => (s.setStatus txIdx { tx with status := .executing },
          .done (some (.execution ⟨txIdx, tx.incarnation⟩)))
      | .executed | .validated => (s, .done (some (.validation ⟨txIdx, tx.incarnation⟩)))
      | .aborting => (s, .again)
      -- The executing transaction decides about its validation when it is done.
      | .executing => s.pollExecution
    else s.pollExecution
  else s.pollExecution

/-- `next_task`, followed for at most `fuel` passes of its loop; `none` while it has not returned. -/
def nextTask : Nat → Scheduler → Scheduler × Option (Option Task)
  | 0, s => (s, none)
  | fuel + 1, s =>
    match s.pollTask with
    | (s', .done task) => (s', some task)
    | (s', .again) => nextTask fuel s'

def addDependency (s : Scheduler) (txIdx blockingTxIdx : TxIdx) : Scheduler × Bool :=
  match (s.transactionsStatus blockingTxIdx).status with
  | .executed | .validated => (s, false)
  | _ =>
    let s := s.setStatus txIdx { s.transactionsStatus txIdx with status := .aborting }
    let blockingDependents := s.transactionsDependents blockingTxIdx ++ [txIdx]
    ({ s with
      transactionsDependents := update s.transactionsDependents blockingTxIdx blockingDependents },
      true)

def setReadyStatus (s : Scheduler) (txIdx : TxIdx) : Scheduler :=
  s.setStatus txIdx ⟨(s.transactionsStatus txIdx).incarnation + 1, .readyToExecute⟩

def resumeDependent (s : Scheduler) (txIdx : TxIdx) : Scheduler :=
  let s := s.setReadyStatus txIdx
  { s with executionIdx := min s.executionIdx txIdx }

def resumeDependents (s : Scheduler) (txIdx : TxIdx) : Scheduler :=
  (s.transactionsDependents txIdx).foldl resumeDependent
    { s with transactionsDependents := update s.transactionsDependents txIdx [] }

def lowerMinValidation (s : Scheduler) (txIdx : TxIdx) (flags : FinishExecFlags) :
    Scheduler × Nat :=
  if flags.contains .needValidation then
    ({ s with minValidationIdx := min s.minValidationIdx txIdx }, min s.minValidationIdx txIdx)
  else (s, s.minValidationIdx)

def lowerValidation (s : Scheduler) (txIdx : TxIdx) : Scheduler :=
  { s with validationIdx := min s.validationIdx txIdx }

def settle (s : Scheduler) (version : TxVersion) (flags : FinishExecFlags) : Scheduler :=
  let tx := s.transactionsStatus version.txIdx
  if flags.contains .needValidation then s.setStatus version.txIdx { tx with status := .executed }
  else { s.setStatus version.txIdx { tx with status := .validated } with
    numValidated := s.numValidated + 1 }

def finishExecution (s : Scheduler) (version : TxVersion) (flags : FinishExecFlags) :
    Scheduler × Option Task :=
  let (s, minValidationIdx) :=
    (s.resumeDependents version.txIdx).lowerMinValidation version.txIdx flags
  if minValidationIdx < s.blockSize then
    if version.txIdx < minValidationIdx then
      let s := if flags.contains .wroteNewLocation then s.lowerValidation minValidationIdx else s
      (s.settle version flags, none)
    else if version.txIdx < s.validationIdx then
      let s := if flags.contains .wroteNewLocation then s.lowerValidation (version.txIdx + 1) else s
      let tx := s.transactionsStatus version.txIdx
      if flags.contains .needValidation then
        (s.setStatus version.txIdx { tx with status := .executed }, some (.validation version))
      else
        -- This branch counts the transaction and falls through to the counting below.
        let s := { s.setStatus version.txIdx { tx with status := .validated } with
          numValidated := s.numValidated + 1 }
        (s.settle version flags, none)
    else (s.settle version flags, none)
  else (s.settle version flags, none)

def tryValidationAbort (s : Scheduler) (version : TxVersion) : Scheduler × Bool :=
  let tx := s.transactionsStatus version.txIdx
  let s := if tx.status = .validated then { s with numValidated := s.numValidated - 1 } else s
  let aborting := tx.status = .executed ∨ tx.status = .validated
  if aborting then (s.setStatus version.txIdx { tx with status := .aborting }, true) else (s, false)

def finishValidation (s : Scheduler) (version : TxVersion) (aborted : Bool) :
    Scheduler × Option Task :=
  if aborted then
    let s := (s.setReadyStatus version.txIdx).lowerValidation (version.txIdx + 1)
    if s.executionIdx > version.txIdx then
      match s.tryExecute version.txIdx with
      | (s', some version') => (s', some (.execution version'))
      | (s', none) => (s', none)
    else (s, none)
  else
    let tx := s.transactionsStatus version.txIdx
    if tx.status = .executed then
      ({ s.setStatus version.txIdx { tx with status := .validated } with
        numValidated := s.numValidated + 1 }, none)
    else (s, none)

end Scheduler

end CongestionControl.Pevm
