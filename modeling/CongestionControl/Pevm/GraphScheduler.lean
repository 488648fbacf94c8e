import Mathlib.Data.List.Sort
import CongestionControl.Pevm.DependencyGraph
import CongestionControl.Pevm.Scheduler
import CongestionControl.Pevm.Lifecycle

/-!
# The graph scheduler

The functions of `graph_scheduler.rs`, each as one function on the scheduler's state, and the calls of a
worker. The heap is a sorted list; the condition variable carries no data and is left out.
-/

namespace CongestionControl.Pevm

open Function (update)
open Transition

structure GraphScheduler where
  blockSize : Nat
  transactionsStatus : TxIdx → TxStatus
  transactionsDependents : TxIdx → List TxIdx
  validationIdx : Nat
  minValidationIdx : Nat
  numValidated : Nat
  aborted : Bool
  dependencyGraph : TransactionGraph
  executableTxs : List TxIdx
  remainingDependencies : TxIdx → Nat
  childrenReleased : TxIdx → Bool

def fetchSub (count : Nat) : Nat := if count = 0 then 2 ^ 64 - 1 else count - 1

namespace GraphScheduler

def new (blockSize : Nat) (dependencyGraph : TransactionGraph) : GraphScheduler where
  blockSize := blockSize
  transactionsStatus _ := ⟨0, .readyToExecute⟩
  transactionsDependents _ := []
  validationIdx := blockSize
  minValidationIdx := blockSize
  numValidated := 0
  aborted := false
  dependencyGraph := dependencyGraph
  executableTxs := (List.range dependencyGraph.nodes.length).filter fun txIdx =>
    (dependencyGraph.parents txIdx).isEmpty
  remainingDependencies txIdx := (dependencyGraph.parents txIdx).length
  childrenReleased _ := false

def abort (s : GraphScheduler) : GraphScheduler := { s with aborted := true }

def setStatus (s : GraphScheduler) (txIdx : TxIdx) (tx : TxStatus) : GraphScheduler :=
  { s with transactionsStatus := update s.transactionsStatus txIdx tx }

def pushExecutable (s : GraphScheduler) (txIdx : TxIdx) : GraphScheduler :=
  { s with executableTxs := s.executableTxs.orderedInsert (· ≤ ·) txIdx }

def allDependenciesSatisfied (s : GraphScheduler) (txIdx : TxIdx) : Bool :=
  s.remainingDependencies txIdx = 0

def checkAllDone (s : GraphScheduler) : Bool :=
  s.executableTxs.isEmpty && s.blockSize ≤ s.validationIdx &&
    s.blockSize - s.minValidationIdx ≤ s.numValidated

def tryValidationTask (s : GraphScheduler) : GraphScheduler × Option Task :=
  let execIdx := s.executableTxs.head?.getD s.blockSize
  if s.validationIdx < execIdx then
    let txIdx := s.validationIdx
    let s := { s with validationIdx := s.validationIdx + 1 }
    if txIdx < s.blockSize then
      let tx := s.transactionsStatus txIdx
      -- Try to steal the execution job.
      if tx.status = .readyToExecute ∧ s.allDependenciesSatisfied txIdx then
        (s.setStatus txIdx { tx with status := .executing },
          some (.execution ⟨txIdx, tx.incarnation⟩))
      else
        match tx.status with
        | .executed | .validated => (s, some (.validation ⟨txIdx, tx.incarnation⟩))
        | _ => (s, none)
    else (s, none)
  else (s, none)

def tryExecute (s : GraphScheduler) (txIdx : TxIdx) : GraphScheduler × Option TxVersion :=
  if txIdx < s.blockSize ∧ s.allDependenciesSatisfied txIdx then
    let tx := s.transactionsStatus txIdx
    match tx.status with
    | .readyToExecute =>
      (s.setStatus txIdx { tx with status := .executing }, some ⟨txIdx, tx.incarnation⟩)
    | .aborting =>
      (s.setStatus txIdx ⟨tx.incarnation + 1, .executing⟩, some ⟨txIdx, tx.incarnation + 1⟩)
    | _ => (s, none)
  else (s, none)

def tryExecutionTask (s : GraphScheduler) : GraphScheduler × Option Task :=
  match s.executableTxs with
  | [] => (s, none)
  | txIdx :: rest =>
    let (s, version) := { s with executableTxs := rest }.tryExecute txIdx
    (s, version.map .execution)

def pollTask (s : GraphScheduler) : GraphScheduler × Poll :=
  if s.aborted then (s, .done none)
  else if s.checkAllDone then (s, .done none)
  else
    match s.tryValidationTask with
    | (s, some task) => (s, .done (some task))
    | (s, none) =>
      match s.tryExecutionTask with
      | (s, some task) => (s, .done (some task))
      | (s, none) => (s, .again)

def nextTask : Nat → GraphScheduler → GraphScheduler × Option (Option Task)
  | 0, s => (s, none)
  | fuel + 1, s =>
    match s.pollTask with
    | (s', .done task) => (s', some task)
    | (s', .again) => nextTask fuel s'

def addDependency (s : GraphScheduler) (txIdx blockingTxIdx : TxIdx) : GraphScheduler × Bool :=
  match (s.transactionsStatus blockingTxIdx).status with
  | .executed | .validated => (s, false)
  | _ =>
    let s := s.setStatus txIdx { s.transactionsStatus txIdx with status := .aborting }
    let blockingDependents := s.transactionsDependents blockingTxIdx ++ [txIdx]
    ({ s with
      transactionsDependents := update s.transactionsDependents blockingTxIdx blockingDependents },
      true)

def setReadyStatus (s : GraphScheduler) (txIdx : TxIdx) : GraphScheduler :=
  s.setStatus txIdx ⟨(s.transactionsStatus txIdx).incarnation + 1, .readyToExecute⟩

def releaseChild (s : GraphScheduler) (childIdx : TxIdx) : GraphScheduler :=
  let prevCount := s.remainingDependencies childIdx
  let s := { s with
    remainingDependencies := update s.remainingDependencies childIdx (fetchSub prevCount) }
  if prevCount = 1 then s.pushExecutable childIdx else s

def releaseChildren (s : GraphScheduler) (txIdx : TxIdx) : GraphScheduler :=
  if s.childrenReleased txIdx then s
  else (s.dependencyGraph.children txIdx).foldl releaseChild
    { s with childrenReleased := update s.childrenReleased txIdx true }

def resumeDependent (s : GraphScheduler) (txIdx : TxIdx) : GraphScheduler :=
  if s.allDependenciesSatisfied txIdx then (s.setReadyStatus txIdx).pushExecutable txIdx else s

def resumeDependents (s : GraphScheduler) (txIdx : TxIdx) : GraphScheduler :=
  (s.transactionsDependents txIdx).foldl resumeDependent
    { s with transactionsDependents := update s.transactionsDependents txIdx [] }

def lowerMinValidation (s : GraphScheduler) (txIdx : TxIdx) (flags : FinishExecFlags) :
    GraphScheduler × Nat :=
  if flags.contains .needValidation then
    ({ s with minValidationIdx := min s.minValidationIdx txIdx }, min s.minValidationIdx txIdx)
  else (s, s.minValidationIdx)

def lowerValidation (s : GraphScheduler) (txIdx : TxIdx) : GraphScheduler :=
  { s with validationIdx := min s.validationIdx txIdx }

def settle (s : GraphScheduler) (version : TxVersion) (flags : FinishExecFlags) : GraphScheduler :=
  let tx := s.transactionsStatus version.txIdx
  if flags.contains .needValidation then s.setStatus version.txIdx { tx with status := .executed }
  else { s.setStatus version.txIdx { tx with status := .validated } with
    numValidated := s.numValidated + 1 }

def scheduleValidation (s : GraphScheduler) (version : TxVersion) (flags : FinishExecFlags) :
    GraphScheduler × Option Task :=
  let (s, minValidationIdx) := s.lowerMinValidation version.txIdx flags
  if minValidationIdx < s.blockSize then
    if version.txIdx < minValidationIdx then
      let s := if flags.contains .wroteNewLocation then s.lowerValidation minValidationIdx else s
      (s.settle version flags, none)
    else if version.txIdx < s.validationIdx then
      let s := if flags.contains .wroteNewLocation then s.lowerValidation (version.txIdx + 1) else s
      let tx := s.transactionsStatus version.txIdx
      if flags.contains .needValidation then
        (s.setStatus version.txIdx { tx with status := .executed }, some (.validation version))
      else
        -- This branch counts the transaction and falls through to the counting below.
        let s := { s.setStatus version.txIdx { tx with status := .validated } with
          numValidated := s.numValidated + 1 }
        (s.settle version flags, none)
    else (s.settle version flags, none)
  else (s.settle version flags, none)

def finishExecution (s : GraphScheduler) (version : TxVersion) (flags : FinishExecFlags) :
    GraphScheduler × Option Task :=
  ((s.releaseChildren version.txIdx).resumeDependents version.txIdx).scheduleValidation version
    flags

def tryValidationAbort (s : GraphScheduler) (version : TxVersion) : GraphScheduler × Bool :=
  let tx := s.transactionsStatus version.txIdx
  let s := if tx.status = .validated then { s with numValidated := fetchSub s.numValidated } else s
  let aborting := tx.status = .executed ∨ tx.status = .validated
  if aborting then (s.setStatus version.txIdx { tx with status := .aborting }, true) else (s, false)

def finishValidation (s : GraphScheduler) (version : TxVersion) (aborted : Bool) :
    GraphScheduler × Option Task :=
  if aborted then
    let s := (s.setReadyStatus version.txIdx).lowerValidation (version.txIdx + 1)
    if s.allDependenciesSatisfied version.txIdx then
      let (s, version) := s.tryExecute version.txIdx
      (s, version.map .execution)
    else (s, none)
  else
    let tx := s.transactionsStatus version.txIdx
    if tx.status = .executed then
      ({ s.setStatus version.txIdx { tx with status := .validated } with
        numValidated := s.numValidated + 1 }, none)
    else (s, none)

end GraphScheduler

inductive GraphWorker
  | polling
  | left
  | executing (version : TxVersion)
  /-- An execution task that ended with an error. -/
  | failed (version : TxVersion)
  | validating (version : TxVersion)
  /-- A validation task whose transaction could not be aborted. -/
  | kept (version : TxVersion)
  /-- A validation task whose transaction was aborted. -/
  | aborted (version : TxVersion)
  deriving DecidableEq, Repr

inductive GraphCall
  | nextTask (fuel : Nat)
  /-- A call of `next_task` that runs into the one-second timeout. -/
  | timeout
  | addDependency (blockingTxIdx : TxIdx)
  | finishExecution (flags : FinishExecFlags)
  | abort
  | tryValidationAbort
  | finishValidation
  deriving DecidableEq, Repr

namespace GraphWorker

def take : Option Task → GraphWorker
  | none => .polling
  | some (.execution version) => .executing version
  | some (.validation version) => .validating version

def role : GraphWorker → Role
  | .executing version | .failed version => .executing version
  | .aborted version => .aborting version.txIdx
  | _ => .free

def HoldsTask : GraphWorker → Prop
  | .polling | .left => False
  | _ => True

def validates : GraphWorker → Option TxIdx
  | .validating version | .kept version => some version.txIdx
  | _ => none

end GraphWorker

namespace GraphScheduler

def exec (s : GraphScheduler) : GraphWorker → GraphCall → Option (GraphScheduler × GraphWorker)
  | .polling, .nextTask fuel =>
    match s.nextTask fuel with
    | (s, some (some task)) => some (s, .take (some task))
    | (s, some none) => some (s, .left)
    | (s, none) => some (s, .polling)
  | .polling, .timeout => if s.aborted then none else some (s.abort, .left)
  | .executing version, .addDependency blockingTxIdx =>
    -- A transaction that waits for itself would take its own lock twice.
    if blockingTxIdx < s.blockSize ∧ blockingTxIdx ≠ version.txIdx then
      match s.addDependency version.txIdx blockingTxIdx with
      | (s, true) => some (s, .polling)
      | (s, false) => some (s, .executing version)
    else none
  | .executing version, .finishExecution flags =>
    let (s, task) := s.finishExecution version flags
    some (s, .take task)
  | .executing version, .abort => some (s.abort, .failed version)
  | .validating version, .finishValidation =>
    let (s, task) := s.finishValidation version false
    some (s, .take task)
  | .validating version, .tryValidationAbort =>
    match s.tryValidationAbort version with
    | (s, true) => some (s, .aborted version)
    | (s, false) => some (s, .kept version)
  | .kept version, .finishValidation =>
    let (s, task) := s.finishValidation version false
    some (s, .take task)
  | .aborted version, .finishValidation =>
    let (s, task) := s.finishValidation version true
    some (s, .take task)
  | _, _ => none

def program (blockSize : Nat) (graph : TransactionGraph) :
    Program GraphScheduler GraphWorker GraphCall where
  shared := new blockSize graph
  start := .polling
  exec := exec

end GraphScheduler

end CongestionControl.Pevm
