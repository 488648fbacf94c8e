import CongestionControl.Pevm.GraphScheduler
import CongestionControl.Pevm.SchedulerSteps

/-!
# The graph scheduler, step by step

The functions of `graph_scheduler.rs` cut at every atomic operation and at every lock. Where a function
does atomic operations under the lock of a status, the lock stays taken between the steps. The state
also records the versions issued, the statuses that `set_ready_status` found, and the decrements.
-/

namespace CongestionControl.Pevm

open Function (update)
open Transition

structure LockedGraphScheduler extends GraphScheduler where
  statusLock : TxIdx → Bool
  issued : List TxVersion
  readied : List IncarnationStatus
  entered : List TxIdx
  /-- The decrements of `remaining_dependencies`: parent and child. -/
  decrements : List (TxIdx × TxIdx)

inductive GraphPoint
  -- The loop of `next_task`, with `check_all_done`.
  | loadAborted
  | timedOut
  | lookAtHeap
  | loadValidationIdx (hasExecutable : Bool)
  | loadNumValidated (hasExecutable : Bool) (validationIdx : Nat)
  | loadMinValidationIdx (hasExecutable : Bool) (validationIdx numValidated : Nat)
  | left
  -- `try_validation_task`.
  | loadNextValidation
  | peekExecutable (validationIdx : Nat)
  | fetchValidationIdx
  | checkReady (txIdx : TxIdx)
  | checkSteal (txIdx : TxIdx)
  | steal (txIdx : TxIdx)
  | lookAt (txIdx : TxIdx)
  -- `try_execution_task` and `try_execute`.
  | popExecutable
  | checkDependencies (txIdx : TxIdx)
  | tryExecute (txIdx : TxIdx)
  -- An execution, with `add_dependency` and `finish_execution`.
  | executing (version : TxVersion)
  | failed (version : TxVersion)
  | addDependency (version : TxVersion) (blockingTxIdx : TxIdx)
  | pushDependent (version : TxVersion) (blockingTxIdx : TxIdx)
  | finishExecution (version : TxVersion) (flags : FinishExecFlags)
  | swapReleased (version : TxVersion) (flags : FinishExecFlags)
  | releaseChildren (version : TxVersion) (flags : FinishExecFlags) (children : List TxIdx)
  | pushChild (version : TxVersion) (flags : FinishExecFlags) (child : TxIdx)
      (children : List TxIdx)
  | drainDependents (version : TxVersion) (flags : FinishExecFlags)
  | setReady (version : TxVersion) (flags : FinishExecFlags) (dependent : TxIdx)
  | pushReady (version : TxVersion) (flags : FinishExecFlags) (dependent : TxIdx)
  | lowerMinValidationIdx (version : TxVersion) (flags : FinishExecFlags)
  | compareValidationIdx (version : TxVersion) (flags : FinishExecFlags)
  | lowerValidationIdx (version : TxVersion) (flags : FinishExecFlags) (bound : Nat)
      (validateNext : Bool)
  | settleValidating (version : TxVersion) (flags : FinishExecFlags)
  | countTwice (version : TxVersion) (flags : FinishExecFlags)
  | settle (version : TxVersion) (flags : FinishExecFlags)
  -- A validation, with `try_validation_abort` and `finish_validation`.
  | validating (version : TxVersion)
  | tryAbort (version : TxVersion)
  | uncount (version : TxVersion)
  | setAborting (version : TxVersion)
  | aborted (version : TxVersion)
  | lowerAfterAbort (version : TxVersion)
  | checkAborted (version : TxVersion)
  | confirm (version : TxVersion)
  | count (version : TxVersion)

namespace LockedGraphScheduler

def new (blockSize : Nat) (dependencyGraph : TransactionGraph) : LockedGraphScheduler :=
  { GraphScheduler.new blockSize dependencyGraph with
    statusLock := fun _ => false
    issued := []
    readied := []
    entered := []
    decrements := [] }

def setStatus (g : LockedGraphScheduler) (txIdx : TxIdx) (tx : TxStatus) : LockedGraphScheduler :=
  { g with transactionsStatus := update g.transactionsStatus txIdx tx }

def setDependents (g : LockedGraphScheduler) (txIdx : TxIdx) (dependents : List TxIdx) :
    LockedGraphScheduler :=
  { g with transactionsDependents := update g.transactionsDependents txIdx dependents }

def pushExecutable (g : LockedGraphScheduler) (txIdx : TxIdx) : LockedGraphScheduler :=
  { g with executableTxs := g.executableTxs.orderedInsert (· ≤ ·) txIdx }

def lock (g : LockedGraphScheduler) (txIdx : TxIdx) : LockedGraphScheduler :=
  { g with statusLock := update g.statusLock txIdx true }

def unlock (g : LockedGraphScheduler) (txIdx : TxIdx) : LockedGraphScheduler :=
  { g with statusLock := update g.statusLock txIdx false }

def issue (g : LockedGraphScheduler) (version : TxVersion) : LockedGraphScheduler :=
  { g.setStatus version.txIdx ⟨version.txIncarnation, .executing⟩ with
    issued := g.issued ++ [version] }

def withStatus (g : LockedGraphScheduler) (txIdx : TxIdx) (status : IncarnationStatus) : TxStatus :=
  { g.transactionsStatus txIdx with status }

def setReadyStatus (g : LockedGraphScheduler) (txIdx : TxIdx) : LockedGraphScheduler :=
  let tx := g.transactionsStatus txIdx
  { g.setStatus txIdx ⟨tx.incarnation + 1, .readyToExecute⟩ with
    readied := g.readied ++ [tx.status] }

def decrement (g : LockedGraphScheduler) (parent child : TxIdx) : LockedGraphScheduler :=
  { g with
    remainingDependencies := update g.remainingDependencies child
      (fetchSub (g.remainingDependencies child))
    decrements := g.decrements ++ [(parent, child)] }

def afterMinValidation (g : LockedGraphScheduler) (version : TxVersion) (flags : FinishExecFlags)
    (minValidationIdx : Nat) : GraphPoint :=
  if minValidationIdx < g.blockSize then
    if version.txIdx < minValidationIdx then
      if flags.contains .wroteNewLocation then
        .lowerValidationIdx version flags minValidationIdx false
      else .settle version flags
    else .compareValidationIdx version flags
  else .settle version flags

def whenFree (g : LockedGraphScheduler) (txIdx : TxIdx) (next : LockedGraphScheduler × GraphPoint) :
    Option (LockedGraphScheduler × GraphPoint) :=
  if g.statusLock txIdx then none else some next

/-- One step of a worker. The environment's choice says how a task ends; in the loop of `next_task`
the choice `stopped` is the timeout. -/
def exec (g : LockedGraphScheduler) :
    GraphPoint → TaskEnd → Option (LockedGraphScheduler × GraphPoint)
  | .loadAborted, .stopped => some (g, if g.aborted then .left else .timedOut)
  | .loadAborted, _ => some (g, if g.aborted then .left else .lookAtHeap)
  | .timedOut, _ => some ({ g with aborted := true }, .left)
  | .lookAtHeap, _ => some (g, .loadValidationIdx (!g.executableTxs.isEmpty))
  | .loadValidationIdx hasExecutable, _ => some (g, .loadNumValidated hasExecutable g.validationIdx)
  | .loadNumValidated hasExecutable validationIdx, _ =>
    some (g, .loadMinValidationIdx hasExecutable validationIdx g.numValidated)
  | .loadMinValidationIdx hasExecutable validationIdx numValidated, _ =>
    some (g, if !hasExecutable ∧ g.blockSize ≤ validationIdx ∧
        g.blockSize - g.minValidationIdx ≤ numValidated then .left
      else .loadNextValidation)
  | .left, _ => none
  | .loadNextValidation, _ => some (g, .peekExecutable g.validationIdx)
  | .peekExecutable validationIdx, _ =>
    some (g, if validationIdx < g.executableTxs.head?.getD g.blockSize then .fetchValidationIdx
      else .popExecutable)
  | .fetchValidationIdx, _ =>
    some ({ g with validationIdx := g.validationIdx + 1 },
      if g.validationIdx < g.blockSize then .checkReady g.validationIdx else .popExecutable)
  | .checkReady txIdx, _ =>
    g.whenFree txIdx (g, if (g.transactionsStatus txIdx).status = .readyToExecute then
        .checkSteal txIdx
      else .lookAt txIdx)
  | .checkSteal txIdx, _ =>
    some (g, if g.allDependenciesSatisfied txIdx then .steal txIdx else .lookAt txIdx)
  | .steal txIdx, _ =>
    let tx := g.transactionsStatus txIdx
    let version : TxVersion := ⟨txIdx, tx.incarnation⟩
    g.whenFree txIdx (if tx.status = .readyToExecute then (g.issue version, .executing version)
      else (g, .lookAt txIdx))
  | .lookAt txIdx, _ =>
    let tx := g.transactionsStatus txIdx
    g.whenFree txIdx (g, match tx.status with
      | .executed | .validated => .validating ⟨txIdx, tx.incarnation⟩
      | _ => .popExecutable)
  | .popExecutable, _ =>
    match g.executableTxs with
    | [] => some (g, .loadAborted)
    | txIdx :: rest => some ({ g with executableTxs := rest },
        if txIdx < g.blockSize then .checkDependencies txIdx else .loadAborted)
  | .checkDependencies txIdx, _ =>
    some (g, if g.allDependenciesSatisfied txIdx then .tryExecute txIdx else .loadAborted)
  | .tryExecute txIdx, _ =>
    let tx := g.transactionsStatus txIdx
    g.whenFree txIdx (match tx.status with
      | .readyToExecute =>
        (g.issue ⟨txIdx, tx.incarnation⟩, .executing ⟨txIdx, tx.incarnation⟩)
      | .aborting =>
        (g.issue ⟨txIdx, tx.incarnation + 1⟩, .executing ⟨txIdx, tx.incarnation + 1⟩)
      | _ => (g, .loadAborted))
  | .executing version, .blocked blockingTxIdx => some (g, .addDependency version blockingTxIdx)
  | .executing version, .executed flags => some (g, .finishExecution version flags)
  | .executing version, .stopped => some ({ g with aborted := true }, .failed version)
  | .executing _, _ => none
  | .failed _, _ => none
  | .addDependency version blockingTxIdx, _ =>
    g.whenFree blockingTxIdx (match (g.transactionsStatus blockingTxIdx).status with
      -- The caller executes the transaction again.
      | .executed | .validated => (g, .executing version)
      | _ => (g.lock blockingTxIdx, .pushDependent version blockingTxIdx))
  | .pushDependent version blockingTxIdx, _ =>
    let blockingDependents := g.transactionsDependents blockingTxIdx ++ [version.txIdx]
    let g' := g.setStatus version.txIdx (g.withStatus version.txIdx .aborting)
    g.whenFree version.txIdx
      ((g'.setDependents blockingTxIdx blockingDependents).unlock blockingTxIdx, .loadAborted)
  | .finishExecution version flags, _ =>
    g.whenFree version.txIdx ({ g.lock version.txIdx with entered := version.txIdx :: g.entered },
      .swapReleased version flags)
  | .swapReleased version flags, _ =>
    some ({ g with childrenReleased := update g.childrenReleased version.txIdx true },
      if g.childrenReleased version.txIdx then .drainDependents version flags
      else .releaseChildren version flags (g.dependencyGraph.children version.txIdx))
  | .releaseChildren version flags [], _ => some (g, .drainDependents version flags)
  | .releaseChildren version flags (child :: children), _ =>
    some (g.decrement version.txIdx child,
      if g.remainingDependencies child = 1 then .pushChild version flags child children
      else .releaseChildren version flags children)
  | .pushChild version flags child children, _ =>
    some (g.pushExecutable child, .releaseChildren version flags children)
  -- A drained transaction stays in the list until it is ready; nobody else can look at the list
  -- while the status of its transaction is locked.
  | .drainDependents version flags, _ =>
    match g.transactionsDependents version.txIdx with
    | [] => some (g, .lowerMinValidationIdx version flags)
    | txIdx :: rest =>
      if g.allDependenciesSatisfied txIdx then some (g, .setReady version flags txIdx)
      else some (g.setDependents version.txIdx rest, .drainDependents version flags)
  | .setReady version flags dependent, _ =>
    g.whenFree dependent ((g.setReadyStatus dependent).setDependents version.txIdx
      (g.transactionsDependents version.txIdx).tail, .pushReady version flags dependent)
  | .pushReady version flags dependent, _ =>
    some (g.pushExecutable dependent, .drainDependents version flags)
  | .lowerMinValidationIdx version flags, _ =>
    if flags.contains .needValidation then
      let minValidationIdx := min g.minValidationIdx version.txIdx
      some ({ g with minValidationIdx }, g.afterMinValidation version flags minValidationIdx)
    else some (g, g.afterMinValidation version flags g.minValidationIdx)
  | .compareValidationIdx version flags, _ =>
    some (g, if version.txIdx < g.validationIdx then
        if flags.contains .wroteNewLocation then
          .lowerValidationIdx version flags (version.txIdx + 1) true
        else .settleValidating version flags
      else .settle version flags)
  | .lowerValidationIdx version flags bound validateNext, _ =>
    some ({ g with validationIdx := min g.validationIdx bound },
      if validateNext then .settleValidating version flags else .settle version flags)
  | .settleValidating version flags, _ =>
    if flags.contains .needValidation then
      some ((g.setStatus version.txIdx (g.withStatus version.txIdx .executed)).unlock version.txIdx,
        .validating version)
    else some (g.setStatus version.txIdx (g.withStatus version.txIdx .validated),
      .countTwice version flags)
  -- This branch counts the transaction and falls through to the counting below.
  | .countTwice version flags, _ =>
    some ({ g with numValidated := g.numValidated + 1 }, .settle version flags)
  | .settle version flags, _ =>
    if flags.contains .needValidation then
      some ((g.setStatus version.txIdx (g.withStatus version.txIdx .executed)).unlock version.txIdx,
        .loadAborted)
    else some (g.setStatus version.txIdx (g.withStatus version.txIdx .validated), .count version)
  | .validating version, .valid => some (g, .confirm version)
  | .validating version, .invalid => some (g, .tryAbort version)
  | .validating _, .stopped => some (g, .left)
  | .validating _, _ => none
  | .tryAbort version, _ =>
    g.whenFree version.txIdx (match (g.transactionsStatus version.txIdx).status with
      | .validated => (g.lock version.txIdx, .uncount version)
      | .executed => (g.setStatus version.txIdx (g.withStatus version.txIdx .aborting),
          .aborted version)
      | _ => (g, .confirm version))
  | .uncount version, _ =>
    some ({ g with numValidated := fetchSub g.numValidated }, .setAborting version)
  | .setAborting version, _ =>
    some ((g.setStatus version.txIdx (g.withStatus version.txIdx .aborting)).unlock version.txIdx,
      .aborted version)
  | .aborted version, _ =>
    g.whenFree version.txIdx (g.setReadyStatus version.txIdx, .lowerAfterAbort version)
  | .lowerAfterAbort version, _ =>
    some ({ g with validationIdx := min g.validationIdx (version.txIdx + 1) },
      .checkAborted version)
  | .checkAborted version, _ =>
    some (g, if g.allDependenciesSatisfied version.txIdx ∧ version.txIdx < g.blockSize then
        .checkDependencies version.txIdx
      else .loadAborted)
  | .confirm version, _ =>
    g.whenFree version.txIdx (if (g.transactionsStatus version.txIdx).status = .executed then
        ((g.setStatus version.txIdx (g.withStatus version.txIdx .validated)).lock version.txIdx,
          .count version)
      else (g, .loadAborted))
  | .count version, _ =>
    some (({ g with numValidated := g.numValidated + 1 } : LockedGraphScheduler).unlock
      version.txIdx, .loadAborted)

def program (blockSize : Nat) (graph : TransactionGraph) :
    Program LockedGraphScheduler GraphPoint TaskEnd where
  shared := new blockSize graph
  start := .loadAborted
  exec := exec

end LockedGraphScheduler

structure Hold where
  role : Role := .free
  lock : Option TxIdx := none
  /-- A validated transaction whose lock is held to change the count. -/
  marked : Option TxIdx := none
  next : Option TxIdx := none
  /-- The worker is about to count a transaction twice. -/
  twice : Bool := false

def GraphPoint.hold : GraphPoint → Hold
  | .executing v | .failed v | .addDependency v _ | .finishExecution v _ => { role := .executing v }
  | .pushDependent v blockingTxIdx => { role := .executing v, lock := some blockingTxIdx }
  | .swapReleased v _ | .releaseChildren v _ _ | .pushChild v _ _ _ | .drainDependents v _
  | .pushReady v _ _ | .lowerMinValidationIdx v _ | .compareValidationIdx v _
  | .lowerValidationIdx v _ _ _ | .settleValidating v _ | .settle v _ =>
    { role := .executing v, lock := some v.txIdx }
  | .setReady v _ dependent =>
    { role := .executing v, lock := some v.txIdx, next := some dependent }
  | .countTwice _ _ => { twice := true }
  | .uncount v | .setAborting v | .count v => { lock := some v.txIdx, marked := some v.txIdx }
  | .aborted v => { role := .aborting v.txIdx }
  | _ => {}

/-- The part of the scheduler that decides who answers for a transaction. -/
structure Ledger where
  status : TxIdx → TxStatus
  dependents : TxIdx → List TxIdx
  locks : TxIdx → Bool
  issued : List TxVersion
  readied : List IncarnationStatus

def LockedGraphScheduler.ledger (g : LockedGraphScheduler) : Ledger :=
  ⟨g.transactionsStatus, g.transactionsDependents, g.statusLock, g.issued, g.readied⟩

variable {ω : Type}

/-- At most one party answers for each transaction, no version is issued twice, and only aborting
transactions are made ready. -/
structure HoldInv (b : Ledger) (hold : ω → Hold) : Prop where
  life : LifeInv b.status b.dependents fun w => (hold w).role
  issue : IssueInv b.status b.issued
  locks : Mutex.LockInv b.locks fun w => (hold w).lock
  marked : ∀ {w i}, (hold w).marked = some i →
    (hold w).lock = some i ∧ (b.status i).status = .validated
  next : ∀ {w d}, (hold w).next = some d →
    ∃ v, (hold w).role = .executing v ∧ (b.dependents v.txIdx).head? = some d
  once : ∀ {w}, (hold w).twice = false
  readied : ∀ x ∈ b.readied, x = .aborting

/-- The step of a worker does not find an aborting transaction in the critical section of
`try_execute`. -/
def NoAbortingExecute (c : Config LockedGraphScheduler GraphPoint ω) (a : ω × TaskEnd) : Prop :=
  match c.threads a.1 with
  | .tryExecute txIdx => (c.shared.transactionsStatus txIdx).status ≠ .aborting
  | _ => True

instance (c : Config LockedGraphScheduler GraphPoint ω) (a : ω × TaskEnd) :
    Decidable (NoAbortingExecute c a) := by
  unfold NoAbortingExecute
  split <;> infer_instance

/-- No transaction is executed twice at the same time or in the same incarnation, and
`set_ready_status` is only called on aborting transactions. -/
structure ExclusiveExecution (g : LockedGraphScheduler) (points : ω → GraphPoint) : Prop where
  one_execution : ∀ {w w' v v'}, (points w).hold.role = .executing v →
    (points w').hold.role = .executing v' → v.txIdx = v'.txIdx → w = w'
  issued_once : g.issued.Nodup
  readied_aborting : ∀ x ∈ g.readied, x = .aborting

structure Gate where
  ends : Option TxIdx := none
  /-- A parent and the children it has yet to release. -/
  releasing : Option (TxIdx × List TxIdx) := none
  /-- A transaction it found without remaining dependencies. -/
  cleared : Option TxIdx := none

def GraphPoint.gate : GraphPoint → Gate
  | .swapReleased v _ => { ends := some v.txIdx }
  | .releaseChildren v _ children | .pushChild v _ _ children =>
    { releasing := some (v.txIdx, children) }
  | .steal i | .tryExecute i => { cleared := some i }
  | _ => {}

structure Register where
  remaining : TxIdx → Nat
  released : TxIdx → Bool
  issued : List TxVersion
  entered : List TxIdx
  decrements : List (TxIdx × TxIdx)

def LockedGraphScheduler.register (g : LockedGraphScheduler) : Register :=
  ⟨g.remainingDependencies, g.childrenReleased, g.issued, g.entered, g.decrements⟩

def Register.pending (r : Register) (graph : TransactionGraph) (c : TxIdx) : List TxIdx :=
  (graph.parents c).filter fun p => (p, c) ∉ r.decrements

/-- Every parent decrements the count of a child once, after its first execution. -/
structure GateInv (graph : TransactionGraph) (r : Register) (gate : ω → Gate) : Prop where
  remaining : ∀ c, r.remaining c = (r.pending graph c).length
  once : r.decrements.Nodup
  decremented : ∀ {p c}, (p, c) ∈ r.decrements → r.released p = true ∧ p ∈ r.entered
  ends : ∀ {w p}, (gate w).ends = some p → p ∈ r.entered
  releasing : ∀ {w p rest}, (gate w).releasing = some (p, rest) →
    r.released p = true ∧ p ∈ r.entered ∧ rest.Nodup ∧
      ∀ c ∈ rest, c ∈ graph.children p ∧ (p, c) ∉ r.decrements
  unique : ∀ {w w' p rest rest'}, (gate w).releasing = some (p, rest) →
    (gate w').releasing = some (p, rest') → w = w'
  cleared : ∀ {w c}, (gate w).cleared = some c → r.remaining c = 0
  issued : ∀ v ∈ r.issued, r.remaining v.txIdx = 0

structure Gated (graph : TransactionGraph) (g : LockedGraphScheduler) : Prop where
  /-- The count of a transaction is the number of its parents that have not decremented it. -/
  remaining : ∀ c, g.remainingDependencies c =
    ((graph.parents c).filter fun p => (p, c) ∉ g.decrements).length
  once : g.decrements.Nodup
  /-- All parents of an issued transaction have entered `finish_execution`. -/
  issued : ∀ v ∈ g.issued, ∀ p ∈ graph.parents v.txIdx, p ∈ g.entered

end CongestionControl.Pevm
