import CongestionControl.Pevm.Scheduler
import CongestionControl.Pevm.MvMemory

/-!
# The Block-STM engine

The worker loop of `execute_revm_parallel` in `pevm.rs` with `try_execute` and `try_validate`. A step of
a worker is one call on the scheduler, one read, or one call of `record`, `validate_read_locations` or
`convert_writes_to_estimates`. What a transaction does next depends only on the values it has read.
-/

namespace CongestionControl.Pevm

open Transition

inductive Body (L V : Type)
  | read (location : L) (next : V → Body L V)
  | done (writeSet : WriteSet L V)
  | fail

structure Block (L V : Type) where
  storage : L → V
  txs : List (Body L V)

namespace Block

variable {L V : Type}

def body (block : Block L V) (txIdx : TxIdx) : Body L V := block.txs.getD txIdx (.done [])

end Block

section Sequential

variable {L V : Type} [DecidableEq L]

def Body.run (state : L → V) : Body L V → Option (WriteSet L V)
  | .read location next => (next (state location)).run state
  | .done writeSet => some writeSet
  | .fail => none

def applyWrites (state : L → V) (writeSet : WriteSet L V) : L → V :=
  writeSet.foldl (fun state p => Function.update state p.1 p.2) state

def lastWrite (writeSet : WriteSet L V) (location : L) : Option V :=
  (writeSet.reverse.find? fun p => p.1 = location).map Prod.snd

def Block.stateBefore (block : Block L V) : TxIdx → Option (L → V)
  | 0 => some block.storage
  | i + 1 => do
    let state ← block.stateBefore i
    let writeSet ← (block.body i).run state
    return applyWrites state writeSet

def Block.sequentialWrites (block : Block L V) (txIdx : TxIdx) : Option (WriteSet L V) := do
  (block.body txIdx).run (← block.stateBefore txIdx)

end Sequential

inductive Worker (L V : Type)
  | polling
  | left
  /-- In `vm.execute`, with the rest of the body and the reads so far. -/
  | running (version : TxVersion) (rest : Body L V) (readSet : ReadSet L)
  /-- Met an ESTIMATE; about to call `add_dependency`. -/
  | blocked (version : TxVersion) (blockingTxIdx : TxIdx)
  /-- `record` is done; about to call `finish_execution`. -/
  | recorded (version : TxVersion) (flags : FinishExecFlags)
  | validating (version : TxVersion)
  /-- The read set was found invalid; about to call `try_validation_abort`. -/
  | refuted (version : TxVersion)
  /-- The abort succeeded; about to call `convert_writes_to_estimates`. -/
  | aborting (version : TxVersion)
  | finishing (version : TxVersion) (aborted : Bool)

structure Shared (L V : Type) where
  scheduler : Scheduler
  memory : MvMemory L V
  abortReason : Bool

namespace Engine

variable {L V : Type} [DecidableEq L]

def start (block : Block L V) : Task → Worker L V
  | .execution version => .running version (block.body version.txIdx) []
  | .validation version => .validating version

/-- The end of the worker loop's body: leave if the block was stopped, go on with the task that was
returned, or ask for the next one. -/
def continueWith (block : Block L V) (g : Shared L V) (task : Option Task) :
    Shared L V × Worker L V :=
  if g.abortReason then (g, .left)
  else match task with
    | some task => (g, start block task)
    | none => (g, .polling)

def execFlags (txIdx : TxIdx) (wroteNewLocation : Bool) : FinishExecFlags :=
  let flags := if txIdx > 0 then FinishExecFlags.needValidation else ⟨0⟩
  if wroteNewLocation then flags.insert .wroteNewLocation else flags

/-- One step of a worker. The choice is the number of passes that `next_task` is followed for. -/
def exec (block : Block L V) (g : Shared L V) :
    Worker L V → Nat → Option (Shared L V × Worker L V)
  | .polling, fuel =>
    match g.scheduler.nextTask fuel with
    | (s, some (some task)) => some ({ g with scheduler := s }, start block task)
    | (s, some none) => some ({ g with scheduler := s }, .left)
    | (s, none) => some ({ g with scheduler := s }, .polling)
  | .left, _ => none
  | .running version (.read location next) readSet, _ =>
    match g.memory.readStorage block.storage version.txIdx readSet location with
    | .ok (value, readSet) => some (g, .running version (next value) readSet)
    | .error (.blockingEstimate blockingTxIdx) => some (g, .blocked version blockingTxIdx)
    -- `VmExecutionError::Retry`: execute again from the start.
    | .error .inconsistentRead =>
      if g.abortReason then some (continueWith block g none)
      else some (g, start block (.execution version))
  | .running version (.done writeSet) readSet, _ =>
    let (memory, wroteNewLocation) := g.memory.record version readSet writeSet
    some ({ g with memory }, .recorded version (execFlags version.txIdx wroteNewLocation))
  | .running _ .fail _, _ =>
    some (continueWith block { g with scheduler := g.scheduler.abort, abortReason := true } none)
  | .blocked version blockingTxIdx, _ =>
    match g.scheduler.addDependency version.txIdx blockingTxIdx with
    | (s, true) => some (continueWith block { g with scheduler := s } none)
    -- The blocking transaction was re-executed in the meantime.
    | (s, false) =>
      if g.abortReason then some (continueWith block { g with scheduler := s } none)
      else some ({ g with scheduler := s }, start block (.execution version))
  | .recorded version flags, _ =>
    let (s, task) := g.scheduler.finishExecution version flags
    some (continueWith block { g with scheduler := s } task)
  | .validating version, _ =>
    if g.memory.validateReadLocations version.txIdx then some (g, .finishing version false)
    else some (g, .refuted version)
  | .refuted version, _ =>
    match g.scheduler.tryValidationAbort version with
    | (s, true) => some ({ g with scheduler := s }, .aborting version)
    | (s, false) => some ({ g with scheduler := s }, .finishing version false)
  | .aborting version, _ =>
    some ({ g with memory := g.memory.convertWritesToEstimates version.txIdx },
      .finishing version true)
  | .finishing version aborted, _ =>
    let (s, task) := g.scheduler.finishValidation version aborted
    some (continueWith block { g with scheduler := s } task)

def program (block : Block L V) : Program (Shared L V) (Worker L V) Nat where
  shared := ⟨Scheduler.new block.txs.length, MvMemory.new [], false⟩
  start := .polling
  exec := exec block

end Engine

end CongestionControl.Pevm
