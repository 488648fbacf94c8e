import CongestionControl.Pevm.Engine
import CongestionControl.Pevm.Lifecycle

/-!
# The invariant of the Block-STM engine

`SchedInv` is the bookkeeping of the scheduler, `MemInv` ties the multi-version data to a `Record` of
what each transaction did last, and `Inv.valid` is the heart of the matter: a finished transaction whose
read set is out of date still has a validation ahead of it.
-/

namespace CongestionControl.Pevm

open VersionMap

namespace Scheduler

def Finished (s : Scheduler) (i : TxIdx) : Prop :=
  (s.transactionsStatus i).status = .executed ∨ (s.transactionsStatus i).status = .validated

def countValidated (s : Scheduler) (n : Nat) : Nat :=
  Nat.count (fun i => (s.transactionsStatus i).status = .validated) n

end Scheduler

structure SchedInv {ω : Type} (n : Nat) (s : Scheduler) (role : ω → Role) : Prop where
  blockSize : s.blockSize = n
  cycle : LifeCycle s.transactionsStatus s.transactionsDependents role
  dep_lt : ∀ {b i}, i ∈ s.transactionsDependents b → b < i ∧ i < n
  dep_wait : ∀ {b i}, i ∈ s.transactionsDependents b → ¬ s.Finished b
  ready : ∀ {i}, i < n → (s.transactionsStatus i).status = .readyToExecute → s.executionIdx ≤ i
  count : s.numValidated = s.countValidated n
  min : ∀ {i}, s.Finished i → s.minValidationIdx ≤ i

variable {L V : Type} [DecidableEq L]

structure Read (L V : Type) where
  location : L
  origin : ReadOrigin
  value : V

def readSetOf (log : List (Read L V)) : ReadSet L := log.map fun r => (r.location, [r.origin])

/-- What a transaction did when it was last recorded. The incarnations recorded so far are all below
`published`. -/
structure Record (L V : Type) where
  published : Nat
  log : List (Read L V)
  writes : WriteSet L V

def Writes (writeSet : WriteSet L V) (location : L) : Prop := ∃ x, (location, x) ∈ writeSet

inductive Follows (log : List (Read L V)) (body : Body L V) : Body L V → Prop
  | start : Follows log body body
  | read {location : L} {next : V → Body L V} {r : Read L V} :
      Follows log body (.read location next) → r ∈ log → r.location = location →
      Follows log body (next r.value)

def MvMemory.Sees (m : MvMemory L V) (storage : L → V) (txIdx : TxIdx) (r : Read L V) : Prop :=
  match r.origin with
  | .storage => lastBelow (m.entry r.location) txIdx = none ∧ r.value = storage r.location
  | .mvMemory v =>
    lastBelow (m.entry r.location) txIdx = some (v.txIdx, .data v.txIncarnation r.value)

/-- A read is justified if its origin, should it still be in the memory, holds the value read. -/
def Justified (storage : L → V) (m : MvMemory L V) (records : TxIdx → Record L V)
    (r : Read L V) : Prop :=
  match r.origin with
  | .storage => r.value = storage r.location
  | .mvMemory v => v.txIncarnation < (records v.txIdx).published ∧
      ∀ y, m.entry r.location v.txIdx = some (.data v.txIncarnation y) → y = r.value

/-- The memory holds the writes of every recorded transaction: as data while the transaction is
`live`, as ESTIMATEs otherwise. -/
structure MemInv (block : Block L V) (m : MvMemory L V) (records : TxIdx → Record L V)
    (live : TxIdx → Prop) : Prop where
  read : ∀ j, (m.lastLocations j).read = readSetOf (records j).log
  write : ∀ j l, l ∈ (m.lastLocations j).write ↔ Writes (records j).writes l
  shown : ∀ {j}, live j → ∃ k, k < (records j).published ∧
    ∀ l, m.entry l j = (lastWrite (records j).writes l).map (.data k)
  hidden : ∀ {j}, ¬ live j → ∀ l, m.entry l j = (lastWrite (records j).writes l).map fun _ =>
    .estimate
  justified : ∀ {j r}, r ∈ (records j).log → Justified block.storage m records r
  follows : ∀ {j}, live j → Follows (records j).log (block.body j) (.done (records j).writes)

/-- The memory holds what the transactions of the block leave when they are executed one after the
other: the last write of each transaction to each location, no ESTIMATE and nothing else, so that a
read above the block finds the final state. -/
structure SequentialResult (block : Block L V) (m : MvMemory L V) : Prop where
  writes : ∀ i, i < block.txs.length → ∃ ws k, block.sequentialWrites i = some ws ∧
    ∀ l, m.entry l i = (lastWrite ws l).map (.data k)
  nothing_above : ∀ i, block.txs.length ≤ i → ∀ l, m.entry l i = none
  state : ∃ final, block.stateBefore block.txs.length = some final ∧
    ∀ l, ∃ origin, m.Sees block.storage block.txs.length ⟨l, origin, final l⟩

namespace Worker

def version : Worker L V → Option TxVersion
  | .polling | .left => none
  | .running v _ _ | .blocked v _ | .recorded v _ | .validating v | .refuted v | .aborting v
  | .finishing v _ => some v

def role : Worker L V → Role
  | .running v _ _ | .blocked v _ | .recorded v _ => .executing v
  | .aborting v | .finishing v true => .aborting v.txIdx
  | _ => .free

/-- The worker holds a transaction whose writes are in the memory though it is not finished. -/
def Shows (i : TxIdx) : Worker L V → Prop
  | .recorded v _ | .aborting v => v.txIdx = i
  | _ => False

/-- The worker is going to look at the read set of the transaction, or to have it looked at. -/
def Pends (i : TxIdx) : Worker L V → Prop
  | .validating v | .refuted v => v.txIdx = i
  | .recorded v flags => flags.contains .wroteNewLocation = true ∧ v.txIdx < i
  | .finishing v true => v.txIdx < i
  | _ => False

def Sound (block : Block L V) (m : MvMemory L V) (records : TxIdx → Record L V) :
    Worker L V → Prop
  | .running v rest readSet => (records v.txIdx).published ≤ v.txIncarnation ∧
      ∃ log : List (Read L V), readSet = readSetOf log ∧ (log.map Read.location).Nodup ∧
        (∀ r ∈ log, Justified block.storage m records r) ∧
        Follows log (block.body v.txIdx) rest
  | .blocked v b => (records v.txIdx).published ≤ v.txIncarnation ∧ b < v.txIdx
  | _ => True

end Worker

variable {ω : Type}

def Live (s : Scheduler) (threads : ω → Worker L V) (i : TxIdx) : Prop :=
  s.Finished i ∨ ∃ w, (threads w).Shows i

def Pending (s : Scheduler) (threads : ω → Worker L V) (i : TxIdx) : Prop :=
  s.validationIdx ≤ i ∨ ∃ w, (threads w).Pends i

structure Inv (block : Block L V) (g : Shared L V) (threads : ω → Worker L V)
    (records : TxIdx → Record L V) : Prop where
  running : g.scheduler.aborted = false
  sched : SchedInv block.txs.length g.scheduler fun w => (threads w).role
  mem : MemInv block g.memory records (Live g.scheduler threads)
  published_le : ∀ j, (records j).published ≤ (g.scheduler.transactionsStatus j).incarnation + 1
  published_ready : ∀ {j}, (g.scheduler.transactionsStatus j).status = .readyToExecute →
    (records j).published ≤ (g.scheduler.transactionsStatus j).incarnation
  outside : ∀ {j}, block.txs.length ≤ j → (records j).writes = []
  bound : ∀ {w v}, (threads w).version = some v → v.txIdx < block.txs.length
  sound : ∀ w, (threads w).Sound block g.memory records
  valid : ∀ {i}, i < block.txs.length → g.scheduler.Finished i →
    g.memory.validateReadLocations i = true ∨ Pending g.scheduler threads i
  /-- The last worker to leave has seen the indices at the end. -/
  done : (∀ w, threads w = .left) → block.txs.length ≤ g.scheduler.executionIdx ∧
    block.txs.length ≤ g.scheduler.validationIdx ∧
    block.txs.length - g.scheduler.minValidationIdx ≤ g.scheduler.numValidated

end CongestionControl.Pevm
