import CongestionControl.Lib.Mutex
import CongestionControl.Lib.Placement
import CongestionControl.Pevm.Storage

/-!
# The fair batch scheduler

`schedule_a_parallelizable_batch_fair_sequential` and `process_transaction_sequential` of `api.rs`, cut
at every atomic operation and at every lock. The mutex of a caller's queue and the queues of the
workers, on which nothing is pushed, are left out. The state also records the writes to `scheduled`.
-/

namespace CongestionControl.Pevm

open Function (update)
open Transition

inductive TransactTo
  | call (toAddr : Address)
  | create
  deriving DecidableEq

structure TransactionWithHint where
  rawHex : String
  caller : Address
  hint : String
  deriving DecidableEq

/-- What becomes of the bytes of a transaction in `decode_one_hex`, whose caller is given. -/
inductive Decoding
  | panics
  | unknown
  | decoded (transactTo : TransactTo)
  deriving DecidableEq

def accessedAccounts (caller : Address) : TransactTo → List Address
  | .call toAddr => [caller, toAddr]
  | .create => [caller]

def TransactionWithHint.accounts (decode : String → Decoding) (txn : TransactionWithHint) :
    List Address :=
  match decode txn.rawHex with
  | .decoded transactTo => accessedAccounts txn.caller transactTo
  | .panics | .unknown => []

def freeSlot (scheduled : List (Option TransactionWithHint)) (position txnsPerBatch : Nat) :
    Option Nat :=
  (List.range' position (txnsPerBatch - position)).find? fun i => scheduled[i]? = some none

structure Search where
  neverAccessed : Bool
  positionFound : Bool
  outOfBound : Bool
  finalPosition : Nat
  deriving DecidableEq

namespace Search

def new : Search := ⟨true, false, false, 0⟩

def account (concurrencyLevel txnsPerBatch : Nat) (scheduled : List (Option TransactionWithHint))
    (lastPosition : Option Nat) (s : Search) : Search :=
  if s.outOfBound then s
  else match lastPosition with
    | none => s
    | some lastPos =>
      if lastPos + concurrencyLevel ≤ s.finalPosition then { s with neverAccessed := false }
      else match freeSlot scheduled (lastPos + concurrencyLevel) txnsPerBatch with
        | some position => ⟨false, true, false, position⟩
        | none => ⟨false, false, true, s.finalPosition⟩

/-- The position to claim: a transaction whose accounts were never accessed takes the first free
slot. -/
def position (txnsPerBatch : Nat) (scheduled : List (Option TransactionWithHint)) (s : Search) :
    Option Nat :=
  if s.neverAccessed then freeSlot scheduled 0 txnsPerBatch
  else if s.positionFound then some s.finalPosition
  else none

end Search

structure FairScheduler where
  callerQueues : Address → List (Nat × TransactionWithHint)
  /-- The callers that have an entry in `caller_processing`. -/
  callerProcessing : Address → Bool
  injector : List Address
  accountBeingAccessed : Finset Address
  accountLastPosition : Address → Option Nat
  scheduled : List (Option TransactionWithHint)
  scheduledIndices : List Nat
  availableSlots : Nat
  /-- The writes to `scheduled`, oldest first: the slot and the index of the transaction. -/
  writes : List (Nat × Nat)

structure Job where
  caller : Address
  index : Nat
  txn : TransactionWithHint

inductive FairPoint
  -- The loop of a worker.
  | steal
  | mark (caller : Address)
  | putBack (caller : Address)
  | popFront (caller : Address)
  | loadSlots (job : Job)
  -- `process_transaction_sequential`.
  | lockAccounts (job : Job) (accounts : List Address)
  | search (job : Job) (accounts rest : List Address) (s : Search)
  | claim (job : Job) (accounts : List Address) (s : Search)
  | setPositions (job : Job) (accounts rest : List Address) (finalPosition : Nat)
  | unlockAccounts (job : Job) (accounts : List Address) (positionFound : Bool)
  -- The rest of the loop.
  | pushFront (job : Job)
  | checkQueue (job : Job)
  | pushCaller (caller : Address)
  | unmark (caller : Address)
  | done
  | panicked (job : Job)

namespace FairScheduler

def queues (txns : List TransactionWithHint) : Address → List (Nat × TransactionWithHint) :=
  txns.zipIdx.foldl
    (fun queues entry => update queues entry.1.caller
      (queues entry.1.caller ++ [(entry.2, entry.1)]))
    fun _ => []

def txnsPerBatch (concurrencyLevel : Nat) : Nat := concurrencyLevel * 4

/-- The state in which the threads are spawned; `order` is the order in which the map of the queues is
iterated. -/
def new (concurrencyLevel : Nat) (order : IterOrder Address) (txns : List TransactionWithHint) :
    FairScheduler where
  callerQueues := queues txns
  callerProcessing := fun _ => false
  injector := order.toList (txns.map (·.caller)).toFinset
  accountBeingAccessed := ∅
  accountLastPosition := fun _ => none
  scheduled := List.replicate (txnsPerBatch concurrencyLevel) none
  scheduledIndices := []
  availableSlots := txnsPerBatch concurrencyLevel
  writes := []

def setQueue (g : FairScheduler) (caller : Address) (queue : List (Nat × TransactionWithHint)) :
    FairScheduler :=
  { g with callerQueues := update g.callerQueues caller queue }

def setProcessing (g : FairScheduler) (caller : Address) (processing : Bool) : FairScheduler :=
  { g with callerProcessing := update g.callerProcessing caller processing }

def setLastPosition (g : FairScheduler) (account : Address) (position : Nat) : FairScheduler :=
  { g with accountLastPosition := update g.accountLastPosition account (some position) }

def place (g : FairScheduler) (position : Nat) (job : Job) : FairScheduler :=
  { g with
    scheduled := g.scheduled.set position (some job.txn)
    scheduledIndices := g.scheduledIndices ++ [job.index]
    availableSlots := g.availableSlots - 1
    writes := g.writes ++ [(position, job.index)] }

/-- The steps of a thread. The choice of the environment is whether `steal` has to be retried; the
source then takes the injector to be empty. -/
def exec (decode : String → Decoding) (concurrencyLevel : Nat) (g : FairScheduler) :
    FairPoint → Bool → Option (FairScheduler × FairPoint)
  | .steal, retry =>
    match g.injector, retry with
    | caller :: callers, false => some ({ g with injector := callers }, .mark caller)
    | _, _ => some (g, .done)
  | .mark caller, _ =>
    if g.callerProcessing caller then some (g, .putBack caller)
    else some (g.setProcessing caller true, .popFront caller)
  | .putBack caller, _ => some ({ g with injector := g.injector ++ [caller] }, .steal)
  | .popFront caller, _ =>
    match g.callerQueues caller with
    | [] => some (g, .unmark caller)
    | (index, txn) :: queue =>
      some (g.setQueue caller queue, .loadSlots ⟨caller, index, txn⟩)
  | .loadSlots job, _ =>
    if g.availableSlots > 0 then
      match decode job.txn.rawHex with
      | .panics => some (g, .panicked job)
      | .unknown => some (g, .pushFront job)
      | .decoded transactTo =>
        some (g, .lockAccounts job (accessedAccounts job.txn.caller transactTo))
    -- The transaction is not put back.
    else some (g, .unmark job.caller)
  | .lockAccounts job accounts, _ =>
    if accounts.all (· ∉ g.accountBeingAccessed) then
      some ({ g with accountBeingAccessed := g.accountBeingAccessed ∪ accounts.toFinset },
        .search job accounts accounts .new)
    else some (g, .lockAccounts job accounts)
  | .search job accounts (account :: rest) s, _ =>
    some (g, .search job accounts rest (s.account concurrencyLevel (txnsPerBatch concurrencyLevel)
      g.scheduled (g.accountLastPosition account)))
  | .search job accounts [] s, _ =>
    if s.neverAccessed || s.positionFound then some (g, .claim job accounts s)
    else some (g, .unlockAccounts job accounts false)
  | .claim job accounts s, _ =>
    match s.position (txnsPerBatch concurrencyLevel) g.scheduled with
    | some position =>
      if g.scheduled[position]? = some none ∧ g.availableSlots > 0 then
        some (g.place position job, .setPositions job accounts accounts position)
      else some (g, .unlockAccounts job accounts false)
    | none => some (g, .unlockAccounts job accounts false)
  | .setPositions job accounts (account :: rest) finalPosition, _ =>
    some (g.setLastPosition account finalPosition, .setPositions job accounts rest finalPosition)
  | .setPositions job accounts [] _, _ => some (g, .unlockAccounts job accounts true)
  | .unlockAccounts job accounts positionFound, _ =>
    some ({ g with accountBeingAccessed := g.accountBeingAccessed \ accounts.toFinset },
      if positionFound then .checkQueue job else .pushFront job)
  | .pushFront job, _ =>
    some (g.setQueue job.caller ((job.index, job.txn) :: g.callerQueues job.caller),
      .unmark job.caller)
  | .checkQueue job, _ =>
    if g.callerQueues job.caller ≠ [] ∧ g.availableSlots > 0 then some (g, .pushCaller job.caller)
    else some (g, .unmark job.caller)
  | .pushCaller caller, _ =>
    some ({ g with injector := g.injector ++ [caller] }, .unmark caller)
  | .unmark caller, _ =>
    some (g.setProcessing caller false, .steal)
  | .done, _ => none
  | .panicked _, _ => none

def program (decode : String → Decoding) (concurrencyLevel : Nat) (order : IterOrder Address)
    (txns : List TransactionWithHint) : Program FairScheduler FairPoint Bool where
  shared := new concurrencyLevel order txns
  start := .steal
  exec := exec decode concurrencyLevel

def numThreads : Nat := 8

def removeScheduled (indices : List Nat) (txns : List TransactionWithHint) :
    List TransactionWithHint :=
  (indices.insertionSort (· ≥ ·)).foldl
    (fun txns idx => if idx < txns.length then txns.eraseIdx idx else txns) txns

def finish (g : FairScheduler) (txns : List TransactionWithHint) :
    List (Option TransactionWithHint) × List TransactionWithHint :=
  (g.scheduled.filter Option.isSome, removeScheduled g.scheduledIndices txns)

end FairScheduler

namespace FairPoint

def isDone : FairPoint → Bool
  | .done => true
  | _ => false

def hasEnded : FairPoint → Bool
  | .done | .panicked _ => true
  | _ => false

end FairPoint

/-- What `schedule_a_parallelizable_batch_fair_sequential` returns, once no thread is running; it panics
if a thread has. -/
def FairScheduler.returned (config : Config FairScheduler FairPoint (Fin numThreads))
    (txns : List TransactionWithHint) :
    Option (List (Option TransactionWithHint) × List TransactionWithHint) :=
  if ∀ w, (config.threads w).isDone then some (config.shared.finish txns) else none

namespace FairPoint

def marked : FairPoint → Option Address
  | .popFront caller | .pushCaller caller | .unmark caller => some caller
  | .loadSlots job | .lockAccounts job _ | .search job _ _ _ | .claim job _ _
  | .setPositions job _ _ _ | .unlockAccounts job _ _ | .pushFront job | .checkQueue job
  | .panicked job => some job.caller
  | .steal | .mark _ | .putBack _ | .done => none

/-- The transaction that is neither in its queue nor scheduled. -/
def flight : FairPoint → Option Job
  | .loadSlots job | .lockAccounts job _ | .search job _ _ _ | .claim job _ _
  | .unlockAccounts job _ false | .pushFront job | .panicked job => some job
  | _ => none

def locks : FairPoint → List Address
  | .search _ accounts _ _ | .claim _ accounts _ | .setPositions _ accounts _ _
  | .unlockAccounts _ accounts _ => accounts
  | _ => []

def token : FairPoint → Option Address
  | .mark caller | .putBack caller | .popFront caller | .pushCaller caller => some caller
  | .loadSlots job | .lockAccounts job _ | .search job _ _ _ | .claim job _ _
  | .setPositions job _ _ _ | .unlockAccounts job _ true | .checkQueue job
  | .panicked job => some job.caller
  | .unlockAccounts _ _ false | .pushFront _ | .steal | .unmark _ | .done => none

def pending : FairPoint → List Address
  | .setPositions _ _ rest _ => rest
  | _ => []

end FairPoint

section Inv

variable (decode : String → Decoding) (concurrencyLevel : Nat) (txns : List TransactionWithHint)

def accountsAt (index : Nat) : List Address := (txns[index]?).elim [] (·.accounts decode)

def callerAt (index : Nat) : Option Address := (txns[index]?).map (·.caller)

def indicesOf (caller : Address) : List Nat :=
  (List.range txns.length).filter fun i => callerAt txns i = some caller

def scheduledOf (writes : List (Nat × Nat)) (caller : Address) : List Nat :=
  (writes.map Prod.snd).filter fun i => callerAt txns i = some caller

inductive Search.Sound (last : Address → Option Nat) (seen : List Address) : Search → Prop
  | fresh : (∀ a ∈ seen, last a = none) → Sound last seen ⟨true, false, false, 0⟩
  | found {position : Nat} :
    (∀ a ∈ seen, ∀ q, last a = some q → q + concurrencyLevel ≤ position) →
    Sound last seen ⟨false, true, false, position⟩
  | outOfBound {position : Nat} : Sound last seen ⟨false, false, true, position⟩

structure SlotInv (g : FairScheduler) : Prop where
  length : g.scheduled.length = FairScheduler.txnsPerBatch concurrencyLevel
  slot : ∀ p < FairScheduler.txnsPerBatch concurrencyLevel,
    g.scheduled[p]? = some ((Placement.slot g.writes p).bind fun x => txns[x.2]?)
  once : (g.writes.map Prod.fst).Nodup
  inside : ∀ x ∈ g.writes, x.1 < FairScheduler.txnsPerBatch concurrencyLevel
  accessed : ∀ x ∈ g.writes, ∃ caller ∈ accountsAt decode txns x.2, callerAt txns x.2 = some caller
  indices : g.scheduledIndices = g.writes.map Prod.snd

variable {ω : Type}

/-- The transactions of a caller are scheduled in their order. As long as there are free slots, the
others are in the queue, or one of them is with a thread. -/
structure OrderInv (g : FairScheduler) (flight : ω → Option Job) : Prop where
  prefixes : ∀ a, scheduledOf txns g.writes a <+: indicesOf txns a
  queue : ∀ a, ∀ x ∈ g.callerQueues a, txns[x.1]? = some x.2 ∧ x.2.caller = a
  job : ∀ {w job}, flight w = some job → txns[job.index]? = some job.txn ∧ job.txn.caller = job.caller
  queued : 0 < g.availableSlots → ∀ a, (∀ w job, flight w = some job → job.caller ≠ a) →
    indicesOf txns a = scheduledOf txns g.writes a ++ (g.callerQueues a).map Prod.fst
  taken : 0 < g.availableSlots → ∀ {w job}, flight w = some job →
    indicesOf txns job.caller =
      scheduledOf txns g.writes job.caller ++ job.index :: (g.callerQueues job.caller).map Prod.fst

/-- Transactions that access a common account are apart, and the last positions are right unless a
thread is about to set them. -/
structure PositionInv (g : FairScheduler) (pending : ω → List Address) : Prop where
  spaced : Placement.Spaced (accountsAt decode txns) concurrencyLevel g.writes
  last : ∀ a, (∀ w, a ∉ pending w) →
    g.accountLastPosition a = Placement.last (accountsAt decode txns) g.writes a

def FairPoint.Ok (g : FairScheduler) : FairPoint → Prop
  | .lockAccounts job accounts =>
    accountsAt decode txns job.index = accounts ∧ job.caller ∈ accounts
  | .search job accounts rest s =>
    accountsAt decode txns job.index = accounts ∧ job.caller ∈ accounts ∧
      ∃ seen, accounts = seen ++ rest ∧ s.Sound concurrencyLevel g.accountLastPosition seen
  | .claim job accounts s =>
    accountsAt decode txns job.index = accounts ∧ job.caller ∈ accounts ∧
      s.Sound concurrencyLevel g.accountLastPosition accounts
  | .setPositions _ accounts rest position =>
    ∀ a ∈ rest, a ∈ accounts ∧
      Placement.last (accountsAt decode txns) g.writes a = some position
  | .panicked job => decode job.txn.rawHex = .panics
  | _ => True

structure FairInv (g : FairScheduler) (points : ω → FairPoint) : Prop where
  marks : Mutex.LockInv g.callerProcessing fun w => (points w).marked
  locks : Mutex.LockSetInv g.accountBeingAccessed fun w => (points w).locks
  slots : SlotInv decode concurrencyLevel txns g
  order : OrderInv txns g fun w => (points w).flight
  positions : PositionInv decode concurrencyLevel txns g fun w => (points w).pending
  ok : ∀ w, (points w).Ok decode concurrencyLevel txns g

/-- A caller is at most once on the injector or with a thread. -/
structure TokenInv (injector : List Address) (token : ω → Option Address) : Prop where
  nodup : injector.Nodup
  not_mem : ∀ {w caller}, token w = some caller → caller ∉ injector
  unique : ∀ {w w' caller}, token w = some caller → token w' = some caller → w = w'

end Inv

end CongestionControl.Pevm
