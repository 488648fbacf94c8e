import CongestionControl.Pevm.FairScheduler

/-!
# The greedy batch scheduler

`schedule_a_parallelizable_batch` of `api.rs`. Every account that was accessed proposes the first free
slot of its column behind its last position, and the transaction takes the last of the proposed slots;
an account that has none to propose is passed over. The state also records the writes to `scheduled`. A
function returns `none` where the source would panic, or if it runs out of fuel.
-/

namespace CongestionControl.Pevm

open FairScheduler (txnsPerBatch)

structure GreedyBatch where
  accountLastPosition : Address → Option Nat
  nextAvailablePosition : Nat
  scheduled : List (Option TransactionWithHint)
  scheduledTxnIndices : List Nat
  availableSlots : Nat
  /-- The writes to `scheduled`, oldest first: the slot and the index of the transaction. -/
  writes : List (Nat × Nat)

structure Proposal where
  neverAccessed : Bool
  positionFound : Bool
  finalPosition : Nat
  deriving DecidableEq

namespace GreedyBatch

def new (concurrencyLevel : Nat) : GreedyBatch where
  accountLastPosition := fun _ => none
  nextAvailablePosition := 0
  scheduled := List.replicate (txnsPerBatch concurrencyLevel) none
  scheduledTxnIndices := []
  availableSlots := txnsPerBatch concurrencyLevel
  writes := []

def findSlot (scheduled : List (Option TransactionWithHint)) (bound step : Nat) :
    Nat → Nat → Option (Option Nat)
  | 0, _ => none
  | fuel + 1, position =>
    if position < bound then do
      let slot ← scheduled[position]?
      if slot.isNone then return some position
      else findSlot scheduled bound step fuel (position + step)
    else some none

def proposeFor (concurrencyLevel : Nat) (batch : GreedyBatch) (p : Proposal) (account : Address) :
    Option Proposal :=
  match batch.accountLastPosition account with
  | none => some p
  | some lastPos => do
    let bound := txnsPerBatch concurrencyLevel
    let slot ← findSlot batch.scheduled bound concurrencyLevel (bound + 1) (lastPos + concurrencyLevel)
    match slot with
    | some newPosition => return ⟨false, true, max p.finalPosition newPosition⟩
    | none => return { p with neverAccessed := false }

def position (concurrencyLevel : Nat) (batch : GreedyBatch) (accounts : List Address) :
    Option (Option Nat) := do
  let p ← accounts.foldlM (batch.proposeFor concurrencyLevel) ⟨true, false, 0⟩
  if p.neverAccessed then return some batch.nextAvailablePosition
  else if p.positionFound then return some p.finalPosition
  else return none

def place (concurrencyLevel : Nat) (batch : GreedyBatch) (index : Nat) (txn : TransactionWithHint)
    (accounts : List Address) (finalPosition : Nat) : Option GreedyBatch := do
  guard (0 < batch.availableSlots ∧ finalPosition < batch.scheduled.length)
  let bound := txnsPerBatch concurrencyLevel
  let scheduled := batch.scheduled.set finalPosition (some txn)
  -- The pointer moves on to the next free slot, or behind the last one.
  let slot ← findSlot scheduled bound 1 (bound + 1) batch.nextAvailablePosition
  return {
    accountLastPosition := accounts.foldl
      (fun last account => Function.update last account (some finalPosition))
      batch.accountLastPosition
    nextAvailablePosition := slot.getD (max batch.nextAvailablePosition bound)
    scheduled
    scheduledTxnIndices := batch.scheduledTxnIndices ++ [index]
    availableSlots := batch.availableSlots - 1
    writes := batch.writes ++ [(finalPosition, index)] }

def pass (decode : String → Decoding) (concurrencyLevel : Nat) (batch : GreedyBatch)
    (txn : TransactionWithHint) (index : Nat) : Option GreedyBatch :=
  match decode txn.rawHex with
  | .panics => none
  | .unknown => some batch
  | .decoded transactTo => do
    let accounts := accessedAccounts txn.caller transactTo
    match ← batch.position concurrencyLevel accounts with
    | some finalPosition => batch.place concurrencyLevel index txn accounts finalPosition
    | none => return batch

def scheduleAll (decode : String → Decoding) (concurrencyLevel : Nat) :
    List (TransactionWithHint × Nat) → GreedyBatch → Option GreedyBatch
  | [], batch => some batch
  | (txn, index) :: rest, batch => do
    let batch ← batch.pass decode concurrencyLevel txn index
    if batch.availableSlots = 0 then return batch
    else scheduleAll decode concurrencyLevel rest batch

/-- The end of the function: the batch and what is left in `txns`, from which the scheduled
transactions are removed from the back to the front. -/
def finish (batch : GreedyBatch) (txns : List TransactionWithHint) :
    List (Option TransactionWithHint) × List TransactionWithHint :=
  (batch.scheduled.filter Option.isSome,
    batch.scheduledTxnIndices.reverse.foldl
      (fun txns idx => if idx < txns.length then txns.eraseIdx idx else txns) txns)

end GreedyBatch

def scheduleAParallelizableBatch (decode : String → Decoding) (concurrencyLevel : Nat)
    (txns : List TransactionWithHint) :
    Option (List (Option TransactionWithHint) × List TransactionWithHint) := do
  let batch ← GreedyBatch.scheduleAll decode concurrencyLevel txns.zipIdx (.new concurrencyLevel)
  return batch.finish txns

end CongestionControl.Pevm
