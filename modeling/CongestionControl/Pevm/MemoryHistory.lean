import CongestionControl.Pevm.EngineInv

/-!
# Histories of the multi-version memory

The calls that change the memory, in any order, and what they say about a transaction: the write sets
it has recorded, and the locations at which the memory was created with an ESTIMATE marker for it.
-/

namespace CongestionControl.Pevm

inductive MemoryCall (L V : Type)
  | record (version : TxVersion) (readSet : ReadSet L) (writeSet : WriteSet L V)
  | convertWritesToEstimates (txIdx : TxIdx)

variable {L V : Type} [DecidableEq L]

namespace MvMemory

def apply (m : MvMemory L V) : MemoryCall L V → MvMemory L V
  | .record version readSet writeSet => (m.record version readSet writeSet).1
  | .convertWritesToEstimates txIdx => m.convertWritesToEstimates txIdx

def afterCalls (m : MvMemory L V) (calls : List (MemoryCall L V)) : MvMemory L V :=
  calls.foldl apply m

end MvMemory

omit [DecidableEq L] in
def MemoryCall.writeSetOf (txIdx : TxIdx) : MemoryCall L V → Option (WriteSet L V)
  | .record version _ writeSet => if version.txIdx = txIdx then some writeSet else none
  | .convertWritesToEstimates _ => none

def recordedBy (calls : List (MemoryCall L V)) (txIdx : TxIdx) : List (WriteSet L V) :=
  calls.filterMap (MemoryCall.writeSetOf txIdx)

def previousWrites (calls : List (MemoryCall L V)) (txIdx : TxIdx) : WriteSet L V :=
  (recordedBy calls txIdx).getLast?.getD []

/-- The memory is created with a marker for the transaction at the location; of several lists of
transactions for one location the last one counts. -/
def EstimatedAt (estimatedLocations : List (L × List TxIdx)) (location : L) (txIdx : TxIdx) : Prop :=
  ∃ txIdxs, lastWrite estimatedLocations location = some txIdxs ∧ txIdx ∈ txIdxs

end CongestionControl.Pevm
