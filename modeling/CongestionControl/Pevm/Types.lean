import CongestionControl.Lib.Transition

/-!
# The types shared by the schedulers and the multi-version memory

The declarations of `lib.rs`. Locations and values are type parameters: the multi-version memory
never looks inside a value, and it knows a location only by its hash.
-/

namespace CongestionControl.Pevm

abbrev TxIdx := Nat

abbrev TxIncarnation := Nat

inductive IncarnationStatus
  | readyToExecute
  | executing
  | executed
  | validated
  | aborting
  deriving DecidableEq, Repr

structure TxStatus where
  incarnation : TxIncarnation
  status : IncarnationStatus
  deriving DecidableEq, Repr

structure TxVersion where
  txIdx : TxIdx
  txIncarnation : TxIncarnation
  deriving DecidableEq, Repr

inductive ReadOrigin
  | mvMemory (version : TxVersion)
  | storage
  deriving DecidableEq, Repr

inductive MemoryEntry (V : Type)
  | data (incarnation : TxIncarnation) (value : V)
  | estimate
  deriving DecidableEq, Repr

inductive Task
  | execution (version : TxVersion)
  | validation (version : TxVersion)
  deriving DecidableEq, Repr

structure FinishExecFlags where
  bits : UInt8
  deriving DecidableEq, Repr

namespace FinishExecFlags

def needValidation : FinishExecFlags := ⟨0⟩

def wroteNewLocation : FinishExecFlags := ⟨1⟩

def contains (flags other : FinishExecFlags) : Bool := flags.bits &&& other.bits == other.bits

def insert (flags other : FinishExecFlags) : FinishExecFlags := ⟨flags.bits ||| other.bits⟩

/-- The zero flag is contained in every byte, so `finish_execution` always takes the branch for
transactions that need validation. -/
@[simp] theorem contains_needValidation (flags : FinishExecFlags) :
    flags.contains needValidation = true := by
  simp [contains, needValidation]

end FinishExecFlags

end CongestionControl.Pevm
