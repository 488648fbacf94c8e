import CongestionControl.Pevm.VmReader

/-!
# The write set of an execution result

`extract_write_set_from_result` of `pevm.rs`, which feeds the dependency graph. The result of an
execution is the part of it that the function reads, with the balance, the nonce and the code hash of
the accounts. The hash of a location is a parameter.
-/

namespace CongestionControl.Pevm

structure StorageSlot where
  originalValue : U256
  presentValue : U256
  deriving DecidableEq

def StorageSlot.isChanged (slot : StorageSlot) : Bool := slot.originalValue ≠ slot.presentValue

structure AccountFields where
  balance : U256
  nonce : UInt64
  codeHash : B256
  deriving DecidableEq

structure ResultAccount where
  info : AccountFields
  storage : HashMap U256 StorageSlot
  isTouched : Bool
  isCreated : Bool

structure ResultAndState where
  state : HashMap Address ResultAccount

structure StateOrder where
  accounts : IterOrder Address
  slots : IterOrder U256

section Extract

variable {H : Type} [DecidableEq H] (hash : MemoryLocation → H) (order : StateOrder)

def ResultAccount.changedStorageSlots (account : ResultAccount) : List (U256 × StorageSlot) :=
  (order.slots.entries account.storage).filter fun (_, slot) => slot.isChanged

def extractAccount (coinbase : Address) (writeSet : Finset H)
    (entry : Address × ResultAccount) : Finset H :=
  let (address, account) := entry
  if address = 0 ∨ address = coinbase then writeSet
  else
    let changedStorageSlots := account.changedStorageSlots order
    let infoChanged := changedStorageSlots.isEmpty && account.isTouched || account.isCreated
    let writeSet := if infoChanged then insert (hash (.basic address)) writeSet else writeSet
    changedStorageSlots.foldl (fun writeSet (slot, _) => insert (hash (.storage address slot)) writeSet)
      writeSet

def extractWriteSetFromResult (resultAndState : ResultAndState) (coinbase : Address) : Finset H :=
  (order.accounts.entries resultAndState.state).foldl (extractAccount hash order coinbase) ∅

end Extract

end CongestionControl.Pevm
