import CongestionControl.Pevm.Storage

/-!
# Committing the results of a block

The three ways in which `api.rs` writes state changes to the storage: `update_storage_with_results`
merges them into the accounts, `update_storage` replaces whole accounts, and `get_delta_state` collects
them in a map that is later inserted.
-/

namespace CongestionControl.Pevm

structure CommitOrder where
  addresses : IterOrder Address
  slots : IterOrder U256

/-- The state changes of a transaction: `none` for a removed account. The receipt is left out. -/
structure PevmTxExecutionResult (C : Type) where
  state : HashMap Address (Option (EvmAccount C))

section Commit

variable {C : Type} (order : CommitOrder)

def extendSlots (slots new : HashMap U256 U256) : HashMap U256 U256 :=
  (order.slots.entries new).foldl (fun slots p => slots.insert p.1 p.2) slots

def EvmAccount.merge (existing new : EvmAccount C) : EvmAccount C where
  balance := new.balance
  nonce := new.nonce
  codeHash := if new.code.isSome then new.codeHash else existing.codeHash
  code := if new.code.isSome then new.code else existing.code
  storage := extendSlots order existing.storage new.storage

def mergeChange (accounts : ChainState C) (change : Address × Option (EvmAccount C)) :
    ChainState C :=
  match change.2 with
  | some newAccount =>
    match accounts.lookup change.1 with
    | some existing => accounts.insert change.1 (existing.merge order newAccount)
    | none => accounts.insert change.1 newAccount
  | none => accounts.erase change.1

def updateStorageWithResults (storage : InMemoryStorage C)
    (results : List (PevmTxExecutionResult C)) : InMemoryStorage C :=
  { storage with
    accounts := results.foldl (fun accounts result =>
      (order.addresses.entries result.state).foldl (mergeChange order) accounts) storage.accounts }

/-- The loop body that `update_storage` and `get_delta_state` share. -/
def replaceChange (accounts : ChainState C) (change : Address × Option (EvmAccount C)) :
    ChainState C :=
  match change.2 with
  | some account => accounts.insert change.1 account
  | none => accounts.erase change.1

def replaceAll (accounts : ChainState C) (results : List (PevmTxExecutionResult C)) :
    ChainState C :=
  results.foldl (fun accounts result =>
    (order.addresses.entries result.state).foldl replaceChange accounts) accounts

def insertAll (accounts new : ChainState C) : ChainState C :=
  (order.addresses.entries new).foldl (fun accounts p => accounts.insert p.1 p.2) accounts

def InMemoryStorage.updateAccounts (storage : InMemoryStorage C) (newAccounts : ChainState C) :
    InMemoryStorage C :=
  { storage with accounts := insertAll order storage.accounts newAccounts }

def updateStorage (storage : InMemoryStorage C) (results : List (PevmTxExecutionResult C)) :
    InMemoryStorage C :=
  storage.updateAccounts order (replaceAll order storage.accounts results)

def getDeltaState (results : List (PevmTxExecutionResult C)) : ChainState C :=
  replaceAll order ∅ results

def applyDeltaState (storage : InMemoryStorage C) (deltaState : ChainState C) :
    InMemoryStorage C :=
  storage.updateAccounts order (insertAll order storage.accounts deltaState)

end Commit

end CongestionControl.Pevm
