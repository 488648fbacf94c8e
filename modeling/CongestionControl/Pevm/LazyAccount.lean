import CongestionControl.Lib.Saturating
import CongestionControl.Pevm.MvMemory
import CongestionControl.Pevm.Storage

/-!
# Lazy updates of an account

The two evaluations of the lazy updates of an account: `VmDb::basic` in `vm.rs`, which walks the history
backwards, and the loop at the end of `execute_revm_parallel` in `pevm.rs` and `graph_pevm.rs`, which
walks it forwards. The code of the account is not read here.
-/

namespace CongestionControl.Pevm

open Saturating VersionMap

inductive MemoryValue
  | basic (info : AccountBasic)
  | codeHash (hash : U256)
  | storage (value : U256)
  | lazyRecipient (addition : U256)
  | lazySender (subtraction : U256)
  | selfDestructed
  deriving DecidableEq

abbrev History := List (TxIdx × MemoryEntry MemoryValue)

inductive BasicReadError
  | storageError (message : String)
  | blockingEstimate (txIdx : TxIdx)
  | blockingNonce (txIdx : TxIdx)
  | inconsistentRead
  | invalidNonce (txIdx : TxIdx)
  | invalidMemoryValueType
  deriving DecidableEq

/-- The database of one execution. `readOrigins` is the entry of the location in its read set. -/
structure VmDb (L : Type) where
  txIdx : TxIdx
  txNonce : Option UInt64
  isLazy : Bool
  fromHash : L
  toHash : Option L
  readOrigins : List ReadOrigin

structure LazyScan where
  finalAccount : Option AccountBasic
  /-- `balance_addition` and `positive_addition`. -/
  addition : SignMagnitude (2 ^ 256)
  nonceAddition : UInt64
  newOrigins : List ReadOrigin

namespace LazyScan

def start : LazyScan := ⟨none, ⟨0, true⟩, 0, []⟩

def take (s : LazyScan) (origin : ReadOrigin) : MemoryValue → Except BasicReadError LazyScan
  | .basic basic => .ok { s with finalAccount := some basic, newOrigins := s.newOrigins ++ [origin] }
  | .lazyRecipient addition =>
    .ok { s with
      addition := s.addition.add addition
      newOrigins := s.newOrigins ++ [origin] }
  | .lazySender subtraction =>
    .ok { s with
      addition := s.addition.sub subtraction
      nonceAddition := s.nonceAddition + 1
      newOrigins := s.newOrigins ++ [origin] }
  | _ => .error .invalidMemoryValueType

def run (readOrigins : List ReadOrigin) : History → LazyScan → Except BasicReadError LazyScan
  | [], s => .ok s
  | (blockingIdx, .estimate) :: _, _ => .error (.blockingEstimate blockingIdx)
  | (closestIdx, .data txIncarnation value) :: rest, s =>
    let hasPrevOrigins := !readOrigins.isEmpty
    let origin := ReadOrigin.mvMemory ⟨closestIdx, txIncarnation⟩
    if hasPrevOrigins ∧ readOrigins.length = s.newOrigins.length then .error .inconsistentRead
    else if hasPrevOrigins ∧ readOrigins[s.newOrigins.length]? ≠ some origin then
      .error .inconsistentRead
    else do
      let s ← s.take origin value
      if s.finalAccount.isSome then .ok s else run readOrigins rest s

/-- The origins of a read that falls back to storage: `Storage` is recorded on the first read, and
has to be the last of the recorded ones on a later read. -/
def storageOrigins (readOrigins newOrigins : List ReadOrigin) :
    Except BasicReadError (List ReadOrigin) :=
  if readOrigins.isEmpty then .ok (newOrigins ++ [.storage])
  else if readOrigins.length ≠ newOrigins.length + 1 ∨ readOrigins.getLast? ≠ some .storage then
    .error .inconsistentRead
  else .ok newOrigins

def storageAccount (s : LazyScan) :
    Except String (Option AccountBasic) → Except BasicReadError (Option AccountBasic)
  | .ok (some basic) => .ok (some basic)
  | .ok none => .ok (if s.addition.magnitude > 0 then some .default else none)
  | .error message => .error (.storageError message)

def readStorage (readOrigins : List ReadOrigin) (storage : Except String (Option AccountBasic))
    (s : LazyScan) : Except BasicReadError LazyScan :=
  if s.finalAccount.isSome then .ok s
  else do
    let newOrigins ← storageOrigins readOrigins s.newOrigins
    let finalAccount ← s.storageAccount storage
    return { s with finalAccount, newOrigins }

end LazyScan

namespace VmDb

variable {L : Type} [DecidableEq L]

def history (db : VmDb L) (data : Option (Versions MemoryValue)) : History :=
  data.elim [] fun written => entriesBelow written db.txIdx

def finish (db : VmDb L) (location : L) (s : LazyScan) :
    Except BasicReadError (Option AccountBasic × List ReadOrigin) :=
  let readOrigins := if db.readOrigins.isEmpty then s.newOrigins else db.readOrigins
  match s.finalAccount with
  | some account =>
    let nonce := account.nonce + s.nonceAddition
    if location = db.fromHash ∧ db.txNonce.any (· ≠ nonce) then
      if db.txIdx > 0 then .error (.blockingNonce (db.txIdx - 1))
      else .error (.invalidNonce db.txIdx)
    else .ok (some ⟨s.addition.applyTo account.balance, nonce⟩, readOrigins)
  | none => .ok (none, readOrigins)

def basic (db : VmDb L) (storage : Except String (Option AccountBasic))
    (data : Option (Versions MemoryValue)) (location : L) :
    Except BasicReadError (Option AccountBasic × List ReadOrigin) :=
  if db.isLazy ∧ location = db.fromHash then
    .ok (some ⟨U256.max, db.txNonce.getD 1⟩, db.readOrigins)
  else if db.isLazy ∧ some location = db.toHash then
    .ok (none, db.readOrigins)
  else do
    let s ← LazyScan.run db.readOrigins (db.history data).reverse .start
    let s ← s.readStorage db.readOrigins storage
    db.finish location s

end VmDb

structure TxEnv (L : Type) where
  caller : L
  nonce : Option UInt64
  gasLimit : UInt64
  gasPrice : U256
  value : U256
  maxFeePerBlobGas : Option U256
  totalBlobGas : UInt64

def U256.ofUInt64 (n : UInt64) : U256 :=
  ⟨n.toNat, Nat.lt_of_lt_of_le n.toNat_lt (Nat.pow_le_pow_right (by decide) (by decide))⟩

def TxEnv.maxFee {L : Type} (tx : TxEnv L) : U256 :=
  let maxFee := satAdd (satMul (U256.ofUInt64 tx.gasLimit) tx.gasPrice) tx.value
  match tx.maxFeePerBlobGas with
  | some blobFee => satAdd maxFee (satMul (U256.ofUInt64 tx.totalBlobGas) blobFee)
  | none => maxFee

inductive PevmError
  | lackOfFundForMaxFee (balance fee : U256)
  | nonceMismatch (txIdx : TxIdx) (txNonce executedNonce : UInt64)
  | unreachableError
  /-- `unreachable!()`, or an index outside of the block. -/
  | panic
  deriving DecidableEq

/-- The two executors differ in what they do with an entry that is not an update of an account. -/
inductive Executor
  | pevm
  | graphPevm
  deriving DecidableEq

structure Evaluation where
  account : AccountBasic
  states : List (TxIdx × Option AccountBasic)
  deriving DecidableEq

section Evaluation

variable {L : Type} [DecidableEq L] (executor : Executor) (address : L) (txs : List (TxEnv L))
  (emptyIsNone : Bool)

def otherEntry (account : AccountBasic) : Except PevmError AccountBasic :=
  match executor with
  | .pevm => .error .panic
  | .graphPevm => .ok account

def evaluateEntry (tx : TxEnv L) (account : AccountBasic) :
    MemoryEntry MemoryValue → Except PevmError AccountBasic
  | .data _ (.basic info) => .ok info
  | .data _ (.lazyRecipient addition) =>
    .ok { account with balance := satAdd account.balance addition }
  | .data _ (.lazySender subtraction) =>
    if account.balance < tx.maxFee then
      .error (.lackOfFundForMaxFee account.balance tx.maxFee)
    else .ok ⟨satSub account.balance subtraction, account.nonce + 1⟩
  | _ => otherEntry executor account

def checkNonce (tx : TxEnv L) (txIdx : TxIdx) (account : AccountBasic) : Except PevmError Unit :=
  if tx.caller = address then
    match tx.nonce with
    | some txNonce =>
      if account.nonce = 0 then .error .unreachableError
      else if txNonce ≠ account.nonce - 1 then
        .error (.nonceMismatch txIdx txNonce (account.nonce - 1))
      else .ok ()
    | none => .ok ()
  else .ok ()

/-- One pass of the loop over the history. `emptyIsNone` is the part of the test for an empty
account that is the same in all passes: EIP-161 is enabled and the account has no code. -/
def evaluateStep (e : Evaluation) (p : TxIdx × MemoryEntry MemoryValue) :
    Except PevmError Evaluation := do
  let tx ← (txs[p.1]?).elim (.error .panic) .ok
  let account ← evaluateEntry executor tx e.account p.2
  checkNonce address tx p.1 account
  let state := if emptyIsNone ∧ account.nonce = 0 ∧ account.balance = 0 then none else some account
  return ⟨account, e.states ++ [(p.1, state)]⟩

def evaluationStart (storage : Except String (Option AccountBasic)) (history : History) :
    AccountBasic :=
  match history.head? with
  | some (_, .data _ (.basic _)) => ⟨0, 0⟩
  | _ =>
    match storage with
    | .ok (some account) => account
    | _ => ⟨0, 0⟩

def evaluateLazyAccount (storage : Except String (Option AccountBasic))
    (written : Versions MemoryValue) : Except PevmError Evaluation :=
  let history := entriesBelow written txs.length
  history.foldlM (evaluateStep executor address txs emptyIsNone)
    ⟨evaluationStart storage history, []⟩

end Evaluation

end CongestionControl.Pevm
