import CongestionControl.Pevm.LazyAccount

/-!
# The read set of an execution

`VmDb` of `vm.rs` with its whole read set. A location stands for its hash. A read that fails returns the
read set as it leaves it. The cache `read_accounts` and the keys kept for diagnostics are left out.
-/

namespace CongestionControl.Pevm

open VersionMap

inductive MemoryLocation
  | basic (address : Address)
  | codeHash (address : Address)
  | storage (address : Address) (index : U256)
  deriving DecidableEq

structure MemoryView (C : Type) where
  data : MemoryLocation → Option (Versions MemoryValue)
  newBytecodes : B256 → Option C

inductive CodeError
  | storageError (message : String)
  | invalidBytecode
  deriving DecidableEq

structure StorageReads (C : Type) where
  basic : Address → Except String (Option AccountBasic)
  codeHash : Address → Except String (Option B256)
  codeByHash : B256 → Except CodeError (Option C)
  storage : Address → U256 → Except String U256

inductive VmReadError
  | read (e : BasicReadError)
  | code (e : CodeError)
  | selfDestructedAccount
  deriving DecidableEq

structure AccountInfo (C : Type) where
  balance : U256
  nonce : UInt64
  codeHash : B256
  code : Option C

structure TxCall where
  caller : Address
  /-- The recipient; none if the transaction creates a contract. -/
  transactTo : Option Address
  nonce : Option UInt64
  deriving DecidableEq

structure VmReader where
  txIdx : TxIdx
  tx : TxCall
  toCodeHash : Option B256
  isLazy : Bool
  readSet : ReadSet MemoryLocation
  deriving DecidableEq

namespace VmReader

variable {C : Type}

def enter (db : VmReader) (location : MemoryLocation) : VmReader :=
  { db with readSet := db.readSet.setOrigins location (db.readSet.origins location) }

def pushOrigin (db : VmReader) (location : MemoryLocation) (origin : ReadOrigin) :
    Except VmReadError Unit × VmReader :=
  match ReadSet.pushOrigin (db.readSet.origins location) origin with
  | .ok os => (.ok (), { db with readSet := db.readSet.setOrigins location os })
  | .error _ => (.error (.read .inconsistentRead), db.enter location)

def closest (db : VmReader) (view : MemoryView C) (location : MemoryLocation) :
    Option (TxIdx × MemoryEntry MemoryValue) :=
  (view.data location).bind fun written => lastBelow written db.txIdx

def readFrom {α : Type} (db : VmReader) (location : MemoryLocation) (origin : ReadOrigin)
    (result : Except VmReadError α) : Except VmReadError α × VmReader :=
  let (pushed, db) := db.pushOrigin location origin
  (pushed.bind fun _ => result, db)

def getCodeHash (storage : StorageReads C) (view : MemoryView C) (db : VmReader)
    (address : Address) : Except VmReadError (Option B256) × VmReader :=
  let location := MemoryLocation.codeHash address
  match db.closest view location with
  | some (_, .data _ .selfDestructed) => (.error .selfDestructedAccount, db.enter location)
  | some (txIdx, .data txIncarnation (.codeHash hash)) =>
    db.readFrom location (.mvMemory ⟨txIdx, txIncarnation⟩) (.ok (some hash))
  -- Also an ESTIMATE marker is passed over.
  | _ => db.readFrom location .storage
    ((storage.codeHash address).mapError fun e => .read (.storageError e))

/-- A database without reads; the code hash of a recipient is read at once. Only transfers to an
account without code are lazy, and only if the memory already has one of the two accounts. -/
def new (storage : StorageReads C) (view : MemoryView C) (txIdx : TxIdx) (tx : TxCall) :
    Except VmReadError VmReader :=
  let db : VmReader := ⟨txIdx, tx, none, false, []⟩
  match tx.transactTo with
  | none => .ok db
  | some recipient =>
    match db.getCodeHash storage view recipient with
    | (.error e, _) => .error e
    | (.ok toCodeHash, db) =>
      .ok { db with
        toCodeHash
        isLazy := toCodeHash.isNone && ((view.data (.basic tx.caller)).isSome ||
          (view.data (.basic recipient)).isSome) }

def account (db : VmReader) (address : Address) : VmDb MemoryLocation where
  txIdx := db.txIdx
  txNonce := db.tx.nonce
  isLazy := db.isLazy
  fromHash := .basic db.tx.caller
  toHash := db.tx.transactTo.map .basic
  readOrigins := db.readSet.origins (.basic address)

def code (storage : StorageReads C) (view : MemoryView C) (codeHash : Option B256) :
    Except VmReadError (Option C) :=
  match codeHash with
  | some hash =>
    match view.newBytecodes hash with
    | some code => .ok (some code)
    | none => (storage.codeByHash hash).mapError .code
  | none => .ok none

def withCode (storage : StorageReads C) (view : MemoryView C) (db : VmReader) (address : Address)
    (account : AccountBasic) : Except VmReadError (Option (AccountInfo C)) × VmReader :=
  let (codeHash, db) :=
    if some address = db.tx.transactTo then (.ok db.toCodeHash, db) else db.getCodeHash storage view address
  (codeHash.bind fun codeHash => (code storage view codeHash).map fun code =>
    some ⟨account.balance, account.nonce, codeHash.getD keccakEmpty, code⟩, db)

def scan (storage : StorageReads C) (view : MemoryView C) (db : VmReader) (address : Address) :
    Except BasicReadError LazyScan :=
  let acc := db.account address
  (LazyScan.run acc.readOrigins (acc.history (view.data (.basic address))).reverse .start).bind
    fun s => s.readStorage acc.readOrigins (storage.basic address)

def basic (storage : StorageReads C) (view : MemoryView C) (db : VmReader) (address : Address) :
    Except VmReadError (Option (AccountInfo C)) × VmReader :=
  let location := MemoryLocation.basic address
  if db.isLazy ∧ address = db.tx.caller then
    (.ok (some ⟨U256.max, db.tx.nonce.getD 1, keccakEmpty, none⟩), db)
  else if db.isLazy ∧ some address = db.tx.transactTo then (.ok none, db)
  else
    match db.scan storage view address with
    | .error e => (.error (.read e), db.enter location)
    | .ok s =>
      let readOrigins := db.readSet.origins location
      let origins := if readOrigins.isEmpty then s.newOrigins else readOrigins
      let db' := { db with readSet := db.readSet.setOrigins location origins }
      match (db.account address).finish location s with
      | .error e => (.error (.read e), db')
      | .ok (none, _) => (.ok none, db')
      | .ok (some account, _) => db'.withCode storage view address account

def readSlot (storage : StorageReads C) (view : MemoryView C) (db : VmReader) (address : Address)
    (index : U256) : Except VmReadError U256 × VmReader :=
  let location := MemoryLocation.storage address index
  let entry := if db.txIdx > 0 then db.closest view location else none
  match entry with
  | some (closestIdx, .data txIncarnation (.storage value)) =>
    db.readFrom location (.mvMemory ⟨closestIdx, txIncarnation⟩) (.ok value)
  | some (closestIdx, .estimate) => (.error (.read (.blockingEstimate closestIdx)), db.enter location)
  | some (_, .data _ _) => (.error (.read .invalidMemoryValueType), db.enter location)
  | none => db.readFrom location .storage
    ((storage.storage address index).mapError fun e => .read (.storageError e))

inductive Call
  | basic (address : Address)
  | storage (address : Address) (index : U256)

def succeeded {α : Type} (r : Except VmReadError α × VmReader) : Option VmReader :=
  match r.1 with
  | .ok _ => some r.2
  | .error _ => none

def call (storage : StorageReads C) (view : MemoryView C) (db : VmReader) : Call → Option VmReader
  | .basic address => succeeded (db.basic storage view address)
  | .storage address index => succeeded (db.readSlot storage view address index)

/-- The database after some reads, each of the shared memory as it was at that time. -/
inductive Reads (storage : StorageReads C) (seen : MemoryView C → Prop) : VmReader → Prop
  | new {db : VmReader} {view : MemoryView C} (txIdx : TxIdx) (tx : TxCall) : seen view →
      VmReader.new storage view txIdx tx = .ok db → Reads storage seen db
  | call {db db' : VmReader} {view : MemoryView C} (c : Call) : Reads storage seen db →
      seen view → db.call storage view c = some db' → Reads storage seen db'

def fresh (db : VmReader) : VmReader := { db with readSet := [] }

def Unblocked {α : Type} (result : Except VmReadError α) : Prop :=
  ∀ i, result ≠ .error (.read (.blockingEstimate i))

/-- Repeating the read of a location meets no ESTIMATE marker and records these origins. -/
def Repeats (storage : StorageReads C) (view : MemoryView C) (db : VmReader) :
    MemoryLocation → List ReadOrigin → Prop
  | .basic address, origins =>
    let (result, db) := db.fresh.basic storage view address
    Unblocked result ∧ db.readSet.origins (.basic address) = origins
  -- This read passes over a marker.
  | .codeHash address, origins =>
    (∀ i, db.closest view (.codeHash address) ≠ some (i, .estimate)) ∧
      (db.fresh.getCodeHash storage view address).2.readSet.origins (.codeHash address) = origins
  | .storage address index, origins =>
    let (result, db) := db.fresh.readSlot storage view address index
    Unblocked result ∧ db.readSet.origins (.storage address index) = origins

end VmReader

def MvMemory.view {C : Type} (m : MvMemory MemoryLocation MemoryValue)
    (newBytecodes : B256 → Option C) : MemoryView C := ⟨m.data, newBytecodes⟩

/-- Equal versions of a location carry equal values, in the memory and in a view of it. -/
def MvMemory.Coherent {C : Type} (m : MvMemory MemoryLocation MemoryValue) (view : MemoryView C) :
    Prop :=
  ∀ location written, view.data location = some written → ∀ i k x y,
    written i = some (.data k x) → m.entry location i = some (.data k y) → x = y

/-- The locations of code hashes have code hashes and the marks of self-destructed accounts. -/
def MvMemory.CodeTyped (m : MvMemory MemoryLocation MemoryValue) : Prop :=
  ∀ address i k x, m.entry (.codeHash address) i = some (.data k x) →
    x = .selfDestructed ∨ ∃ hash, x = .codeHash hash

end CongestionControl.Pevm
