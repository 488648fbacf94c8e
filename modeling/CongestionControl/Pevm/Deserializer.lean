import CongestionControl.Lib.Bytes
import CongestionControl.Pevm.FairScheduler

/-!
# Decoding transactions

`serialization/deserializer.rs` and `serialization/adapter.rs`. The decoders of the libraries are
parameters; a piece of RLP is its raw bytes. A function returns `none` where the source would panic.
-/

namespace CongestionControl.Pevm.Deserializer

structure Decoders where
  deserialize : List UInt8 → Option TransactionWithHint
  fromHex : List Char → Option (List UInt8)
  itemCount : List UInt8 → Option Nat
  itemAt : List UInt8 → Nat → Option (List UInt8)
  data : List UInt8 → Option (List UInt8)
  iter : List UInt8 → List (List UInt8)
  /-- `RlpStream::new_list` with the raw items appended. -/
  newList : List (List UInt8) → List UInt8
  /-- The hash of the unsigned bytes and `Signature::recover` with `r`, `s` and `v`. -/
  recover : Nat → Nat → Nat → List UInt8 → Option Address

inductive NameOrAddress
  | name (name : String)
  | address (address : Address)
  deriving DecidableEq

structure TransactionRequest where
  fromAddr : Option Address
  toAddr : Option NameOrAddress
  gas : Option Nat
  gasPrice : Option Nat
  value : Option Nat
  data : Option (List UInt8)
  nonce : Option Nat
  chainId : Option Nat := none
  deriving DecidableEq

structure AccessListItem where
  address : Address
  storageKeys : List B256
  deriving DecidableEq

structure Eip1559TransactionRequest where
  fromAddr : Option Address
  chainId : Option Nat
  nonce : Option Nat
  maxPriorityFeePerGas : Option Nat
  maxFeePerGas : Option Nat
  gas : Option Nat
  toAddr : Option NameOrAddress
  value : Option Nat
  data : Option (List UInt8)
  accessList : List AccessListItem
  deriving DecidableEq

inductive DecodedTransaction
  | legacy (tx : TransactionRequest) (caller : Address)
  | eip1559 (tx : Eip1559TransactionRequest) (caller : Address)
  | unknown (message : String)
  deriving DecidableEq

structure TxEnv where
  caller : Address
  gasLimit : Nat
  gasPrice : Nat
  transactTo : TransactTo
  value : Nat
  data : List UInt8
  nonce : Option Nat
  chainId : Option Nat
  accessList : List AccessListItem
  deriving DecidableEq

def bigEndian (b : List UInt8) : Nat := Bytes.ofLe b.reverse

/-- `from_big_endian` of a type with `w` bytes, which asserts that the bytes fit. -/
def fromBigEndian (w : Nat) (b : List UInt8) : Option Nat :=
  if b.length ≤ w then some (bigEndian b) else none

def fromBytes (w : Nat) (b : List UInt8) : Option Nat :=
  if b.isEmpty then some 0 else fromBigEndian w b

def u256FromBytes : List UInt8 → Option Nat := fromBytes 32

def u64FromBytes : List UInt8 → Option Nat := fromBytes 8

def asU64 (n : Nat) : Option Nat := if n < 2 ^ 64 then some n else none

def addressOf (b : List UInt8) : Address := Fin.ofNat _ (bigEndian b)

/-- Of more than 20 bytes the last ones count. -/
def parseToAddress (b : List UInt8) : Option Address :=
  if b.isEmpty then none
  else if b.length ≠ 20 then
    if 20 < b.length then some (addressOf (b.drop (b.length - 20))) else none
  else some (addressOf b)

/-- `[0u8; 20]` with the bytes copied into it: `copy_from_slice` asserts equal lengths. -/
def copyAddress (b : List UInt8) : Option Address :=
  if b.length = 20 then some (addressOf b) else none

section Decode

variable (d : Decoders)

/-- `r.at(i).unwrap().data().unwrap_or_default()`. -/
def field (r : List UInt8) (i : Nat) : Option (List UInt8) :=
  (d.itemAt r i).map fun item => (d.data item).getD []

def u256Field (r : List UInt8) (i : Nat) : Option Nat := (field d r i).bind u256FromBytes

def u64Field (r : List UInt8) (i : Nat) : Option Nat := (field d r i).bind u64FromBytes

def storageKeys (storageRlp : List UInt8) : List B256 :=
  (d.iter storageRlp).filterMap fun k =>
    let kb := (d.data k).getD []
    if kb.length ≤ 32 then some (Fin.ofNat _ (bigEndian kb)) else none

/-- The last 20 bytes are the address; `saturating_sub` leaves fewer bytes as they are. -/
def accessListAddress (addrBytes : List UInt8) : Option Address :=
  if addrBytes.length = 20 then copyAddress addrBytes
  else copyAddress (addrBytes.drop (addrBytes.length - 20))

def parseAccessListItem (item : List UInt8) : Option AccessListItem := do
  let addrBytes ← field d item 0
  let address ← accessListAddress addrBytes
  let storageRlp ← d.itemAt item 1
  some ⟨address, storageKeys d storageRlp⟩

def parseAccessList (rlp : List UInt8) (idx : Nat) : Option (List AccessListItem) := do
  let accessListRlp ← d.itemAt rlp idx
  (d.iter accessListRlp).mapM (parseAccessListItem d)

def recoverAddress (rSig sSig v : Nat) (unsigned : List UInt8) : Option Address := do
  let v ← asU64 v
  d.recover rSig sSig v unsigned

def decodeSender (r : List UInt8) (first : Nat) (noSignature : List UInt8) : Option Address := do
  let v ← u256Field d r first
  let rSig ← u256Field d r (first + 1)
  let sSig ← u256Field d r (first + 2)
  recoverAddress d rSig sSig v noSignature

def decodeCaller (r : List UInt8) (items first : Nat) (noSignature : List UInt8) : Option Address :=
  if items ≤ (d.itemCount r).getD 0 then decodeSender d r first noSignature else some 0

def decodeLegacy (r : List UInt8) (noSignature : List UInt8) :
    Option (TransactionRequest × Address) := do
  let nonce ← u256Field d r 0
  let gasPrice ← u256Field d r 1
  let gasLimit ← u256Field d r 2
  let toAddr := parseToAddress (← field d r 3)
  let value ← u256Field d r 4
  let data ← field d r 5
  let caller ← decodeCaller d r 9 6 noSignature
  some ({
    fromAddr := some caller, toAddr := toAddr.map .address, gas := some gasLimit, gasPrice := some gasPrice,
    value := some value, data := some data, nonce := some nonce }, caller)

/-- The signature is read from eleven items on, although it ends with the twelfth. -/
def decodeEip1559 (r : List UInt8) (noSignature : List UInt8) :
    Option (Eip1559TransactionRequest × Address) := do
  let chainId ← u64Field d r 0
  let nonce ← u256Field d r 1
  let maxPriority ← u256Field d r 2
  let maxFee ← u256Field d r 3
  let gasLimit ← u256Field d r 4
  let toAddr := parseToAddress (← field d r 5)
  let value ← u256Field d r 6
  let data ← field d r 7
  let accessList ← parseAccessList d r 8
  let caller ← decodeCaller d r 11 9 noSignature
  some ({
    fromAddr := some caller, chainId := some chainId, nonce := some nonce,
    maxPriorityFeePerGas := some maxPriority, maxFeePerGas := some maxFee, gas := some gasLimit,
    toAddr := toAddr.map .address, value := some value, data := some data, accessList }, caller)

def splitType (rawBytes : List UInt8) : Option UInt8 × List UInt8 :=
  match rawBytes with
  | [] => (none, rawBytes)
  | b :: rest => if b = 0x02 ∨ b = 0x01 then (some b, rest) else (none, rawBytes)

def stripSignature (rawBytes : List UInt8) : Option (List UInt8) := do
  let (txType, rlp) := splitType rawBytes
  let totalItems ← d.itemCount rlp
  if totalItems < 3 then none
  else
    let items ← (List.range (totalItems - 3)).mapM (d.itemAt rlp)
    some (txType.toList ++ d.newList items)

def trimStartMatches : List Char → List Char
  | '0' :: 'x' :: cs => trimStartMatches cs
  | cs => cs

def decodeHexWithKnownAddr (rawHex : String) (addr : Address) : Option DecodedTransaction := do
  let bytes ← d.fromHex (trimStartMatches rawHex.toList)
  match bytes with
  | [] => some (.unknown "Error: Empty Bytes")
  | b :: rest =>
    let noSignature ← stripSignature d bytes
    if b = 0x02 then
      if bytes.length < 2 then some (.unknown "Error: malformed 1559")
      else (decodeEip1559 d rest noSignature).map fun (eip1559, _) => .eip1559 eip1559 addr
    else if 0xc0 ≤ b then
      (decodeLegacy d bytes noSignature).map fun (legacy, _) => .legacy legacy addr
    else some (.unknown "Error: Unknown transaction type")

/-- As with a known address, but the caller is the one that is recovered. -/
def decodeHex (rawHex : String) : Option DecodedTransaction := do
  let bytes ← d.fromHex (trimStartMatches rawHex.toList)
  match bytes with
  | [] => some (.unknown "Error: Empty Bytes")
  | b :: rest =>
    let noSignature ← stripSignature d bytes
    if b = 0x02 then
      if bytes.length < 2 then some (.unknown "Error: malformed 1559")
      else (decodeEip1559 d rest noSignature).map fun (eip1559, caller) => .eip1559 eip1559 caller
    else if 0xc0 ≤ b then
      (decodeLegacy d bytes noSignature).map fun (legacy, caller) => .legacy legacy caller
    else some (.unknown "Error: Unknown transaction type")

end Decode

/-- A name would have to be resolved, which is not implemented. -/
def toTxKind : Option NameOrAddress → Option TransactTo
  | some (.address addr) => some (.call addr)
  | some (.name _) => none
  | none => some .create

def nonceAsU64 : Option Nat → Option (Option Nat)
  | some v => (asU64 v).map some
  | none => some none

def gasAsU64 : Option Nat → Option Nat
  | some v => asU64 v
  | none => some 0

def legacyTransaction2TxEnv (tx : TransactionRequest) (caller : Address) : Option TxEnv := do
  let gasLimit ← gasAsU64 tx.gas
  let transactTo ← toTxKind tx.toAddr
  let nonce ← nonceAsU64 tx.nonce
  some {
    caller, gasLimit, gasPrice := tx.gasPrice.getD 0, transactTo, value := tx.value.getD 0,
    data := tx.data.getD [], nonce, chainId := none, accessList := [] }

/-- The base fee is zero, so that the sum with it does not overflow. -/
def eip1559Transaction2TxEnv (tx : Eip1559TransactionRequest) (caller : Address) : Option TxEnv := do
  let baseFee := 0
  let maxPriorityFeePerGas := tx.maxPriorityFeePerGas.getD 0
  let maxFeePerGas := tx.maxFeePerGas.getD 0
  let gasPrice :=
    if baseFee + maxPriorityFeePerGas < maxFeePerGas then maxFeePerGas else maxPriorityFeePerGas
  let nonce ← nonceAsU64 tx.nonce
  let gasLimit ← gasAsU64 tx.gas
  let transactTo ← toTxKind tx.toAddr
  some {
    caller, chainId := some (tx.chainId.getD 0), nonce, gasLimit, gasPrice, transactTo,
    value := tx.value.getD 0, data := tx.data.getD [], accessList := tx.accessList }

def adaptTransaction : DecodedTransaction → Option TxEnv
  | .legacy tx caller => legacyTransaction2TxEnv tx caller
  | .eip1559 tx caller => eip1559Transaction2TxEnv tx caller
  | .unknown _ => none

/-- The inner option is the source's: there is none for a transaction of another type. -/
def decodeOneHex (d : Decoders) (hex : String) (addr : Address) : Option (Option TxEnv) := do
  let deserializedTx ← decodeHexWithKnownAddr d hex addr
  match deserializedTx with
  | .unknown _ => some none
  | deserializedTx =>
    let txEnv ← adaptTransaction deserializedTx
    some (some txEnv)

def decodeBatchHex (d : Decoders) : List (String × Address) → Option (List TxEnv)
  | [] => some []
  | (hex, addr) :: rest => do
    let deserializedTx ← decodeHexWithKnownAddr d hex addr
    match deserializedTx with
    | .unknown _ => decodeBatchHex d rest
    | deserializedTx =>
      let txEnv ← adaptTransaction deserializedTx
      let results ← decodeBatchHex d rest
      some (txEnv :: results)

end CongestionControl.Pevm.Deserializer
