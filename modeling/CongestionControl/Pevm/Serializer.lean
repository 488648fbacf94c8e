import CongestionControl.Lib.Hex
import CongestionControl.Lib.Rlp
import CongestionControl.Pevm.Deserializer

/-!
# Encoding transactions

`serialization/serializer.rs`, and `adapt_tx_env` of `serialization/adapter.rs`. A request is given by
its items, and a wallet signs its bytes with the chain id filled in. What stands for a recipient that is
only a name is a parameter.
-/

namespace CongestionControl.Pevm.Serializer

open Deserializer

def uint (w n : Nat) : List UInt8 := Rlp.str (Bytes.minBe w n)

def rlpOpt {α : Type} (encode : α → List UInt8) : Option α → List UInt8
  | some a => encode a
  | none => Rlp.str []

def addressItem (a : Address) : List UInt8 := Rlp.str (Bytes.toBe 20 a)

def storageKeyItem (k : B256) : List UInt8 := Rlp.str (Bytes.toBe 32 k)

def accessListItem (item : AccessListItem) : List UInt8 :=
  Rlp.list [addressItem item.address, Rlp.list (item.storageKeys.map storageKeyItem)]

inductive TypedTransaction
  | legacy (tx : TransactionRequest)
  | eip1559 (tx : Eip1559TransactionRequest)

structure Signature where
  r : U256
  s : U256
  odd : Bool

/-- A wallet: what it signs are bytes, by their hash. -/
structure LocalWallet where
  address : Address
  chainId : Nat
  chainId_lt : chainId < 2 ^ 64
  sign : List UInt8 → Signature

def LocalWallet.fillChainId (wallet : LocalWallet) : TypedTransaction → TypedTransaction
  | .legacy tx => .legacy { tx with chainId := some (tx.chainId.getD wallet.chainId) }
  | .eip1559 tx => .eip1559 { tx with chainId := some (tx.chainId.getD wallet.chainId) }

section Encode

variable (nameBytes : String → List UInt8)

def recipient : NameOrAddress → List UInt8
  | .address a => addressItem a
  | .name name => Rlp.str (nameBytes name)

def legacyBase (tx : TransactionRequest) : List (List UInt8) :=
  [rlpOpt (uint 32) tx.nonce, rlpOpt (uint 32) tx.gasPrice, rlpOpt (uint 32) tx.gas,
    rlpOpt (recipient nameBytes) tx.toAddr, rlpOpt (uint 32) tx.value, rlpOpt Rlp.str tx.data]

def eip1559Base (tx : Eip1559TransactionRequest) : List (List UInt8) :=
  [rlpOpt (uint 8) tx.chainId, rlpOpt (uint 32) tx.nonce, rlpOpt (uint 32) tx.maxPriorityFeePerGas,
    rlpOpt (uint 32) tx.maxFeePerGas, rlpOpt (uint 32) tx.gas, rlpOpt (recipient nameBytes) tx.toAddr,
    rlpOpt (uint 32) tx.value, rlpOpt Rlp.str tx.data, Rlp.list (tx.accessList.map accessListItem)]

/-- The bytes without a signature; with a chain id a legacy request ends as EIP-155 asks. -/
def TypedTransaction.rlp : TypedTransaction → List UInt8
  | .legacy tx =>
    match tx.chainId with
    | some chainId =>
      Rlp.list (legacyBase nameBytes tx ++ [uint 8 chainId, uint 8 0, uint 8 0])
    | none => Rlp.list (legacyBase nameBytes tx)
  | .eip1559 tx => 0x02 :: Rlp.list (eip1559Base nameBytes tx)

def LocalWallet.signedPayload (wallet : LocalWallet) (tx : TypedTransaction) : List UInt8 :=
  (wallet.fillChainId tx).rlp nameBytes

def LocalWallet.signTransaction (wallet : LocalWallet) (tx : TypedTransaction) : Signature :=
  wallet.sign (wallet.signedPayload nameBytes tx)

/-- The last three items: `v` tells the chain id only in a legacy transaction. -/
def signatureItems (v : Nat) (sig : Signature) : List (List UInt8) :=
  [uint 8 v, uint 32 sig.r, uint 32 sig.s]

def LocalWallet.rlpSigned (wallet : LocalWallet) (tx : TypedTransaction) : List UInt8 :=
  let sig := wallet.signTransaction nameBytes tx
  match tx with
  | .legacy tx =>
    let v := tx.chainId.getD wallet.chainId * 2 + 35 + sig.odd.toNat
    Rlp.list (legacyBase nameBytes tx ++ signatureItems v sig)
  | .eip1559 tx => 0x02 :: Rlp.list (eip1559Base nameBytes tx ++ signatureItems sig.odd.toNat sig)

/-- `format!("0x{}", hex::encode(bytes))`. -/
def toText (bytes : List UInt8) : String := String.ofList ('0' :: 'x' :: Hex.encode bytes)

def encodeTxUnsigned (tx : TypedTransaction) : String := toText (tx.rlp nameBytes)

def encodeTxSigned (wallet : LocalWallet) (tx : TypedTransaction) : String :=
  toText (wallet.rlpSigned nameBytes tx)

def toRecipient : TransactTo → Option NameOrAddress
  | .call addr => some (.address addr)
  | .create => none

def adaptTxEnv (txEnv : TxEnv) : Eip1559TransactionRequest × Address :=
  ({ fromAddr := none
     chainId := some (txEnv.chainId.getD 0)
     nonce := some (txEnv.nonce.getD 0)
     maxPriorityFeePerGas := none
     maxFeePerGas := some txEnv.gasPrice
     gas := some txEnv.gasLimit
     toAddr := toRecipient txEnv.transactTo
     value := some txEnv.value
     data := some txEnv.data
     accessList := txEnv.accessList }, txEnv.caller)

def encodeToHex (txEnv : TxEnv) : String × Address :=
  let (tx, caller) := adaptTxEnv txEnv
  (encodeTxUnsigned nameBytes (.eip1559 tx), caller)

def encodeBatchToHex (txEnvs : List TxEnv) : List (String × Address) :=
  txEnvs.map (encodeToHex nameBytes)

end Encode

end CongestionControl.Pevm.Serializer
