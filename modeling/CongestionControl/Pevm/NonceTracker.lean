import CongestionControl.Pevm.LazyAccount

/-!
# The nonce tracker

`utils/nonce_tracker.rs`. Before the transactions of several blocks are merged, the tracker records
the nonces of their callers from the prestates of the blocks; afterwards it hands out new nonces in
the order of the merged transactions.
-/

namespace CongestionControl.Pevm

/-- A transaction with its authorizations: `none` for one whose authority cannot be recovered. -/
structure SetCodeTxEnv extends TxEnv Address where
  authorizationList : Option (List (Option Address))

def SetCodeTxEnv.authorities (tx : SetCodeTxEnv) : List Address :=
  (tx.authorizationList.getD []).filterMap fun authority => authority

structure NonceTracker where
  nonces : HashMap Address UInt64

namespace NonceTracker

def new : NonceTracker := ⟨∅⟩

def callers (txenvs : List SetCodeTxEnv) : Finset Address := (txenvs.map (·.caller)).toFinset

def record {C : Type} (storage : InMemoryStorage C) (nonces : HashMap Address UInt64)
    (addr : Address) : HashMap Address UInt64 :=
  if addr ∉ nonces then
    match storage.basic addr with
    | some account => nonces.insert addr account.nonce
    | none => nonces
  else nonces

def recordFromPrestate {C : Type} (order : IterOrder Address) (t : NonceTracker)
    (storage : InMemoryStorage C) (txenvs : List SetCodeTxEnv) : NonceTracker :=
  ⟨(order.toList (callers txenvs)).foldl (record storage) t.nonces⟩

def getNonce (t : NonceTracker) (address : Address) : UInt64 := (t.nonces.lookup address).getD 0

def increaseNonce (t : NonceTracker) (address : Address) : NonceTracker :=
  let currentNonce := (t.nonces.lookup address).getD 0
  ⟨t.nonces.insert address (currentNonce + 1)⟩

def updateTxenvNonce (t : NonceTracker) (tx : SetCodeTxEnv) : NonceTracker × SetCodeTxEnv :=
  let tx := { tx with nonce := some (t.getNonce tx.caller) }
  (tx.authorities.foldl increaseNonce (t.increaseNonce tx.caller), tx)

def updateTxenvNonces (t : NonceTracker) : List SetCodeTxEnv → NonceTracker × List SetCodeTxEnv
  | [] => (t, [])
  | tx :: txenvs =>
    let (t, tx) := t.updateTxenvNonce tx
    let (t, txenvs) := t.updateTxenvNonces txenvs
    (t, tx :: txenvs)

/-- The use of the tracker: the prestates of all blocks are recorded, then the nonces of all
transactions are reassigned. -/
def reassign {C : Type} (order : IterOrder Address)
    (blocks : List (InMemoryStorage C × List SetCodeTxEnv)) : List SetCodeTxEnv :=
  let t := blocks.foldl (fun t block => t.recordFromPrestate order block.1 block.2) new
  (t.updateTxenvNonces (blocks.flatMap Prod.snd)).2

end NonceTracker

end CongestionControl.Pevm
