import CongestionControl.Mysticeti.Core
import CongestionControl.Mysticeti.TransactionAggregator

/-!
# The block handler of a node

The `RealBlockHandler` of `block_handler.rs`. The channel is the list of the batches in it; clients may
send at any time between two calls. The counter of pending transactions wraps around. Submission times,
metrics and the log of certified transactions are left out.
-/

namespace CongestionControl.Mysticeti

structure RealBlockHandler where
  transactionVotes : TransactionAggregator
  receiver : List (List Transaction)
  pendingTransactions : Nat

structure AggregatorCodec where
  encode : TransactionAggregator → List UInt8
  decode : List UInt8 → Option TransactionAggregator

namespace RealBlockHandler

def softMaxProposedPerBlock : Nat := 20 * 1000

def receiveWithLimit (h : RealBlockHandler) : Option (RealBlockHandler × List Transaction) :=
  if softMaxProposedPerBlock ≤ h.pendingTransactions then none
  else
    match h.receiver with
    | [] => none
    | received :: receiver =>
      some ({ h with
        receiver
        pendingTransactions := (h.pendingTransactions + received.length) % 2 ^ 64 }, received)

def receiveLoop : Nat → RealBlockHandler → List BaseStatement →
    RealBlockHandler × List BaseStatement
  | 0, h, response => (h, response)
  | fuel + 1, h, response =>
    match h.receiveWithLimit with
    | some (h, data) => receiveLoop fuel h (response ++ data.map .share)
    | none => (h, response)

def receive (h : RealBlockHandler) : RealBlockHandler × List BaseStatement :=
  receiveLoop h.receiver.length h []

variable (committee : Committee)

def handleBlock (requireResponse : Bool) (acc : RealBlockHandler × List BaseStatement)
    (block : SignedBlock) : Option (RealBlockHandler × List BaseStatement) := do
  let (h, response) := acc
  let (transactionVotes, _) ← h.transactionVotes.processBlock committee block
  let response :=
    if requireResponse then response ++ TransactionAggregator.response block else response
  some ({ h with transactionVotes }, response)

def handleBlocks (consensusOnly : Bool) (h : RealBlockHandler) (blocks : List SignedBlock)
    (requireResponse : Bool) : Option (RealBlockHandler × List BaseStatement) :=
  let acc := if requireResponse then h.receive else (h, [])
  if consensusOnly then some acc else blocks.foldlM (handleBlock committee requireResponse) acc

def handleProposal (consensusOnly : Bool) (authority : AuthorityIndex) (h : RealBlockHandler)
    (block : SignedBlock) : Option RealBlockHandler := do
  let count := block.sharedTransactions.length
  let h := { h with
    pendingTransactions := (h.pendingTransactions + 2 ^ 64 - count % 2 ^ 64) % 2 ^ 64 }
  if consensusOnly then some h
  else do
    let transactionVotes ← block.sharedRanges.foldlM
      (fun t range => TransactionAggregator.register committee t range authority) h.transactionVotes
    some { h with transactionVotes }

def state (codec : AggregatorCodec) (h : RealBlockHandler) : List UInt8 :=
  codec.encode h.transactionVotes

/-- `with_state`: nothing may be pending. -/
def recoverState (codec : AggregatorCodec) (h : RealBlockHandler) (state : List UInt8) :
    Option RealBlockHandler :=
  if h.transactionVotes.pending.keys = ∅ then
    (codec.decode state).map fun transactionVotes => { h with transactionVotes }
  else none

def blockHandler (codec : AggregatorCodec) (authority : AuthorityIndex) (consensusOnly : Bool) :
    BlockHandler RealBlockHandler where
  handleBlocks := handleBlocks committee consensusOnly
  handleProposal := handleProposal committee consensusOnly authority
  state := state codec
  recoverState := recoverState codec

def send (h : RealBlockHandler) (batch : List Transaction) : RealBlockHandler :=
  { h with receiver := h.receiver ++ [batch] }

def channel (h : RealBlockHandler) : List Transaction := h.receiver.flatten

def removed (before after : RealBlockHandler) : List Transaction :=
  before.channel.take (before.channel.length - after.channel.length)

/-- `RealBlockHandler::new`; clients may have sent batches. A vector has less than 2^63 elements. -/
structure New (h : RealBlockHandler) : Prop where
  none : h.pendingTransactions = 0
  batches : ∀ batch ∈ h.receiver, batch.length < 2 ^ 63

def Sends (h h' : RealBlockHandler) : Prop :=
  ∃ batch : List Transaction, batch.length < 2 ^ 63 ∧ h' = h.send batch

end RealBlockHandler

/-- A node over its life, with stops and restarts from its log with a new block handler, in which no
epoch change begins: the blocks that it has proposed in order, and the transactions that it has taken
from its channels. -/
inductive Core.Serves (cfg : CoreConfig RealBlockHandler) :
    List SignedBlock → List Transaction → Core RealBlockHandler → Prop
  | open {h : RealBlockHandler} {c : Core RealBlockHandler}
      (call : Core.open cfg h .empty = some c) : Serves cfg [] (h.removed c.blockHandler) c
  | step {c c' : Core RealBlockHandler} {proposed : List SignedBlock} {taken : List Transaction}
      {block : Option SignedBlock} (life : Serves cfg proposed taken c)
      (step : Core.Step cfg (fun _ _ => False) c block c') (calm : c'.epochChanging = false) :
      Serves cfg (proposed ++ block.toList) (taken ++ c.blockHandler.removed c'.blockHandler) c'
  | send {c : Core RealBlockHandler} {proposed : List SignedBlock} {taken : List Transaction}
      (life : Serves cfg proposed taken c) (batch : List Transaction) :
      Serves cfg proposed taken { c with blockHandler := c.blockHandler.send batch }
  | restart {h : RealBlockHandler} {c c' : Core RealBlockHandler} {proposed : List SignedBlock}
      {taken : List Transaction} (life : Serves cfg proposed taken c)
      (call : Core.open cfg h c.log = some c') :
      Serves cfg proposed (taken ++ h.removed c'.blockHandler) c'

/-- A node over its life, with restarts and epoch changes. It is stopped only when `stops` holds, and
proposes during an epoch change only when `drops` holds. -/
inductive Core.Life (cfg : CoreConfig RealBlockHandler) (stops drops : Core RealBlockHandler → Prop) :
    Core RealBlockHandler → Prop
  | open {h : RealBlockHandler} {c : Core RealBlockHandler} (new : h.New)
      (call : Core.open cfg h .empty = some c) : Life cfg stops drops c
  | step {c c' : Core RealBlockHandler} {block : Option SignedBlock} (life : Life cfg stops drops c)
      (step : Core.Step cfg RealBlockHandler.Sends c block c')
      (may : c.epochChanging = true → block.isSome → drops c) : Life cfg stops drops c'
  | restart {h : RealBlockHandler} {c c' : Core RealBlockHandler} (life : Life cfg stops drops c)
      (may : stops c) (new : h.New) (call : Core.open cfg h c.log = some c') :
      Life cfg stops drops c'

end CongestionControl.Mysticeti
