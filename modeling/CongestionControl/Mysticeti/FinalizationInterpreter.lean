import CongestionControl.Mysticeti.Dag
import CongestionControl.Mysticeti.Statements

/-!
# Finalized transactions

`finalization_interpreter.rs`: each block counts the authorities that vote for a transaction in the
block or in its history. With a quorum of votes it certifies the transaction unless it is marked with
the end of the epoch. A function returns `none` where the source would panic.
-/

namespace CongestionControl.Mysticeti

/-- A linear order of the transactions, for listing them. -/
instance : LinearOrder TransactionLocator :=
  LinearOrder.lift' (fun t => toLex (t.block, t.offset)) fun t t' h => by
    obtain ⟨b, o⟩ := t
    obtain ⟨b', o'⟩ := t'
    obtain ⟨rfl, rfl⟩ := Prod.mk.inj (toLex.injective h)
    rfl

/-- A block store whose blocks have all of their fields. -/
structure SignedStore where
  store : BlockStore
  signed : StatementBlock → SignedBlock
  toStatementBlock_signed : ∀ b, (signed b).toStatementBlock = b

namespace SignedStore

def getBlock (s : SignedStore) (reference : BlockReference) : Option SignedBlock :=
  (s.store.getBlock reference).map s.signed

def getBlocksByRound (s : SignedStore) (order : IterOrder BlockReference) (round : RoundNumber) :
    List SignedBlock :=
  (s.store.getBlocksByRound order round).map s.signed

end SignedStore

/-- The orders in which the interpreter reads the hash maps: the blocks of a round, the votes that a
block has counted, and the certificates. -/
structure InterpreterOrders where
  blocks : IterOrder BlockReference
  votes : BlockReference → IterOrder TransactionLocator
  certificates : IterOrder TransactionLocator

abbrev TransactionVotes := HashMap TransactionLocator StakeAggregator

structure FinalizationInterpreter where
  transactionAggregator : HashMap BlockReference TransactionVotes
  certificateAggregator : HashMap TransactionLocator StakeAggregator
  transactionCertificates : HashMap TransactionLocator (Finset BlockReference)
  finalizedTransactions : Finset TransactionLocator

namespace FinalizationInterpreter

variable (committee : Committee) (orders : InterpreterOrders) (store : SignedStore)

def new : FinalizationInterpreter := ⟨∅, ∅, ∅, ∅⟩

def certify (f : FinalizationInterpreter) (block : SignedBlock) (transaction : TransactionLocator) :
    Option FinalizationInterpreter := do
  let certificates := (f.transactionCertificates.lookup transaction).getD ∅
  let aggregator := (f.certificateAggregator.lookup transaction).getD .new
  let (aggregator, isQuorum) ← aggregator.add block.author committee
  some { f with
    transactionCertificates :=
      f.transactionCertificates.insert transaction (insert block.reference certificates)
    certificateAggregator := f.certificateAggregator.insert transaction aggregator
    finalizedTransactions :=
      if isQuorum then insert transaction f.finalizedTransactions else f.finalizedTransactions }

def vote (f : FinalizationInterpreter) (block : SignedBlock) (transaction : TransactionLocator)
    (txVoter : AuthorityIndex) : Option FinalizationInterpreter := do
  let votes ← f.transactionAggregator.lookup block.reference
  let (aggregator, isQuorum) ← ((votes.lookup transaction).getD .new).add txVoter committee
  let f := { f with
    transactionAggregator :=
      f.transactionAggregator.insert block.reference (votes.insert transaction aggregator) }
  if isQuorum ∧ ¬ block.epochChanged then f.certify committee block transaction else some f

def voteStatement (block : SignedBlock) (f : FinalizationInterpreter) :
    BaseStatement × Nat → Option FinalizationInterpreter
  | (.vote locator .accept, _) => f.vote committee block locator block.author
  | (.vote _ (.reject _), _) => some f
  | (.voteRange range, _) =>
    range.locators.foldlM (fun f locator => f.vote committee block locator block.author) f
  | (.share _, offset) => f.vote committee block ⟨block.reference, offset⟩ block.author

/-- All the voters for a transaction vote in the block; `present` lists them in increasing order. -/
def voteAll (block : SignedBlock) (f : FinalizationInterpreter)
    (p : TransactionLocator × StakeAggregator) : Option FinalizationInterpreter :=
  (IterOrder.sorted.toList p.2.votes).foldlM (fun f voter => f.vote committee block p.1 voter) f

/-- The votes that a parent has counted. They are taken out of the table while they are read. -/
def voteParent (block : SignedBlock) (f : FinalizationInterpreter) (parent : BlockReference) :
    Option FinalizationInterpreter := do
  let parentAggregator ← f.transactionAggregator.lookup parent
  let taken := { f with transactionAggregator := f.transactionAggregator.insert parent ∅ }
  let f ← ((orders.votes parent).entries parentAggregator).foldlM (voteAll committee block) taken
  some { f with transactionAggregator := f.transactionAggregator.insert parent parentAggregator }

/-- The loop body over the includes of a block; `process` is the recursive call. -/
def includeParent (process : FinalizationInterpreter → SignedBlock → Option FinalizationInterpreter)
    (block : SignedBlock) (f : FinalizationInterpreter) (parent : BlockReference) :
    Option FinalizationInterpreter := do
  let parentBlock ← store.getBlock parent
  let f ← process f parentBlock
  voteParent committee orders block f parent

/-- `_finalized_tx_certifying_blocks`. A call that does not return at once adds a block to the table,
so the depth of the recursion is at most the number of blocks. -/
def processBlock : Nat → FinalizationInterpreter → SignedBlock → Option FinalizationInterpreter
  | 0, _, _ => none
  | fuel + 1, f, block =>
    if block.reference ∈ f.transactionAggregator then some f
    else do
      let f := { f with transactionAggregator := f.transactionAggregator.insert block.reference ∅ }
      let f ← block.statements.zipIdx.foldlM (voteStatement committee block) f
      block.includes.foldlM (includeParent committee orders store (processBlock fuel) block) f

def processRounds : Option FinalizationInterpreter :=
  (List.range (store.store.highestRound + 1)).foldlM (fun f round =>
    (store.getBlocksByRound orders.blocks round).foldlM
      (processBlock committee orders store (store.store.index.keys.card + 1)) f) new

def finalizedTxCertifyingBlocks : Option (List (TransactionLocator × Finset BlockReference)) :=
  (processRounds committee orders store).map fun f =>
    (orders.certificates.entries f.transactionCertificates).filter fun p =>
      p.1 ∈ f.finalizedTransactions

end FinalizationInterpreter

/-- The transactions for which the author of a block votes by a statement of it. -/
def SignedBlock.ballots (b : SignedBlock) : BaseStatement × Nat → List TransactionLocator
  | (.vote locator .accept, _) => [locator]
  | (.vote _ (.reject _), _) => []
  | (.voteRange range, _) => range.locators
  | (.share _, offset) => [⟨b.reference, offset⟩]

/-- The blocks of the authority are made as `try_new_block` makes them. -/
structure SignedStore.BehavesAsCore (s : SignedStore) (a : AuthorityIndex) : Prop where
  oneBlock : ∀ b ∈ s.store.blocks, ∀ b' ∈ s.store.blocks, b.author = a → b'.author = a →
    b.round = b'.round → b = b'
  /-- A block after genesis first includes the author's previous block. -/
  previous : ∀ b ∈ s.store.blocks, b.author = a → b.round ≠ 0 →
    ∃ prev ∈ s.store.blocks, prev.author = a ∧ prev.round < b.round ∧
      b.includes.head? = some prev.reference ∧
      ∀ c ∈ s.store.blocks, c.author = a → c.round < b.round → c.round ≤ prev.round
  /-- The marker of the end of the epoch stays. -/
  marker : ∀ b ∈ s.store.blocks, ∀ c ∈ s.store.blocks, b.author = a → c.author = a →
    b.round ≤ c.round → (s.signed b).epochChanged → (s.signed c).epochChanged

end CongestionControl.Mysticeti
