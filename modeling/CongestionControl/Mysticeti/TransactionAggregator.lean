import CongestionControl.Mysticeti.Statements

/-!
# Counting votes for transactions

The `TransactionAggregator` of `committee.rs` with the quorum threshold. The callbacks for duplicate and
unknown transactions do nothing. A function returns `none` where the source would panic or an offset
would overflow.
-/

namespace CongestionControl.Mysticeti

structure TransactionAggregator where
  pending : HashMap BlockReference (RangeMap Nat StakeAggregator)

namespace TransactionAggregator

variable (committee : Committee)

def new : TransactionAggregator := ⟨∅⟩

/-- The closure of `register`: a range that is known already is a duplicate. -/
def registerItem (vote : AuthorityIndex) (_ : Unit) (_ : Range Nat) :
    Option StakeAggregator → Option (Unit × Option StakeAggregator)
  | some aggregator => some ((), some aggregator)
  | none => (StakeAggregator.new.add vote committee).map fun (aggregator, _) => ((), some aggregator)

def register (t : TransactionAggregator) (locatorRange : TransactionLocatorRange)
    (vote : AuthorityIndex) : Option TransactionAggregator := do
  let rangeMap := (t.pending.lookup locatorRange.block).getD .empty
  let (_, rangeMap) ← rangeMap.mutateRange (registerItem committee vote) () locatorRange.range
  some ⟨t.pending.insert locatorRange.block rangeMap⟩

/-- The closure of `vote`: with a quorum the range is processed and not counted any more. -/
def voteItem (block : BlockReference) (vote : AuthorityIndex) (processed : List TransactionLocator)
    (range : Range Nat) : Option StakeAggregator →
    Option (List TransactionLocator × Option StakeAggregator)
  | none => some (processed, none)
  | some aggregator =>
    (aggregator.add vote committee).map fun (aggregator, isQuorum) =>
      if isQuorum then (processed ++ (TransactionLocatorRange.new block range).locators, none)
      else (processed, some aggregator)

def vote (t : TransactionAggregator) (locatorRange : TransactionLocatorRange) (vote : AuthorityIndex)
    (processed : List TransactionLocator) :
    Option (TransactionAggregator × List TransactionLocator) :=
  match t.pending.lookup locatorRange.block with
  | some rangeMap => do
    let (processed, rangeMap) ←
      rangeMap.mutateRange (voteItem committee locatorRange.block vote) processed locatorRange.range
    let pending :=
      if rangeMap.isEmpty then t.pending.erase locatorRange.block
      else t.pending.insert locatorRange.block rangeMap
    some (⟨pending⟩, processed)
  | none => some (t, processed)

/-- The loop body over the statements of a block; a vote against a transaction is not implemented. -/
def processStatement (author : AuthorityIndex)
    (acc : TransactionAggregator × List TransactionLocator) :
    BaseStatement → Option (TransactionAggregator × List TransactionLocator)
  | .share _ => some acc
  | .vote locator .accept => do
    let range ← TransactionLocatorRange.one locator
    acc.1.vote committee range author acc.2
  | .vote _ (.reject _) => none
  | .voteRange range => acc.1.vote committee range author acc.2

def processBlock (t : TransactionAggregator) (block : SignedBlock) :
    Option (TransactionAggregator × List TransactionLocator) := do
  let t ← block.sharedRanges.foldlM (fun t range => t.register committee range block.author) t
  block.statements.foldlM (processStatement committee block.author) (t, [])

/-- What `process_block` adds to the response: a vote for each range of shared transactions. -/
def response (block : SignedBlock) : List BaseStatement := block.sharedRanges.map .voteRange

def processBlocks : TransactionAggregator → List SignedBlock →
    Option (TransactionAggregator × List TransactionLocator)
  | t, [] => some (t, [])
  | t, block :: blocks => do
    let (t, processed) ← t.processBlock committee block
    let (t, rest) ← processBlocks t blocks
    some (t, processed ++ rest)

end TransactionAggregator

end CongestionControl.Mysticeti
