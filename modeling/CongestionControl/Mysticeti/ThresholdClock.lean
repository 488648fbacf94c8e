import CongestionControl.Mysticeti.Committee

/-!
# Checks on a block

`StatementBlock::verify` of `types.rs` with the check of `threshold_clock.rs`, the genesis blocks, and
the clock that tells for which round a node builds a block. The checks of the digest, of the signature
and of the statements are left out.
-/

namespace CongestionControl.Mysticeti

def genesisRound : RoundNumber := 0

/-- The content of a genesis block, and hence its digest, depends on the authority only. -/
def StatementBlock.newGenesis (authority : AuthorityIndex) : StatementBlock :=
  ⟨⟨authority, genesisRound, 0⟩, []⟩

def aggregateInclude (committee : Committee) (roundNumber : RoundNumber)
    (acc : StakeAggregator × Bool) (reference : BlockReference) : Option (StakeAggregator × Bool) :=
  if reference.round = roundNumber - 1 then acc.1.add reference.authority committee else some acc

def thresholdClockValidNonGenesis (block : StatementBlock) (committee : Committee) : Option Bool :=
  if block.round = 0 then none
  else if block.includes.any fun reference => block.round ≤ reference.round then some false
  else
    (block.includes.foldlM (aggregateInclude committee block.round) (StakeAggregator.new, false)).map
      Prod.snd

structure ThresholdClockAggregator where
  aggregator : StakeAggregator
  round : RoundNumber
  deriving DecidableEq

namespace ThresholdClockAggregator

def new (round : RoundNumber) : ThresholdClockAggregator := ⟨.new, round⟩

def countBlock (t : ThresholdClockAggregator) (block : BlockReference) (committee : Committee) :
    Option ThresholdClockAggregator :=
  if block.round < t.round then some t
  else if t.round < block.round then
    (StakeAggregator.new.add block.authority committee).map fun (agg, _) => ⟨agg, block.round⟩
  else
    (t.aggregator.add block.authority committee).map fun (agg, isQuorum) =>
      if isQuorum then ⟨.new, block.round + 1⟩ else ⟨agg, t.round⟩

def addBlock (t : ThresholdClockAggregator) (block : BlockReference) (committee : Committee) :
    Option ThresholdClockAggregator :=
  (t.countBlock block committee).map fun t =>
    if t.round < block.round then { t with round := block.round } else t

def getRound (t : ThresholdClockAggregator) : RoundNumber := t.round

end ThresholdClockAggregator

inductive VerifyError
  | unknownAuthor (authority : AuthorityIndex)
  | genesis
  | unknownAuthority (reference : BlockReference)
  | includeRound (reference : BlockReference) (round : RoundNumber)
  | thresholdClock
  deriving DecidableEq, Repr

def StatementBlock.verifyInclude (b : StatementBlock) (committee : Committee)
    (reference : BlockReference) : Except VerifyError Unit :=
  if ¬ committee.knownAuthority reference.authority then throw (.unknownAuthority reference)
  else if ¬ reference.round < b.round then throw (.includeRound reference b.round)
  else pure ()

def StatementBlock.verify (b : StatementBlock) (committee : Committee) : Except VerifyError Unit :=
  if ¬ committee.knownAuthority b.author then throw (.unknownAuthor b.author)
  else if b.round = genesisRound then throw .genesis
  else do
    b.includes.forM (b.verifyInclude committee)
    if thresholdClockValidNonGenesis b committee = some true then pure ()
    else throw .thresholdClock

end CongestionControl.Mysticeti
