import CongestionControl.Mysticeti.Dag

/-!
# Sending the blocks of another authority

`get_others_blocks` of `block_store.rs` and `stream_others_blocks` of `synchronizer.rs`. The store stays
as it is while the loop runs, and the channel stays open.
-/

namespace CongestionControl.Mysticeti

namespace BlockStore

/-- The keys of the tree map `index`. -/
def rounds (s : BlockStore) : List RoundNumber :=
  IterOrder.sorted.toList (s.index.keys.image BlockReference.round)

/-- The first rounds of the index above a round. -/
def nextRounds (s : BlockStore) (fromExcluded : RoundNumber) (limit : Nat) : List RoundNumber :=
  (s.rounds.filter (fromExcluded < ·)).take limit

def getOthersBlocks (s : BlockStore) (order : IterOrder BlockReference) (fromExcluded : RoundNumber)
    (authority : AuthorityIndex) (limit : Nat) : List StatementBlock :=
  (s.nextRounds fromExcluded limit).flatMap (s.getBlocksAtAuthorityRound order authority)

/-- The blocks that are sent in a number of passes of the loop. -/
def streamOthersBlocks (s : BlockStore) (order : IterOrder BlockReference) (author : AuthorityIndex)
    (batchSize : Nat) : Nat → RoundNumber → List StatementBlock
  | 0, _ => []
  | passes + 1, round =>
    let blocks := s.getOthersBlocks order round author batchSize
    blocks ++ s.streamOthersBlocks order author batchSize passes
      ((blocks.getLast?.map StatementBlock.round).getD round)

def othersAbove (s : BlockStore) (authority : AuthorityIndex) (round : RoundNumber) :
    Set StatementBlock :=
  {b | b ∈ s.blocks ∧ b.author = authority ∧ round < b.round}

/-- What a batch and the stream are for. -/
structure Streams (s : BlockStore) (order : IterOrder BlockReference) (authority : AuthorityIndex)
    (round : RoundNumber) (limit : Nat) : Prop where
  others : ∀ b ∈ s.getOthersBlocks order round authority limit, b ∈ s.othersAbove authority round
  ascending : (s.getOthersBlocks order round authority limit).Pairwise fun b b' => b.round ≤ b'.round
  complete : ∀ b ∈ s.getOthersBlocks order round authority limit,
    ∀ b' ∈ s.othersAbove authority round, b'.round ≤ b.round →
      b' ∈ s.getOthersBlocks order round authority limit
  empty : s.getOthersBlocks order round authority limit = [] → s.othersAbove authority round = ∅
  reaches : ∃ passes, ∀ b ∈ s.othersAbove authority round,
    b ∈ s.streamOthersBlocks order authority limit passes round

end BlockStore

end CongestionControl.Mysticeti
