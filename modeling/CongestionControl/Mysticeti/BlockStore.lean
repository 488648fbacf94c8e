import CongestionControl.Lib.HashOrder
import CongestionControl.Mysticeti.Types

/-!
# The block store

The index of `block_store.rs`, a map from references to blocks: the source nests a map by author and
digest in a map by round. Whether a block is in memory or in the log makes no difference to a read,
so the positions in the log are left out.
-/

namespace CongestionControl.Mysticeti

structure BlockStore where
  index : HashMap BlockReference StatementBlock
  keyed : ∀ r b, index.lookup r = some b → b.reference = r

namespace BlockStore

def empty : BlockStore := ⟨∅, fun _ _ h => nomatch h⟩

def blockExists (s : BlockStore) (reference : BlockReference) : Bool := reference ∈ s.index

def insertBlock (s : BlockStore) (block : StatementBlock) : BlockStore where
  index := s.index.insert block.reference block
  keyed r b h := by
    by_cases hr : r = block.reference
    · subst hr
      rw [Finmap.lookup_insert] at h
      exact congrArg _ (Option.some.inj h).symm
    · rw [Finmap.lookup_insert_of_ne _ hr] at h
      exact s.keyed r b h

def getBlock (s : BlockStore) (reference : BlockReference) : Option StatementBlock :=
  s.index.lookup reference

def getBlocksByRound (s : BlockStore) (order : IterOrder BlockReference) (round : RoundNumber) :
    List StatementBlock :=
  (order.toList (s.index.keys.filter fun r => r.round = round)).filterMap s.getBlock

def getBlocksAtAuthorityRound (s : BlockStore) (order : IterOrder BlockReference)
    (authority : AuthorityIndex) (round : RoundNumber) : List StatementBlock :=
  (s.getBlocksByRound order round).filter fun b => b.author = authority

/-- The field `highest_round`, the maximum over all blocks that were added. -/
def highestRound (s : BlockStore) : RoundNumber := s.index.keys.sup BlockReference.round

def includedByRound (s : BlockStore) (order : IterOrder BlockReference)
    (parents : List StatementBlock) (round : RoundNumber) : List StatementBlock :=
  (s.getBlocksByRound order round).filter fun block =>
    parents.any fun x => x.includes.contains block.reference

def linked (s : BlockStore) (order : IterOrder BlockReference)
    (laterBlock earlierBlock : StatementBlock) : Bool :=
  let rounds := List.range' earlierBlock.round (laterBlock.round - earlierBlock.round)
  let parents := rounds.reverse.foldl (s.includedByRound order) [laterBlock]
  parents.contains earlierBlock

end BlockStore

end CongestionControl.Mysticeti
