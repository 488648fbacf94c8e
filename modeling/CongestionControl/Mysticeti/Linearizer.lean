import CongestionControl.Mysticeti.BlockStore
import Mathlib.Data.List.Sort

/-!
# The linearizer

`consensus/linearizer.rs`: a sequence of committed leaders is expanded into a sequence of sub-dags. A
function returns `none` where the source would panic, and the loop also if its fuel runs out.
-/

namespace CongestionControl.Mysticeti

structure CommittedSubDag where
  anchor : BlockReference
  blocks : List StatementBlock
  deriving DecidableEq, Repr

/-- `sort_by_key` is stable, and so is `insertionSort`. -/
def CommittedSubDag.sort (d : CommittedSubDag) : CommittedSubDag :=
  { d with blocks := d.blocks.insertionSort fun x y => x.round ≤ y.round }

structure Linearizer where
  committed : Finset BlockReference
  deriving DecidableEq

namespace Linearizer

def new : Linearizer := ⟨∅⟩

/-- The loop body over the includes of a block. The buffer is a stack with its top in front. -/
def pushInclude (blockStore : BlockStore) (acc : Linearizer × List StatementBlock)
    (reference : BlockReference) : Option (Linearizer × List StatementBlock) :=
  let (l, buffer) := acc
  (blockStore.getBlock reference).map fun block =>
    if reference ∈ l.committed then (l, buffer)
    else (⟨insert reference l.committed⟩, block :: buffer)

def drain (blockStore : BlockStore) :
    Nat → Linearizer → List StatementBlock → Option (Linearizer × List StatementBlock)
  | _, l, [] => some (l, [])
  | 0, _, _ :: _ => none
  | fuel + 1, l, x :: buffer => do
    let (l, buffer) ← x.includes.foldlM (pushInclude blockStore) (l, buffer)
    let (l, toCommit) ← drain blockStore fuel l buffer
    return (l, x :: toCommit)

/-- Besides the leader, only stored blocks enter the buffer, each once. -/
def collectSubDag (l : Linearizer) (blockStore : BlockStore) (leaderBlock : StatementBlock) :
    Option (Linearizer × CommittedSubDag) :=
  if leaderBlock.reference ∈ l.committed then none
  else
    (drain blockStore (blockStore.index.keys.card + 1)
        ⟨insert leaderBlock.reference l.committed⟩ [leaderBlock]).map
      fun (l, toCommit) => (l, ⟨leaderBlock.reference, toCommit⟩)

def handleCommit (blockStore : BlockStore) :
    Linearizer → List StatementBlock → Option (Linearizer × List CommittedSubDag)
  | l, [] => some (l, [])
  | l, leaderBlock :: committedLeaders => do
    let (l, subDag) ← l.collectSubDag blockStore leaderBlock
    let (l, committed) ← handleCommit blockStore l committedLeaders
    return (l, subDag.sort :: committed)

def handleCommits :
    Linearizer → List (BlockStore × List StatementBlock) →
      Option (Linearizer × List (List CommittedSubDag))
  | l, [] => some (l, [])
  | l, (blockStore, committedLeaders) :: calls => do
    let (l, committed) ← l.handleCommit blockStore committedLeaders
    let (l, rest) ← handleCommits l calls
    return (l, committed :: rest)

end Linearizer

end CongestionControl.Mysticeti
