import CongestionControl.Mysticeti.BaseCommitter

/-!
# The universal committer

`consensus/universal_committer.rs`: the base committers of all pipeline stages and leader offsets are
combined into one sequence of decided leaders; and `Core::try_commit` of `core.rs`, which keeps the
last committed leader. The metrics are left out.
-/

namespace CongestionControl.Mysticeti

structure UniversalCommitter where
  blockStore : BlockStore
  committers : List BaseCommitter

namespace UniversalCommitter

def decideLeader (round : RoundNumber) (committer : BaseCommitter) (leaders : List LeaderStatus) :
    Option (List LeaderStatus) :=
  match committer.electLeader round with
  | none => some leaders
  | some leader => do
    let direct ← committer.tryDirectDecide leader round
    let status ←
      if direct.isDecided then some direct else committer.tryIndirectDecide leader round leaders
    some (status :: leaders)

def decideLeaders (u : UniversalCommitter) (lastDecidedRound : RoundNumber) :
    Option (List LeaderStatus) :=
  (List.range' lastDecidedRound (u.blockStore.highestRound + 1 - lastDecidedRound)).foldrM
    (fun round leaders => u.committers.foldrM (decideLeader round) leaders) []

def tryCommit (u : UniversalCommitter) (lastDecided : BlockReference) :
    Option (List LeaderStatus) :=
  (u.decideLeaders lastDecided.round).map fun leaders =>
    (((leaders.dropWhile fun x => (x.round, x.authority) ≠ (lastDecided.round, lastDecided.authority)
      ).drop 1).filter fun x => 0 < x.round).takeWhile LeaderStatus.isDecided

end UniversalCommitter

structure UniversalCommitterBuilder where
  committee : Committee
  waveLength : RoundNumber
  numberOfLeaders : Nat
  pipeline : Bool
  minimum : minimumWaveLength ≤ waveLength

namespace UniversalCommitterBuilder

def build (p : UniversalCommitterBuilder) (blockStore : BlockStore)
    (order : IterOrder BlockReference) : UniversalCommitter :=
  let pipelineStages := if p.pipeline then p.waveLength else 1
  let committers := (List.range pipelineStages).flatMap fun roundOffset =>
    (List.range p.numberOfLeaders).map fun leaderOffset =>
      ⟨p.committee, blockStore, order, ⟨p.waveLength, leaderOffset, roundOffset, p.minimum⟩⟩
  ⟨blockStore, committers⟩

end UniversalCommitterBuilder

namespace Core

def tryCommit (committer : UniversalCommitter) (lastCommitLeader : BlockReference) :
    Option (BlockReference × List StatementBlock) := do
  let decided ← committer.tryCommit lastCommitLeader
  let blocks ← decided.mapM LeaderStatus.intoDecidedBlock
  let sequence := blocks.reduceOption
  some ((sequence.getLast?.map StatementBlock.reference).getD lastCommitLeader, sequence)

def tryCommits : BlockReference → List UniversalCommitter →
    Option (BlockReference × List (List StatementBlock))
  | lastCommitLeader, [] => some (lastCommitLeader, [])
  | lastCommitLeader, committer :: committers => do
    let (lastCommitLeader, sequence) ← tryCommit committer lastCommitLeader
    let (lastCommitLeader, sequences) ← tryCommits lastCommitLeader committers
    some (lastCommitLeader, sequence :: sequences)

end Core

end CongestionControl.Mysticeti
