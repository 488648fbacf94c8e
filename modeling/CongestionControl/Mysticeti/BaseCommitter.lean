import CongestionControl.Mysticeti.BlockStore
import CongestionControl.Mysticeti.Committee

/-!
# The base committer

`consensus/base_committer.rs`: the direct and the indirect decision rule for one leader per wave. A
function returns `none` where the source would panic. The search for the supported block has fuel:
it goes to lower rounds.
-/

namespace CongestionControl.Mysticeti

def minimumWaveLength : RoundNumber := 3

inductive LeaderStatus
  | commit (block : StatementBlock)
  | skip (authority : AuthorityIndex) (round : RoundNumber)
  | undecided (authority : AuthorityIndex) (round : RoundNumber)
  deriving DecidableEq, Repr

namespace LeaderStatus

def round : LeaderStatus → RoundNumber
  | commit block => block.round
  | skip _ round => round
  | undecided _ round => round

def authority : LeaderStatus → AuthorityIndex
  | commit block => block.author
  | skip authority _ => authority
  | undecided authority _ => authority

def isDecided : LeaderStatus → Bool
  | commit _ => true
  | skip _ _ => true
  | undecided _ _ => false

/-- `none` is the panic; a skipped leader has no block. -/
def intoDecidedBlock : LeaderStatus → Option (Option StatementBlock)
  | commit block => some (some block)
  | skip _ _ => some none
  | undecided _ _ => none

end LeaderStatus

/-- The options of a committer, with what `with_options` asserts. -/
structure BaseCommitterOptions where
  waveLength : Nat
  leaderOffset : Nat
  roundOffset : Nat
  minimum : minimumWaveLength ≤ waveLength

/-- `order` is the order in which the maps of the store are iterated. -/
structure BaseCommitter where
  committee : Committee
  blockStore : BlockStore
  order : IterOrder BlockReference
  options : BaseCommitterOptions

namespace BaseCommitter

variable (c : BaseCommitter)

def waveNumber (round : RoundNumber) : Nat :=
  (round - c.options.roundOffset) / c.options.waveLength

def leaderRound (wave : Nat) : RoundNumber :=
  wave * c.options.waveLength + c.options.roundOffset

def decisionRound (wave : Nat) : RoundNumber :=
  wave * c.options.waveLength + c.options.waveLength - 1 + c.options.roundOffset

def electLeader (round : RoundNumber) : Option AuthorityIndex :=
  if c.leaderRound (c.waveNumber round) ≠ round then none
  else some (c.committee.electLeader (round + c.options.leaderOffset))

def searchIncludes (target : AuthorityIndex × RoundNumber)
    (search : StatementBlock → Option (Option BlockReference)) :
    List BlockReference → Option (Option BlockReference)
  | [] => some none
  | reference :: references =>
    if reference.round < target.2 then searchIncludes target search references
    else if (reference.authority, reference.round) = target then some (some reference)
    else do
      let block ← c.blockStore.getBlock reference
      let support ← search block
      if support.isSome then some support else searchIncludes target search references

def findSupport (target : AuthorityIndex × RoundNumber) :
    Nat → StatementBlock → Option (Option BlockReference)
  | 0, _ => none
  | fuel + 1, block =>
    if block.round < target.2 then some none
    else c.searchIncludes target (findSupport target fuel) block.includes

def isVote (potentialVote leaderBlock : StatementBlock) : Option Bool :=
  (c.findSupport leaderBlock.authorRound (potentialVote.round + 1) potentialVote).map fun support =>
    support = some leaderBlock.reference

def isVoteReference (leaderBlock : StatementBlock) (reference : BlockReference) : Option Bool := do
  let potentialVote ← c.blockStore.getBlock reference
  c.isVote potentialVote leaderBlock

def isCertificate (potentialCertificate leaderBlock : StatementBlock) : Option Bool :=
  StakeAggregator.reachesQuorum c.committee (c.isVoteReference leaderBlock)
    BlockReference.authority .new potentialCertificate.includes

def decideLeaderFromAnchor (anchor : StatementBlock) (leader : AuthorityIndex)
    (leaderRound : RoundNumber) : Option LeaderStatus := do
  let leaderBlocks := c.blockStore.getBlocksAtAuthorityRound c.order leader leaderRound
  let decisionBlocks :=
    c.blockStore.getBlocksByRound c.order (c.decisionRound (c.waveNumber leaderRound))
  let potentialCertificates := decisionBlocks.filter (c.blockStore.linked c.order anchor)
  let certifiedLeaderBlocks ← leaderBlocks.filterM fun leaderBlock =>
    potentialCertificates.anyM fun potentialCertificate =>
      c.isCertificate potentialCertificate leaderBlock
  match certifiedLeaderBlocks with
  | [] => some (.skip leader leaderRound)
  | [certifiedLeaderBlock] => some (.commit certifiedLeaderBlock)
  | _ :: _ :: _ => none

def isBlame (leader : AuthorityIndex) (votingBlock : StatementBlock) : Bool :=
  votingBlock.includes.all fun reference => reference.authority ≠ leader

def enoughLeaderBlame (votingRound : RoundNumber) (leader : AuthorityIndex) : Option Bool :=
  StakeAggregator.reachesQuorum c.committee (fun votingBlock => some (isBlame leader votingBlock))
    StatementBlock.author .new (c.blockStore.getBlocksByRound c.order votingRound)

def enoughLeaderSupport (decisionRound : RoundNumber) (leaderBlock : StatementBlock) :
    Option Bool :=
  StakeAggregator.reachesQuorum c.committee
    (fun decisionBlock => c.isCertificate decisionBlock leaderBlock) StatementBlock.author .new
    (c.blockStore.getBlocksByRound c.order decisionRound)

def decideFromAnchors (leader : AuthorityIndex) (leaderRound : RoundNumber) :
    List LeaderStatus → Option LeaderStatus
  | [] => some (.undecided leader leaderRound)
  | .commit anchor :: _ => c.decideLeaderFromAnchor anchor leader leaderRound
  | .skip _ _ :: anchors => decideFromAnchors leader leaderRound anchors
  | .undecided _ _ :: _ => some (.undecided leader leaderRound)

def tryIndirectDecide (leader : AuthorityIndex) (leaderRound : RoundNumber)
    (leaders : List LeaderStatus) : Option LeaderStatus :=
  c.decideFromAnchors leader leaderRound
    (leaders.filter fun x => leaderRound + c.options.waveLength ≤ x.round)

/-- The part of the direct rule after the check for blames. -/
def tryDirectCommit (leader : AuthorityIndex) (leaderRound : RoundNumber) : Option LeaderStatus := do
  let decisionRound := c.decisionRound (c.waveNumber leaderRound)
  let leaderBlocks := c.blockStore.getBlocksAtAuthorityRound c.order leader leaderRound
  let leadersWithEnoughSupport ← leaderBlocks.filterM (c.enoughLeaderSupport decisionRound)
  match leadersWithEnoughSupport with
  | [] => some (.undecided leader leaderRound)
  | [leaderBlock] => some (.commit leaderBlock)
  | _ :: _ :: _ => none

def tryDirectDecide (leader : AuthorityIndex) (leaderRound : RoundNumber) :
    Option LeaderStatus := do
  let enoughBlame ← c.enoughLeaderBlame (leaderRound + 1) leader
  if enoughBlame then some (.skip leader leaderRound) else c.tryDirectCommit leader leaderRound

end BaseCommitter

end CongestionControl.Mysticeti
