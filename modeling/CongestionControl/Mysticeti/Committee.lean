import CongestionControl.Mysticeti.Types
import Mathlib.Algebra.BigOperators.Group.Finset.Basic
import Mathlib.Algebra.GroupWithZero.Nat

/-!
# The committee

`committee.rs`: the stakes of the authorities, the thresholds, and the aggregator that counts the
stake of a set of voters. The public keys are left out. A function returns `none` where the source
would panic.
-/

namespace CongestionControl.Mysticeti

abbrev Stake := Nat

structure Committee where
  authorities : List Stake
  nonempty : authorities ≠ []
  positive : ∀ stake ∈ authorities, 0 < stake
  length_le : authorities.length ≤ 128
  total_lt : authorities.sum < 2 ^ 64

namespace Committee

variable (c : Committee)

def totalStake : Stake := c.authorities.sum

def validityThreshold : Stake := c.totalStake / 3

/-- The field `quorum_threshold`; the product wraps around. -/
def quorumThreshold : Stake := 2 * c.totalStake % 2 ^ 64 / 3

def getStake (authority : AuthorityIndex) : Option Stake := c.authorities[authority]?

def len : Nat := c.authorities.length

def knownAuthority (authority : AuthorityIndex) : Bool := authority < c.len

def isValid (amount : Stake) : Bool := c.validityThreshold < amount

def isQuorum (amount : Stake) : Bool := c.quorumThreshold < amount

def stake (authority : AuthorityIndex) : Stake := (c.getStake authority).getD 0

def getTotalStake (authorities : Finset AuthorityIndex) : Stake := ∑ a ∈ authorities, c.stake a

def electLeader (r : Nat) : AuthorityIndex := r % c.len

end Committee

structure StakeAggregator where
  votes : Finset AuthorityIndex
  stake : Stake
  deriving DecidableEq

namespace StakeAggregator

def new : StakeAggregator := ⟨∅, 0⟩

def add (agg : StakeAggregator) (vote : AuthorityIndex) (committee : Committee) :
    Option (StakeAggregator × Bool) :=
  (committee.getStake vote).map fun stake =>
    let agg := if vote ∈ agg.votes then agg else ⟨insert vote agg.votes, agg.stake + stake⟩
    (agg, committee.isQuorum agg.stake)

/-- The loop that counts the stake of the authors of the items that pass a test, and ends with `true`
as soon as they are a quorum. -/
def reachesQuorum {α : Type} (committee : Committee) (test : α → Option Bool)
    (authority : α → AuthorityIndex) : StakeAggregator → List α → Option Bool
  | _, [] => some false
  | agg, x :: xs => do
    let passed ← test x
    if passed then
      let (agg, isQuorum) ← agg.add (authority x) committee
      if isQuorum then some true else reachesQuorum committee test authority agg xs
    else reachesQuorum committee test authority agg xs

end StakeAggregator

end CongestionControl.Mysticeti
