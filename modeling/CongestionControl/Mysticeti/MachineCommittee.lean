import CongestionControl.Mysticeti.Committee
import Mathlib.Data.UInt

/-!
# The committee in machine arithmetic

`committee.rs` and the authority sets of `types.rs` over 64-bit stakes and 128-bit sets, as a release
build computes them. A function returns `none` where the source would panic.
-/

namespace CongestionControl.Mysticeti.Machine

def checkedAdd (a b : UInt64) : Option UInt64 :=
  if a.toNat + b.toNat < 2 ^ 64 then some (a + b) else none

structure Committee where
  authorities : List UInt64
  validityThreshold : UInt64
  quorumThreshold : UInt64
  deriving DecidableEq, Repr

namespace Committee

def new (authorities : List UInt64) : Option Committee :=
  if authorities.isEmpty then none
  else if authorities.any (· = 0) then none
  else if 128 < authorities.length then none
  else do
    let totalStake ← authorities.foldlM checkedAdd 0
    -- Only the total is checked: the product wraps around.
    some ⟨authorities, totalStake / 3, 2 * totalStake / 3⟩

variable (c : Committee)

def getStake (authority : AuthorityIndex) : Option UInt64 := c.authorities[authority]?

def len : Nat := c.authorities.length

def isValid (amount : UInt64) : Bool := c.validityThreshold < amount

def isQuorum (amount : UInt64) : Bool := c.quorumThreshold < amount

def getTotalStake (authorities : Finset AuthorityIndex) : UInt64 :=
  ∑ a ∈ authorities, (c.getStake a).getD 0

end Committee

inductive Threshold
  | quorum
  | validity
  deriving DecidableEq, Repr

def Threshold.isThreshold (c : Committee) (amount : UInt64) : Threshold → Bool
  | .quorum => c.isQuorum amount
  | .validity => c.isValid amount

structure AuthoritySet where
  bits : BitVec 128
  deriving DecidableEq, Repr

namespace AuthoritySet

def empty : AuthoritySet := ⟨0⟩

/-- A release build takes the shift modulo the width. -/
def bit (v : AuthorityIndex) : BitVec 128 := 1#128 <<< (v % 128)

def insert (set : AuthoritySet) (v : AuthorityIndex) : Bool × AuthoritySet :=
  if set.bits &&& bit v = bit v then (false, set) else (true, ⟨set.bits ||| bit v⟩)

def present (set : AuthoritySet) : List AuthorityIndex :=
  (List.range 128).filter fun v => set.bits &&& bit v ≠ 0

end AuthoritySet

structure StakeAggregator where
  votes : AuthoritySet
  stake : UInt64
  deriving DecidableEq, Repr

namespace StakeAggregator

def new : StakeAggregator := ⟨.empty, 0⟩

def add (th : Threshold) (agg : StakeAggregator) (vote : AuthorityIndex) (committee : Committee) :
    Option (StakeAggregator × Bool) := do
  let stake ← committee.getStake vote
  let (isNew, votes) := agg.votes.insert vote
  let agg := ⟨votes, if isNew then agg.stake + stake else agg.stake⟩
  some (agg, th.isThreshold committee agg.stake)

def clear (_ : StakeAggregator) : StakeAggregator := ⟨.empty, 0⟩

inductive Call
  | add (vote : AuthorityIndex)
  | clear
  deriving DecidableEq, Repr

def call (th : Threshold) (committee : Committee) (agg : StakeAggregator) :
    Call → Option StakeAggregator
  | .add vote => (agg.add th vote committee).map Prod.fst
  | .clear => some agg.clear

def sinceClear (calls : List Call) : Finset AuthorityIndex :=
  calls.foldl (fun added call =>
    match call with
    | .add vote => Insert.insert vote added
    | .clear => ∅) ∅

end StakeAggregator

end CongestionControl.Mysticeti.Machine
