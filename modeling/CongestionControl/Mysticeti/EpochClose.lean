import CongestionControl.Mysticeti.Core

/-!
# The end of an epoch

`epoch_close.rs` with the times that are stored when the epoch closes, and `Syncer::try_new_block` of
`syncer.rs` up to the commit. Whether a block is to be made is an argument, and what is done with the
committed leaders is left out.
-/

namespace CongestionControl.Mysticeti

def EpochManager.closed (e : EpochManager) : Bool := e.epochStatus = .safeToClose

/-- The values that were stored in `epoch_close_time` are kept, the last one at the end. -/
structure TimedEpochManager extends EpochManager where
  closeTimes : List Nat
  deriving DecidableEq

inductive EpochCall
  | epochChangeBegun
  | observeCommittedBlock (block : SignedBlock) (timestampUtc : Nat)

namespace TimedEpochManager

def new : TimedEpochManager := ⟨.new, []⟩

def observeCommittedBlock (committee : Committee) (e : TimedEpochManager) (block : SignedBlock)
    (timestampUtc : Nat) : Option TimedEpochManager :=
  if block.epochChanged then do
    let (changeAggregator, isQuorum) ← e.changeAggregator.add block.author committee
    let e := { e with changeAggregator }
    if isQuorum ∧ e.epochStatus ≠ .safeToClose then
      if e.epochStatus = .beginChange then
        some { e with closeTimes := e.closeTimes ++ [timestampUtc] }
      else none
    else some e
  else some e

def call (committee : Committee) (e : TimedEpochManager) : EpochCall → Option TimedEpochManager
  | .epochChangeBegun => some { e with toEpochManager := e.epochChangeBegun }
  | .observeCommittedBlock block timestampUtc =>
    e.observeCommittedBlock committee block timestampUtc

def run (committee : Committee) (calls : List EpochCall) : Option TimedEpochManager :=
  calls.foldlM (call committee) new

end TimedEpochManager

def Syncer.tryNewBlock {H : Type} (cfg : CoreConfig H) (core : Core H) (ready : Bool) (timeNs : Nat) :
    Option (Core H × List StatementBlock) :=
  if ready then do
    let (block, core) ← core.tryNewBlock cfg timeNs
    if block.isNone ∨ core.epochManager.closed then some (core, [])
    else core.commitLeaders cfg
  else some (core, [])

/-! What the epoch manager is for. -/

def EpochCall.signaller : EpochCall → Option AuthorityIndex
  | .epochChangeBegun => none
  | .observeCommittedBlock block _ => if block.epochChanged then some block.author else none

def EpochCall.time : EpochCall → List Nat
  | .epochChangeBegun => []
  | .observeCommittedBlock _ timestampUtc => [timestampUtc]

def signallers (calls : List EpochCall) : Finset AuthorityIndex :=
  (calls.filterMap EpochCall.signaller).toFinset

/-- The authors of the marked blocks that were observed are a quorum. -/
def Signalled (committee : Committee) (calls : List EpochCall) : Prop :=
  committee.isQuorum (committee.getTotalStake (signallers calls)) = true

instance (committee : Committee) (calls : List EpochCall) : Decidable (Signalled committee calls) :=
  inferInstanceAs (Decidable (_ = true))

def BegunInTime (committee : Committee) (calls : List EpochCall) : Prop :=
  ∀ pre, pre <+: calls → Signalled committee pre → .epochChangeBegun ∈ pre

/-- Every call returns. The epoch is closed from the call on with which a quorum has signalled it, that
call alone stores a time, and a node that has made it commits nothing any more. -/
def ClosesExactly (committee : Committee) (calls : List EpochCall) : Prop :=
  ∀ pre call, pre ++ [call] <+: calls → ∃ e e',
    TimedEpochManager.run committee pre = some e ∧ e.call committee call = some e' ∧
    (e'.closed = true ↔ Signalled committee (pre ++ [call])) ∧
    e'.closeTimes = e.closeTimes ++
      (if ¬ Signalled committee pre ∧ Signalled committee (pre ++ [call]) then call.time else []) ∧
    (e.changing = true → e'.changing = true) ∧
    ∀ {H : Type} (cfg : CoreConfig H) (core : Core H) (ready : Bool) (timeNs : Nat),
      core.epochManager = e'.toEpochManager → Signalled committee (pre ++ [call]) →
      ∀ core' committed, Syncer.tryNewBlock cfg core ready timeNs = some (core', committed) →
        committed = []

end CongestionControl.Mysticeti
