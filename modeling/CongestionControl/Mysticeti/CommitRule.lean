import CongestionControl.Lib.Anchored
import CongestionControl.Mysticeti.Dag
import CongestionControl.Mysticeti.Proofs.CommitteeProofs

/-!
# The commit rule

What the committer with waves of length three is for, over sets of blocks. Only the direct rule depends
on the part of the DAG that is known.
-/

namespace CongestionControl.Mysticeti

def Equivocates (blocks : Set StatementBlock) (a : AuthorityIndex) : Prop :=
  ∃ b ∈ blocks, ∃ b' ∈ blocks, b.author = a ∧ b'.author = a ∧ b.round = b'.round ∧ b ≠ b'

/-- A DAG of genesis blocks and blocks that pass the checks, in which the equivocating authorities
are below the validity threshold. -/
structure ConsensusDag (committee : Committee) where
  blocks : Set StatementBlock
  unique : ∀ b ∈ blocks, ∀ b' ∈ blocks, b.reference = b'.reference → b = b'
  valid : ∀ b ∈ blocks, (∃ a, committee.knownAuthority a ∧ b = .newGenesis a) ∨
    b.verify committee = .ok ()
  honest : ∀ authorities : Finset AuthorityIndex, (∀ a ∈ authorities, Equivocates blocks a) →
    committee.isValid (committee.getTotalStake authorities) = false

/-- A store with a causally closed part of the DAG, iterated in some order. -/
structure View {committee : Committee} (dag : ConsensusDag committee) where
  store : BlockStore
  order : IterOrder BlockReference
  subset : store.blocks ⊆ dag.blocks
  closed : Closed store.blocks

abbrev Slot := AuthorityIndex × RoundNumber

/-- The voting block's first include at the slot of the leader block is the leader block. -/
def Votes (v b : StatementBlock) : Prop :=
  v.round = b.round + 1 ∧
    v.includes.find? (fun i => (i.authority, i.round) = b.authorRound) = some b.reference

def Blames (leader : AuthorityIndex) (v : StatementBlock) : Prop :=
  ∀ i ∈ v.includes, i.authority ≠ leader

def Far (s t : Slot) : Prop := s.2 + 3 ≤ t.2

instance : DecidableRel Far := fun s t => inferInstanceAs (Decidable (s.2 + 3 ≤ t.2))

def Committee.Blamed (committee : Committee) (known : Set StatementBlock) (s : Slot) : Prop :=
  committee.HasQuorum fun a => ∃ v ∈ known, v.round = s.2 + 1 ∧ Blames s.1 v ∧ v.author = a

namespace ConsensusDag

variable {committee : Committee} (dag : ConsensusDag committee)

def Certifies (c b : StatementBlock) : Prop :=
  c.round = b.round + 2 ∧ committee.HasQuorum fun a =>
    ∃ v ∈ dag.blocks, v.reference ∈ c.includes ∧ Votes v b ∧ v.author = a

def Link (x y : StatementBlock) : Prop :=
  y ∈ dag.blocks ∧ y.reference ∈ x.includes ∧ x.round = y.round + 1

def CertifiedFrom (anchor b : StatementBlock) : Prop :=
  ∃ c ∈ dag.blocks, Relation.ReflTransGen dag.Link anchor c ∧ dag.Certifies c b

def Supported (known : Set StatementBlock) (b : StatementBlock) : Prop :=
  committee.HasQuorum fun a => ∃ c ∈ known, dag.Certifies c b ∧ c.author = a

open Classical in
noncomputable def direct (known : Set StatementBlock) (s : Slot) : Anchored.Verdict StatementBlock :=
  if committee.Blamed known s then .skip
  else if h : ∃ b ∈ dag.blocks, b.authorRound = s ∧ dag.Supported known b then .commit h.choose
  else .undecided

open Classical in
noncomputable def fromAnchor (anchor : StatementBlock) (s : Slot) : Anchored.Verdict StatementBlock :=
  if h : ∃ b ∈ dag.blocks, b.authorRound = s ∧ dag.CertifiedFrom anchor b then .commit h.choose
  else .skip

end ConsensusDag

end CongestionControl.Mysticeti
