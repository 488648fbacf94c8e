import Mathlib.Algebra.BigOperators.Group.Finset.Basic
import CongestionControl.Pevm.GraphScheduler

/-!
# Soundness and progress of the graph scheduler

`GraphInv` holds for every graph; `LiveInv` holds for the graphs the crate builds, whose lists mirror
each other and whose edges go from lower to higher indices. Both speak of the decrements of
`remaining_dependencies` that are still `pending`.
-/

namespace CongestionControl.Pevm

open Transition

namespace GraphScheduler

/-- The decrements of a child by parents that have not released their children yet. -/
def pending (s : GraphScheduler) (c : TxIdx) : Nat :=
  ∑ p ∈ Finset.range s.dependencyGraph.nodes.length,
    if s.childrenReleased p then 0 else (s.dependencyGraph.children p).count c

def Finished (s : GraphScheduler) (i : TxIdx) : Prop :=
  (s.transactionsStatus i).status = .executed ∨ (s.transactionsStatus i).status = .validated

end GraphScheduler

/-- The heap holds ready transactions, each once, and a transaction that has been pushed is not
pushed for its parents again. -/
structure HeapInv (status : TxIdx → TxStatus) (heap : List TxIdx) (remaining pending : TxIdx → Nat) :
    Prop where
  sorted : heap.Pairwise (· ≤ ·)
  nodup : heap.Nodup
  ready : ∀ i ∈ heap, (status i).status = .readyToExecute
  spent : ∀ c, c ∈ heap ∨ status c ≠ ⟨0, .readyToExecute⟩ →
    remaining c = 0 ∨ pending c < remaining c
  /-- The counts do not come around to zero. -/
  bound : ∀ c, pending c < 2 ^ 64 ∨ pending c ≤ remaining c

variable {ω : Type}

structure GraphInv (n : Nat) (s : GraphScheduler) (pending : TxIdx → Nat)
    (threads : ω → GraphWorker) : Prop where
  blockSize : s.blockSize = n
  life : LifeInv s.transactionsStatus s.transactionsDependents fun w => (threads w).role
  heap : HeapInv s.transactionsStatus s.executableTxs s.remainingDependencies pending
  count : s.numValidated = Nat.count (fun i => (s.transactionsStatus i).status = .validated) n
  min : ∀ {i}, s.Finished i → s.minValidationIdx ≤ i
  outside : ∀ {i}, n ≤ i → s.transactionsStatus i = ⟨0, .readyToExecute⟩

/-- The invariant for graphs with mirrored lists and forward edges, in runs in which transactions
wait for lower ones: whatever is to be done next is in the heap, below the validation index, or in
somebody's hands. -/
structure LiveInv (n : Nat) (s : GraphScheduler) (pending : TxIdx → Nat)
    (threads : ω → GraphWorker) : Prop where
  base : GraphInv n s pending threads
  owned : Owned s.transactionsStatus s.transactionsDependents fun w => (threads w).role
  exact : ∀ c, s.remainingDependencies c = pending c
  heap_lt : ∀ i ∈ s.executableTxs, i < n
  queued : ∀ {i}, i < n → (s.transactionsStatus i).status = .readyToExecute →
    s.remainingDependencies i = 0 → i ∈ s.executableTxs
  dep_lt : ∀ {b i}, i ∈ s.transactionsDependents b → b < i
  dep_wait : ∀ {b i}, i ∈ s.transactionsDependents b → ¬ s.Finished b
  released : ∀ {p}, s.Finished p → s.childrenReleased p = true
  covered : ∀ {i}, (s.transactionsStatus i).status = .executed →
    s.validationIdx ≤ i ∨ ∃ w, (threads w).validates = some i

def BlocksLower (c : Config GraphScheduler GraphWorker ω) (a : ω × GraphCall) : Prop :=
  match c.threads a.1, a.2 with
  | .executing version, .addDependency blockingTxIdx => blockingTxIdx < version.txIdx
  | _, _ => True

instance (c : Config GraphScheduler GraphWorker ω) (a : ω × GraphCall) :
    Decidable (BlocksLower c a) := by
  unfold BlocksLower
  split <;> infer_instance

end CongestionControl.Pevm
