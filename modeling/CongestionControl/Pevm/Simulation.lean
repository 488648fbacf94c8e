import CongestionControl.Pevm.DependencyGraph

/-!
# The simulated parallel execution of a dependency graph

`simulate_parallel_execution` of `dependency_graph.rs`: idle threads are given the ready transaction
with the longest suffix of gas costs. The heaps are sorted lists. A function returns `none` where the
source would panic, or if it runs out of fuel. Times are added with wrap-around.
-/

namespace CongestionControl.Pevm

structure EstimatedCompletion where
  time : UInt64
  threadId : Nat
  deriving DecidableEq, Repr

/-- Earlier completions first, then lower threads. -/
instance : LinearOrder EstimatedCompletion :=
  LinearOrder.lift' (fun event => toLex (event.time.toNat, event.threadId)) fun a b h => by
    cases a
    cases b
    simpa [UInt64.toNat_inj] using h

namespace ThreadState

def new (threadId : Nat) : ThreadState := ⟨threadId, none, 0, []⟩

def isIdle (thread : ThreadState) : Bool := thread.currentTransaction.isNone

def assignTransaction (thread : ThreadState) (txId : TransactionId) (currentTime cost : UInt64) :
    ThreadState :=
  { thread with currentTransaction := some txId, completionTime := currentTime + cost }

def completeTransaction (thread : ThreadState) : Option (TransactionId × ThreadState) :=
  thread.currentTransaction.map fun txId =>
    (txId, { thread with
      currentTransaction := none
      completedTransactions := thread.completedTransactions ++ [txId] })

end ThreadState

def SimulationResult.new (totalTime : UInt64) (threadResults : List ThreadState)
    (executionOrder : List ScheduledTx) : SimulationResult where
  totalTime := totalTime
  threadResults := threadResults
  executionOrder := executionOrder
  sumCompletionTimes := (threadResults.map ThreadState.completionTime).foldl (· + ·) 0

namespace TransactionGraph

structure Visit where
  nodes : List TransactionNode
  visited : Finset Nat

def visitChild (dfs : Nat → Visit → Option (UInt64 × Visit)) (acc : UInt64 × Visit)
    (childIdx : Nat) : Option (UInt64 × Visit) := do
  let (childSuffix, v) ← dfs childIdx acc.2
  return (max acc.1 childSuffix, v)

/-- The recursion marks a node before it goes on, so it is no deeper than the graph has nodes. -/
def postorderDfs : Nat → Nat → Visit → Option (UInt64 × Visit)
  | 0, _, _ => none
  | fuel + 1, nodeIdx, v => do
    let node ← v.nodes[nodeIdx]?
    if nodeIdx ∈ v.visited then return (node.longestSuffix, v)
    let (maxChildSuffix, v) ← node.childrenIndices.foldlM (visitChild (postorderDfs fuel))
      (0, { v with visited := insert nodeIdx v.visited })
    let newSuffix := node.gasCost + maxChildSuffix
    let setSuffix (node : TransactionNode) := { node with longestSuffix := newSuffix }
    return (newSuffix, { v with nodes := v.nodes.modify nodeIdx setSuffix })

def pushTxn (heap : List HeapEntry) (entry : HeapEntry) : List HeapEntry :=
  heap.orderedInsert (· ≥ ·) entry

def visitRoot (fuel : Nat) (acc : Visit × List HeapEntry) (rootIdx : Nat) :
    Option (Visit × List HeapEntry) := do
  let (_, v) ← postorderDfs fuel rootIdx acc.1
  let rootNode ← v.nodes[rootIdx]?
  return (v, pushTxn acc.2 ⟨rootNode.longestSuffix, rootNode.transactionId⟩)

def rootNodes (g : TransactionGraph) : List Nat :=
  (List.range g.nodes.length).filter fun idx =>
    !g.nodes.any fun node => idx ∈ node.childrenIndices

def updateLongestSuffixPostorder (g : TransactionGraph) : Option TransactionGraph :=
  let n := g.nodes.length
  if n = 0 then some g
  -- The marks `has_parent` have the length of `nodes`.
  else if ∀ node ∈ g.nodes, ∀ childIdx ∈ node.childrenIndices, childIdx < n then do
    let (v, txnsWithoutParent) ← g.rootNodes.foldlM (visitRoot (n + 1)) (⟨g.nodes, ∅⟩, [])
    return { g with nodes := v.nodes, txnsWithoutParent }
  else none

def popTxnWithoutParent (g : TransactionGraph) : Option (TransactionId × TransactionGraph) :=
  match g.txnsWithoutParent with
  | [] => none
  | entry :: rest => some (entry.txId, { g with txnsWithoutParent := rest })

def freeChild (g : TransactionGraph) (childIdx : Nat) : Option TransactionGraph := do
  let remaining ← g.tempParents[childIdx]?
  guard (remaining > 0)
  let g := { g with tempParents := g.tempParents.set childIdx (remaining - 1) }
  if remaining - 1 = 0 then
    let childNode ← g.nodes[childIdx]?
    let entry : HeapEntry := ⟨childNode.longestSuffix, childNode.transactionId⟩
    return { g with txnsWithoutParent := pushTxn g.txnsWithoutParent entry }
  else return g

def removeTransactionAndUpdate (g : TransactionGraph) (txId : TransactionId) :
    Option TransactionGraph :=
  match g.idToIndex.lookup txId with
  | none => some g
  | some txIdx => do
    let node ← g.nodes[txIdx]?
    node.childrenIndices.foldlM freeChild g

end TransactionGraph

structure Simulation where
  graph : TransactionGraph
  threads : List ThreadState
  completionHeap : List EstimatedCompletion
  executionOrder : List ScheduledTx
  currentTime : UInt64

namespace Simulation

def start (sim : Simulation) (thread : ThreadState) (txId : TransactionId) (gasCost : UInt64) :
    Simulation :=
  let expectedCompletionTime := sim.currentTime + gasCost
  { sim with
    threads := sim.threads ++ [thread.assignTransaction txId sim.currentTime gasCost]
    completionHeap :=
      sim.completionHeap.orderedInsert (· ≤ ·) ⟨expectedCompletionTime, thread.threadId⟩
    executionOrder := sim.executionOrder ++
      [⟨thread.threadId, txId, sim.currentTime, expectedCompletionTime⟩] }

/-- The loop over the threads that assigns transactions to idle ones; the threads that have been
looked at are collected in `sim`. -/
def assignThreads : List ThreadState → Simulation → Bool → Option (Simulation × Bool)
  | [], sim, assignedAny => some (sim, assignedAny)
  | thread :: rest, sim, assignedAny =>
    if thread.isIdle then
      match sim.graph.popTxnWithoutParent with
      | some (txId, graph) => do
        let node ← graph.getNode txId
        assignThreads rest ({ sim with graph }.start thread txId node.gasCost) true
      | none => assignThreads rest { sim with threads := sim.threads ++ [thread] } assignedAny
    else assignThreads rest { sim with threads := sim.threads ++ [thread] } assignedAny

def complete (sim : Simulation) (event : EstimatedCompletion)
    (completionHeap : List EstimatedCompletion) : Option Simulation := do
  let currentTime := if event.time > sim.currentTime then event.time else sim.currentTime
  let thread ← sim.threads[event.threadId]?
  let (completedTxId, thread) ← thread.completeTransaction
  let graph ← sim.graph.removeTransactionAndUpdate completedTxId
  return { sim with
    graph, completionHeap, currentTime, threads := sim.threads.set event.threadId thread }

def run : Nat → Simulation → Option Simulation
  | 0, _ => none
  | fuel + 1, sim => do
    let (sim, assignedAny) ← assignThreads sim.threads { sim with threads := [] } false
    if assignedAny && !sim.graph.txnsWithoutParent.isEmpty then sim.run fuel
    else
      match sim.completionHeap with
      | [] => return sim
      | event :: completionHeap => do
        let sim ← sim.complete event completionHeap
        sim.run fuel

end Simulation

def TransactionGraph.simulateParallelExecution (k : Nat) (g : TransactionGraph) :
    Option TransactionGraph := do
  let tempParents := g.nodes.map fun node => node.parentIndices.length
  let g := { g with tempParents }
  let threads := (List.range k).map ThreadState.new
  let g ← g.updateLongestSuffixPostorder
  let sim ← Simulation.run (2 * g.nodes.length + 1) ⟨g, threads, [], [], 0⟩
  return { sim.graph with
    simulationResult := some (.new sim.currentTime sim.threads sim.executionOrder) }

end CongestionControl.Pevm
