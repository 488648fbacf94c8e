import CongestionControl.Pevm.Simulation

/-!
# Greedy integration of the dependency graphs of several blocks

`greedy_integrator.rs` and `GraphPevm::reorder_txs_by_dependency_graph`. What is decided by
floating-point comparisons is an `Outcomes`, as are the iteration orders of the hash tables. A function
returns `none` where the source would panic.
-/

namespace CongestionControl.Pevm

open scoped List

/-- The outcomes of the comparisons, for each group and each position of the list of candidates. -/
structure Outcomes where
  sortByCv : List (Nat × TransactionGraph) → List (Nat × TransactionGraph)
  sortByCv_perm : ∀ l, sortByCv l ~ l
  /-- `decent_graph` for the group, before the candidate is looked at. -/
  decentGraph : Nat → Nat → Bool
  hasCommonHotKeys : Nat → Nat → Bool
  /-- `cv_g <= cv_base` for the group merged with the candidate. -/
  cvDecent : Nat → Nat → Bool
  mergeOrder : Nat → Nat → HashOrder
  /-- The iteration orders when a transaction is added to the new graph of a group. -/
  addOrder : Nat → Nat → HashOrder

section Reorder

variable {τ : Type}

def reorderTx (addOrder : Nat → HashOrder) (txs : List τ) (graph : TransactionGraph)
    (acc : List τ × TransactionGraph) (scheduled : ScheduledTx) :
    Option (List τ × TransactionGraph) :=
  match graph.idToIndex.lookup scheduled.txId with
  | some index => do
    let tx ← txs[index]?
    let txnNode ← graph.nodes[index]?
    -- The result of `add_transaction` is ignored.
    let (newGraph, _) := acc.2.addTransaction (addOrder acc.1.length) txnNode.fresh
    return (acc.1 ++ [tx], newGraph)
  | none => some acc

def reorderTxsByDependencyGraph (addOrder : Nat → HashOrder) (txs : List τ)
    (graph : TransactionGraph) (concurrencyLevel : Nat) : Option (List τ × TransactionGraph) := do
  let graph ← if graph.simulationResult.isNone then graph.simulateParallelExecution concurrencyLevel
    else some graph
  match graph.simulationResult with
  | some result => result.executionOrder.foldlM (reorderTx addOrder txs graph) ([], .new)
  | none => some ([], .new)

end Reorder

structure IntegratedGraphWithIndices where
  graph : TransactionGraph
  /-- The indices of the graphs that were merged, in that order. -/
  sourceIndices : List Nat

def decentIntegration (outcomes : Outcomes) (numThreads group i : Nat)
    (graphA graphB : TransactionGraph) : Option (Option TransactionGraph) :=
  match graphA.integrateGraph (outcomes.mergeOrder group i) graphB with
  | (_, .error _) => some none
  | (testGraph, .ok _) => do
    let testGraph ← testGraph.simulateParallelExecution numThreads
    return if outcomes.cvDecent group i then some testGraph else none

structure Group extends IntegratedGraphWithIndices where
  sPositions : Finset Nat

def scan (outcomes : Outcomes) (numThreads group : Nat) (l : List (Nat × TransactionGraph)) :
    Nat → Group → Option Group
  | 0, s => some s
  | i + 1, s =>
    if outcomes.decentGraph group i then some s
    else do
      let (idx, candidate) ← l[i]?
      if outcomes.hasCommonHotKeys group i then scan outcomes numThreads group l i s
      else
        match ← decentIntegration outcomes numThreads group i s.graph candidate with
        | none => scan outcomes numThreads group l i s
        | some g =>
          let s : Group := ⟨⟨g, s.sourceIndices ++ [idx]⟩, insert i s.sPositions⟩
          if s.sourceIndices.length > 10 then some s
          else scan outcomes numThreads group l i s

def removePositions {α : Type*} (l : List α) (sPositions : Finset Nat) : List α :=
  (sPositions.sort (· ≥ ·)).foldl (fun l pos => if pos < l.length then l.eraseIdx pos else l) l

def integrateAll (outcomes : Outcomes) (numThreads : Nat) :
    Nat → Nat → List (Nat × TransactionGraph) → Option (List IntegratedGraphWithIndices)
  | _, _, [] => some []
  | 0, _, _ :: _ => none
  | fuel + 1, group, (firstIdx, first) :: l => do
    let s ← scan outcomes numThreads group l l.length ⟨⟨first, [firstIdx]⟩, ∅⟩
    let rest ← integrateAll outcomes numThreads fuel (group + 1) (removePositions l s.sPositions)
    return s.toIntegratedGraphWithIndices :: rest

def simulateIndexed (numThreads : Nat) (indexed : TransactionGraph × Nat) :
    Option (Nat × TransactionGraph) := do
  let (g, i) := indexed
  if g.simulationResult.isNone then
    let g ← g.simulateParallelExecution numThreads
    return (i, g)
  else return (i, g)

def greedyDecentIntegrationWithIndices (outcomes : Outcomes) (numThreads : Nat)
    (graphs : List TransactionGraph) : Option (List IntegratedGraphWithIndices) := do
  let indexedGraphs ← graphs.zipIdx.mapM (simulateIndexed numThreads)
  integrateAll outcomes numThreads indexedGraphs.length 0 (outcomes.sortByCv indexedGraphs)

def reorderGroup {τ : Type} (outcomes : Outcomes) (numThreads : Nat)
    (reorderedBlocksTxs : List (List τ)) (indexed : IntegratedGraphWithIndices × Nat) :
    Option (List τ × TransactionGraph) := do
  let (integratedResult, group) := indexed
  let mergedTxns ← integratedResult.sourceIndices.mapM (reorderedBlocksTxs[·]?)
  reorderTxsByDependencyGraph (outcomes.addOrder group) mergedTxns.flatten integratedResult.graph
    numThreads

def integratePevmGraphs {τ : Type} (outcomes : Outcomes) (numThreads : Nat)
    (dependencyGraphs : List TransactionGraph) (reorderedBlocksTxs : List (List τ)) :
    Option (List (List τ) × List TransactionGraph) := do
  let integratedResults ←
    greedyDecentIntegrationWithIndices outcomes numThreads dependencyGraphs
  let outputs ← integratedResults.zipIdx.mapM (reorderGroup outcomes numThreads reorderedBlocksTxs)
  return (outputs.map Prod.fst, outputs.map Prod.snd)

end CongestionControl.Pevm
