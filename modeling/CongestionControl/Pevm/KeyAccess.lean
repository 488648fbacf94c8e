import CongestionControl.Pevm.DependencyGraph

/-!
# The times at which keys are accessed

`analyze_key_access_spans` of `dependency_graph.rs`. The nodes are looked up by the number of the
transaction alone, without its replica.
-/

namespace CongestionControl.Pevm

structure KeyAccessSpan where
  key : Key
  earliestStart : UInt64
  latestFinish : UInt64
  accessCount : Nat
  deriving DecidableEq, Repr

def KeyAccessSpan.record (key : Key) (tx : ScheduledTx) : Option KeyAccessSpan → KeyAccessSpan
  | some span =>
    { span with
      earliestStart := min span.earliestStart tx.startTime
      latestFinish := max span.latestFinish tx.endTime
      accessCount := span.accessCount + 1 }
  | none => ⟨key, tx.startTime, tx.endTime, 1⟩

namespace TransactionGraph

/-- The index of the nodes by number; of nodes with the same number the last one stays. -/
def nodeMap (g : TransactionGraph) : HashMap Nat TransactionNode :=
  g.nodes.foldl (fun nodes node => nodes.insert node.id node) ∅

def recordKey (tx : ScheduledTx) (spans : HashMap Key KeyAccessSpan) (key : Key) :
    HashMap Key KeyAccessSpan :=
  spans.insert key (.record key tx (spans.lookup key))

def analyzeTx (g : TransactionGraph) (order : ScheduledTx → IterOrder Key)
    (spans : HashMap Key KeyAccessSpan) (tx : ScheduledTx) : HashMap Key KeyAccessSpan :=
  match g.nodeMap.lookup tx.txId.id with
  | some node => ((order tx).toList node.addresses).foldl (recordKey tx) spans
  | none => spans

def analyzeKeyAccessSpans (order : ScheduledTx → IterOrder Key) (g : TransactionGraph) :
    Option (HashMap Key KeyAccessSpan) :=
  g.simulationResult.map fun result => result.executionOrder.foldl (g.analyzeTx order) ∅

end TransactionGraph

end CongestionControl.Pevm
