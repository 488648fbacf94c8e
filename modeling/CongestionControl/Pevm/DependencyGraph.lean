import Mathlib.Algebra.BigOperators.Group.Finset.Basic
import CongestionControl.Lib.HashOrder
import CongestionControl.Pevm.Types

/-!
# The dependency graph of a block

`TransactionGraph` of `dependency_graph.rs`. Keys and ids are numbers that are only compared; the order
in which the hash tables are iterated is an argument. A function that changes the graph and can fail
returns the changed graph with its result.
-/

namespace CongestionControl.Pevm

abbrev Key := Nat

/-- The keys touched by one transaction, sorted and deduplicated. -/
structure KeySet where
  keys : List Key
  sorted : keys.Pairwise (· < ·)
  deriving DecidableEq, Repr

/-- The scan of the second list while the first index stays at `a`; `rest` is the scan after it. -/
def disjointFrom (a : Key) (rest : List Key → Bool) : List Key → Bool
  | [] => true
  | b :: bs =>
    if a = b then false
    else if a < b then rest (b :: bs)
    else disjointFrom a rest bs

def sortedIsDisjoint : List Key → List Key → Bool
  | [] => fun _ => true
  | a :: as => disjointFrom a (sortedIsDisjoint as)

structure TransactionId where
  id : Nat
  replica : Nat
  deriving DecidableEq, Repr

/-- Ids are ordered by `id` first. -/
instance : LinearOrder TransactionId :=
  LinearOrder.lift' (fun txId => toLex (txId.id, txId.replica)) fun a b h => by
    cases a
    cases b
    simpa using h

structure TransactionNode where
  id : Nat
  replica : Nat
  gasCost : UInt64
  readSet : KeySet
  writeSet : KeySet
  longestSuffix : UInt64
  childrenIndices : List Nat
  parentIndices : List Nat
  deriving DecidableEq, Repr

namespace TransactionNode

def new (id replica : Nat) (gasCost : UInt64) (readSet writeSet : KeySet) : TransactionNode where
  id := id
  replica := replica
  gasCost := gasCost
  readSet := readSet
  writeSet := writeSet
  longestSuffix := gasCost
  childrenIndices := []
  parentIndices := []

def fresh (node : TransactionNode) : TransactionNode :=
  { node with longestSuffix := node.gasCost, childrenIndices := [], parentIndices := [] }

/-- The node is in no graph yet: its lists of children and parents are empty. -/
def Unlinked (node : TransactionNode) : Prop :=
  node.childrenIndices = [] ∧ node.parentIndices = []

def transactionId (node : TransactionNode) : TransactionId := ⟨node.id, node.replica⟩

def addresses (node : TransactionNode) : Finset Key :=
  node.readSet.keys.toFinset ∪ node.writeSet.keys.toFinset

end TransactionNode

structure HeapEntry where
  longestSuffix : UInt64
  txId : TransactionId
  deriving DecidableEq, Repr

/-- Entries are ordered by `longest_suffix` first. -/
instance : LinearOrder HeapEntry :=
  LinearOrder.lift' (fun entry => toLex (entry.longestSuffix.toNat, entry.txId)) fun a b h => by
    cases a
    cases b
    simpa [UInt64.toNat_inj] using h

structure ThreadState where
  threadId : Nat
  currentTransaction : Option TransactionId
  completionTime : UInt64
  completedTransactions : List TransactionId
  deriving DecidableEq, Repr

structure ScheduledTx where
  threadId : Nat
  txId : TransactionId
  startTime : UInt64
  endTime : UInt64
  deriving DecidableEq, Repr

/-- The result of a simulation, without what is computed from it in floating point. -/
structure SimulationResult where
  totalTime : UInt64
  threadResults : List ThreadState
  /-- The transactions in the order in which they were started. -/
  executionOrder : List ScheduledTx
  sumCompletionTimes : UInt64
  deriving DecidableEq, Repr

structure TransactionGraph where
  nodes : List TransactionNode
  idToIndex : HashMap TransactionId Nat
  headTxns : HashMap Key TransactionId
  tailTxns : HashMap Key TransactionId
  txnsWithoutParent : List HeapEntry
  simulationResult : Option SimulationResult
  tempParents : List Nat

structure HashOrder where
  keys : IterOrder Key
  ids : IterOrder TransactionId

namespace TransactionGraph

def new : TransactionGraph where
  nodes := []
  idToIndex := ∅
  headTxns := ∅
  tailTxns := ∅
  txnsWithoutParent := []
  simulationResult := none
  tempParents := []

def children (g : TransactionGraph) (idx : Nat) : List Nat :=
  (g.nodes[idx]?).elim [] TransactionNode.childrenIndices

def parents (g : TransactionGraph) (idx : Nat) : List Nat :=
  (g.nodes[idx]?).elim [] TransactionNode.parentIndices

def getNode (g : TransactionGraph) (txId : TransactionId) : Option TransactionNode :=
  (g.idToIndex.lookup txId).bind fun idx => g.nodes[idx]?

def addNode (g : TransactionGraph) (node : TransactionNode) : TransactionGraph × Nat :=
  ({ g with
      nodes := g.nodes ++ [node]
      idToIndex := g.idToIndex.insert node.transactionId g.nodes.length },
    g.nodes.length)

def indexOf (g : TransactionGraph) (kind : String) (txId : TransactionId) : Except String Nat :=
  match g.idToIndex.lookup txId with
  | some idx => .ok idx
  | none => .error s!"{kind} node ({txId.id}, {txId.replica}) not found"

def hasEdge (g : TransactionGraph) (parentId childId : TransactionId) : Except String Bool := do
  let parentIdx ← g.indexOf "Parent" parentId
  let childIdx ← g.indexOf "Child" childId
  return childIdx ∈ g.children parentIdx

/-- Push the child on the parent's list and the parent on the child's, unless they are linked. -/
def link (g : TransactionGraph) (parentIdx childIdx : Nat) : TransactionGraph :=
  if childIdx ∈ g.children parentIdx then g
  else
    let pushChild (node : TransactionNode) : TransactionNode :=
      { node with childrenIndices := node.childrenIndices ++ [childIdx] }
    let pushParent (node : TransactionNode) : TransactionNode :=
      { node with parentIndices := node.parentIndices ++ [parentIdx] }
    { g with nodes := (g.nodes.modify parentIdx pushChild).modify childIdx pushParent }

def addEdge (g : TransactionGraph) (parentId childId : TransactionId) :
    TransactionGraph × Except String Unit :=
  match g.indexOf "Parent" parentId, g.indexOf "Child" childId with
  | .error e, _ => (g, .error e)
  | .ok _, .error e => (g, .error e)
  | .ok parentIdx, .ok childIdx => (g.link parentIdx childIdx, .ok ())

def addEdges (g : TransactionGraph) (childId : TransactionId) :
    List TransactionId → TransactionGraph × Except String Unit
  | [] => (g, .ok ())
  | parentId :: rest =>
    match g.addEdge parentId childId with
    | (g', .ok ()) => g'.addEdges childId rest
    | (g', .error e) => (g', .error e)

def conflictingTail (g : TransactionGraph) (node : TransactionNode) (addr : Key) :
    Option TransactionId := do
  let tailTxId ← g.tailTxns.lookup addr
  let tailNode ← g.getNode tailTxId
  -- Write-after-write conflicts only.
  if sortedIsDisjoint tailNode.writeSet.keys node.writeSet.keys then none else some tailTxId

def parentTransactions (g : TransactionGraph) (order : HashOrder) (node : TransactionNode) :
    Finset TransactionId :=
  (order.keys.toList node.addresses).foldl
    (fun parents addr => (g.conflictingTail node addr).elim parents (insert · parents)) ∅

def touch (txId : TransactionId) (g : TransactionGraph) (addr : Key) : TransactionGraph :=
  { g with
    headTxns := if addr ∈ g.headTxns then g.headTxns else g.headTxns.insert addr txId
    tailTxns := g.tailTxns.insert addr txId }

def addTransaction (order : HashOrder) (g : TransactionGraph) (node : TransactionNode) :
    TransactionGraph × Except String Nat :=
  let txId := node.transactionId
  if txId ∈ g.idToIndex then
    (g, .error (s!"Transaction TransactionId \x7b id: {txId.id}, replica: {txId.replica} \x7d " ++
      "already exists in graph"))
  else
    let (g, newIdx) := g.addNode node
    match g.addEdges txId (order.ids.toList (g.parentTransactions order node)) with
    | (g, .error e) => (g, .error e)
    | (g, .ok ()) => ((order.keys.toList node.addresses).foldl (touch txId) g, .ok newIdx)

def shift (base : Nat) (node : TransactionNode) : TransactionNode :=
  { node with
    childrenIndices := node.childrenIndices.map (base + ·)
    parentIndices := node.parentIndices.map (base + ·) }

def appendNodes (g other : TransactionGraph) : TransactionGraph :=
  { g with
    nodes := g.nodes ++ other.nodes.map (shift g.nodes.length)
    idToIndex := (other.nodes.foldl
      (fun (p : HashMap TransactionId Nat × Nat) node =>
        (p.1.insert node.transactionId p.2, p.2 + 1)) (g.idToIndex, g.nodes.length)).1 }

def takeTail (g other : TransactionGraph) (addr : Key) : TransactionGraph :=
  match other.tailTxns.lookup addr with
  | some g2Tail => { g with tailTxns := g.tailTxns.insert addr g2Tail }
  | none => g

def connect (g other : TransactionGraph) (addr : Key) (edgesAdded : Nat) :
    TransactionGraph × Except String Nat :=
  match g.tailTxns.lookup addr, other.headTxns.lookup addr with
  | some tailTxId, some headTxId =>
    match g.hasEdge tailTxId headTxId with
    | .ok false =>
      match g.addEdge tailTxId headTxId with
      | (g, .ok ()) => (g.takeTail other addr, .ok (edgesAdded + 1))
      | (g, .error e) => (g, .error e)
    | _ => (g.takeTail other addr, .ok edgesAdded)
  | none, some headTxId =>
    let g := { g with headTxns := g.headTxns.insert addr headTxId }
    (g.takeTail other addr, .ok edgesAdded)
  | _, none => (g, .ok edgesAdded)

def connectAll (g other : TransactionGraph) (edgesAdded : Nat) :
    List Key → TransactionGraph × Except String Nat
  | [] => (g, .ok edgesAdded)
  | addr :: rest =>
    match g.connect other addr edgesAdded with
    | (g', .ok edgesAdded') => g'.connectAll other edgesAdded' rest
    | (g', .error e) => (g', .error e)

def integrateGraph (order : HashOrder) (g other : TransactionGraph) :
    TransactionGraph × Except String Nat :=
  let allAddresses := g.headTxns.keys ∪ g.tailTxns.keys ∪ other.headTxns.keys ∪ other.tailTxns.keys
  (g.appendNodes other).connectAll other 0 (order.keys.toList allAddresses)

/-- The lists of parents and children say the same, each link once. -/
structure Mirrored (g : TransactionGraph) : Prop where
  mem_children : ∀ p c, c ∈ g.children p ↔ p ∈ g.parents c
  children_nodup : ∀ p, (g.children p).Nodup
  parents_nodup : ∀ c, (g.parents c).Nodup

def Forward (g : TransactionGraph) : Prop := ∀ p c, c ∈ g.children p → p < c

def edgeCount (g : TransactionGraph) : Nat :=
  ∑ p ∈ Finset.range g.nodes.length, (g.children p).length

end TransactionGraph

def edgelessGraph (count : Nat) : TransactionGraph :=
  { TransactionGraph.new with
    nodes := (List.range count).map fun i => TransactionNode.new i 0 0 ⟨[], .nil⟩ ⟨[], .nil⟩ }

end CongestionControl.Pevm
