import CongestionControl.Pevm.Proofs.CycleCheckProofs
import CongestionControl.Pevm.Proofs.DependencyGraphProofs

/-!
# Proofs: the tables of a graph under construction

Whatever calls have made a graph, it represents a block graph, so that its tables agree with each
other. `integrate_graph` returns the number of edges that it has added.
-/

namespace CongestionControl.Pevm

open TransactionNode

namespace TransactionGraph

variable {g g' other : TransactionGraph} {b : BlockGraph}

theorem edgeCount_congr (h : g'.nodes = g.nodes) : g'.edgeCount = g.edgeCount := by
  unfold edgeCount children
  rw [h]

theorem edgeCount_link {p c : Nat} (hp : p < g.nodes.length) (h : c ∉ g.children p) :
    (g.link p c).edgeCount = g.edgeCount + 1 := by
  have hlen : (g.link p c).nodes.length = g.nodes.length := by
    simpa using congrArg List.length (link_keeps g p c).1
  have hsum : ∀ i, ((g.link p c).children i).length =
      (g.children i).length + if i = p then 1 else 0 := by
    intro i
    rw [children_link hp h]
    by_cases hi : i = p
    · subst hi
      simp
    · simp [hi]
  unfold edgeCount
  rw [hlen, Finset.sum_congr rfl fun i _ => hsum i, Finset.sum_add_distrib,
    Finset.sum_ite_eq' (Finset.range g.nodes.length) p fun _ => 1,
    if_pos (Finset.mem_range.mpr hp)]

def Indexed (g : TransactionGraph) : Prop :=
  ∀ txId i, g.idToIndex.lookup txId = some i → i < g.nodes.length

theorem Indexed.congr (h : g.Indexed) (hindex : g'.idToIndex = g.idToIndex)
    (hlen : g'.nodes.length = g.nodes.length) : g'.Indexed := by
  intro txId i hi
  rw [hlen]
  exact h txId i (hindex ▸ hi)

theorem Indexed.addEdge (h : g.Indexed) {pid cid : TransactionId}
    (hnew : g.hasEdge pid cid = .ok false) :
    ∃ g', g.addEdge pid cid = (g', .ok ()) ∧ g'.Indexed ∧ g'.edgeCount = g.edgeCount + 1 := by
  unfold TransactionGraph.hasEdge TransactionGraph.indexOf at hnew
  cases hp : g.idToIndex.lookup pid with
  | none => rw [hp] at hnew; cases hnew
  | some p =>
    cases hc : g.idToIndex.lookup cid with
    | none => rw [hp, hc] at hnew; cases hnew
    | some c =>
      rw [hp, hc] at hnew
      have hnot : c ∉ g.children p := of_decide_eq_false (Except.ok.inj hnew)
      have hlen : (g.link p c).nodes.length = g.nodes.length := by
        simpa using congrArg List.length (link_keeps g p c).1
      refine ⟨g.link p c, ?_, h.congr (link_keeps g p c).2.1 hlen,
        edgeCount_link (h pid p hp) hnot⟩
      unfold TransactionGraph.addEdge TransactionGraph.indexOf
      rw [hp, hc]

theorem Indexed.connect (h : g.Indexed) {addr : Key} {k k' : Nat}
    (heq : g.connect other addr k = (g', .ok k')) :
    g'.Indexed ∧ g'.edgeCount + k = g.edgeCount + k' := by
  -- Taking over the tail of the other graph changes neither nodes nor indices.
  have htake : ∀ g1 : TransactionGraph, g1.Indexed → (g1.takeTail other addr).Indexed ∧
      (g1.takeTail other addr).edgeCount = g1.edgeCount := by
    intro g1 h1
    obtain ⟨hnodes, hindex, -⟩ := takeTail_keeps g1 other addr
    exact ⟨h1.congr hindex (by rw [hnodes]), edgeCount_congr hnodes⟩
  unfold TransactionGraph.connect at heq
  split at heq
  · rename_i tailTxId headTxId _ _
    split at heq
    · rename_i hnew
      obtain ⟨g1, hadd, h1, hcount⟩ := h.addEdge hnew
      rw [hadd] at heq
      cases heq
      obtain ⟨h2, hcount'⟩ := htake g1 h1
      exact ⟨h2, by omega⟩
    · cases heq
      obtain ⟨h2, hcount⟩ := htake g h
      exact ⟨h2, by omega⟩
  · rename_i headTxId _ _
    cases heq
    let g1 : TransactionGraph := { g with headTxns := g.headTxns.insert addr headTxId }
    have h1 : g1.Indexed := h.congr rfl rfl
    have hcount1 : g1.edgeCount = g.edgeCount := edgeCount_congr rfl
    obtain ⟨h2, hcount⟩ := htake g1 h1
    exact ⟨h2, congrArg (· + k) (hcount.trans hcount1)⟩
  · cases heq
    exact ⟨h, rfl⟩

theorem Indexed.connectAll (h : g.Indexed) (l : List Key) {k k' : Nat}
    (heq : g.connectAll other k l = (g', .ok k')) : g'.edgeCount + k = g.edgeCount + k' := by
  induction l generalizing g k with
  | nil => cases heq; rfl
  | cons addr l ih =>
    unfold TransactionGraph.connectAll at heq
    split at heq
    · rename_i g1 k1 hconnect
      obtain ⟨h1, hcount⟩ := h.connect hconnect
      have hrest := ih h1 heq
      omega
    · cases heq

theorem addTransaction_duplicate (order : HashOrder) {node : TransactionNode}
    (h : node.transactionId ∈ g.idToIndex) :
    ∃ message, g.addTransaction order node = (g, .error message) := by
  unfold addTransaction
  rw [if_pos h]
  exact ⟨_, rfl⟩

theorem Represents.mem_index (h : g.Represents b) {txId : TransactionId} :
    txId ∈ g.idToIndex ↔ txId ∈ b.ids := by
  rw [Finmap.mem_iff, List.mem_iff_getElem?]
  exact exists_congr fun i => h.index txId i

theorem Constructed.represents (h : g.Constructed) : ∃ b, g.Represents b := by
  induction h with
  | new => exact ⟨_, .new⟩
  | @add g order node hnode _ ih =>
    obtain ⟨b, hb⟩ := ih
    by_cases hid : node.transactionId ∈ g.idToIndex
    · obtain ⟨message, heq⟩ := addTransaction_duplicate order hid
      rw [heq]
      exact ⟨b, hb⟩
    · obtain ⟨g', heq, h'⟩ := hb.addUnlinked order hnode (fun hm => hid (hb.mem_index.mpr hm))
      rw [heq]
      exact ⟨_, h'⟩
  | @integrate g other order hdisj _ _ ih iho =>
    obtain ⟨b, hb⟩ := ih
    obtain ⟨bo, hbo⟩ := iho
    rw [hb.ids_eq, hbo.ids_eq] at hdisj
    obtain ⟨g', k, heq, h'⟩ := hb.integrate hbo order hdisj
    rw [heq]
    exact ⟨_, h'⟩

theorem Constructed.simulationState (h : g.Constructed) : g.simulationState = ([], none) := by
  induction h with
  | new => rfl
  | add order hnode _ ih => exact (simulationState_addTransaction ..).trans ih
  | integrate order hdisj _ _ ih _ => exact (simulationState_integrateGraph ..).trans ih

theorem Represents.hasCycle (h : g.Represents b) : g.hasCycle = some false := by
  have hacyc : Paths.Acyclic g.Edge := Paths.acyclic_of_lt h.forward
  obtain ⟨found, heq, hiff⟩ := hasCycle_iff fun _ _ => h.mirrored.child_lt
  cases found with
  | false => exact heq
  | true =>
    obtain ⟨i, hi⟩ := hiff.mp rfl
    exact absurd hi (hacyc i)

theorem Represents.touching (h : g.Represents b) (addr : Key) :
    (touching addr g.nodes).map transactionId = (Pevm.touching addr b.txs).map transactionId := by
  rw [← h.nodes, Pevm.touching, Pevm.touching, List.filter_map, List.map_map]
  rfl

structure Consistent (g : TransactionGraph) : Prop where
  index : ∀ txId i, g.idToIndex.lookup txId = some i ↔
    ∃ node, g.nodes[i]? = some node ∧ node.transactionId = txId
  mirrored : g.Mirrored
  forward : g.Forward
  acyclic : g.hasCycle = some false
  heads : ∀ addr, g.headTxns.lookup addr = (touching addr g.nodes).head?.map transactionId
  tails : ∀ addr, g.tailTxns.lookup addr = (touching addr g.nodes).getLast?.map transactionId

theorem pairGraph_constructed : pairGraph.Constructed :=
  .add _ ⟨rfl, rfl⟩ (.add _ ⟨rfl, rfl⟩ .new)

end TransactionGraph

end CongestionControl.Pevm
