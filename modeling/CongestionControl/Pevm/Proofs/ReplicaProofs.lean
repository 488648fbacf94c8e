import CongestionControl.Lib.Lockstep
import CongestionControl.Pevm.GreedyIntegrator
import CongestionControl.Pevm.Proofs.KeyAccessProofs

/-!
# Proofs: replicas compute the same schedule

The suffixes are determined by the edges, the heap is sorted, and the children of a completed
transaction can be freed in any order. In a graph with cycles the suffixes depend on the order of the
traversal.
-/

namespace CongestionControl.Pevm

open TransactionNode
open scoped List

def TransactionNode.unordered (node : TransactionNode) :
    TransactionNode × UInt64 × Multiset Nat × Multiset Nat :=
  (node.fresh, node.longestSuffix, node.childrenIndices, node.parentIndices)

namespace TransactionGraph

structure Permuted (g g' : TransactionGraph) : Prop where
  nodes : g'.nodes.map unordered = g.nodes.map unordered
  index : g'.idToIndex = g.idToIndex
  heap : g'.txnsWithoutParent = g.txnsWithoutParent
  result : g'.simulationResult = g.simulationResult

structure Alike (g g' : TransactionGraph) : Prop extends Permuted g g' where
  temp : g'.tempParents = g.tempParents

structure SameLinks (node node' : TransactionNode) : Prop where
  fresh : node'.fresh = node.fresh
  suffix : node'.longestSuffix = node.longestSuffix
  children : node'.childrenIndices ~ node.childrenIndices
  parents : node'.parentIndices ~ node.parentIndices

variable {node' : TransactionNode} {f : Nat → UInt64}

theorem sameLinks_iff {node : TransactionNode} :
    SameLinks node node' ↔ node'.unordered = node.unordered := by
  simp only [unordered, Prod.mk.injEq, Multiset.coe_eq_coe]
  exact ⟨fun h => ⟨h.1, h.2, h.3, h.4⟩, fun h => ⟨h.1, h.2.1, h.2.2.1, h.2.2.2⟩⟩

namespace SameLinks

variable {node node' : TransactionNode} (h : SameLinks node node')
include h

theorem transactionId : node'.transactionId = node.transactionId := by
  have heq : node'.fresh.transactionId = node.fresh.transactionId := by rw [h.fresh]
  exact heq

theorem gasCost : node'.gasCost = node.gasCost := by
  have heq : node'.fresh.gasCost = node.fresh.gasCost := by rw [h.fresh]
  exact heq

theorem addresses : node'.addresses = node.addresses := by
  have heq : node'.fresh.addresses = node.fresh.addresses := by rw [h.fresh]
  exact heq

end SameLinks

variable {g g' : TransactionGraph}

namespace Permuted

variable (h : Permuted g g')
include h

theorem node (i : Nat) : Option.Rel SameLinks g.nodes[i]? g'.nodes[i]? := by
  have heq : (g'.nodes[i]?).map unordered = (g.nodes[i]?).map unordered := by
    rw [← List.getElem?_map, ← List.getElem?_map, h.nodes]
  cases hn : g.nodes[i]? <;> cases hn' : g'.nodes[i]?
  · exact .none
  · simp [hn, hn'] at heq
  · simp [hn, hn'] at heq
  · rw [hn, hn', Option.map_some, Option.map_some, Option.some.injEq] at heq
    exact .some (sameLinks_iff.mpr heq)

theorem length_eq : g'.nodes.length = g.nodes.length := by
  simpa using congrArg List.length h.nodes

theorem children_perm (i : Nat) : g'.children i ~ g.children i := by
  have hrel := h.node i
  unfold children
  revert hrel
  generalize g.nodes[i]? = node, g'.nodes[i]? = node'
  rintro (hnode | -)
  · exact hnode.children
  · exact .refl _

theorem edge_eq : g'.Edge = g.Edge := by
  funext p c
  exact propext (h.children_perm p).mem_iff

theorem inRange_iff : g'.InRange ↔ g.InRange := by
  rw [InRange, InRange, h.edge_eq, h.length_eq]

theorem rootNodes_eq : g'.rootNodes = g.rootNodes := by
  have hroot : ∀ {g : TransactionGraph} {idx : Nat},
      (g.nodes.any fun node => idx ∈ node.childrenIndices) = true ↔ ∃ p, g.Edge p idx := by
    intro g idx
    simp only [List.any_eq_true, decide_eq_true_eq]
    constructor
    · rintro ⟨node, hnode, hmem⟩
      obtain ⟨p, hp⟩ := List.mem_iff_getElem?.mp hnode
      exact ⟨p, (edge_iff_getElem? p idx).mpr ⟨node, hp, hmem⟩⟩
    · rintro ⟨p, hp⟩
      obtain ⟨node, hnode, hmem⟩ := (edge_iff_getElem? p idx).mp hp
      exact ⟨node, List.mem_of_getElem? hnode, hmem⟩
  rw [rootNodes, h.length_eq]
  refine List.filter_congr fun idx _ => congrArg not ?_
  rw [Bool.eq_iff_iff, hroot, hroot, h.edge_eq]

theorem node_of_getElem? {i : Nat} (hnode : g'.nodes[i]? = some node') :
    ∃ node, g.nodes[i]? = some node ∧ SameLinks node node' := by
  have hrel := h.node i
  rw [hnode] at hrel
  cases hn : g.nodes[i]? with
  | none =>
    rw [hn] at hrel
    cases hrel
  | some node =>
    rw [hn] at hrel
    cases hrel with
    | some hlinks => exact ⟨node, rfl, hlinks⟩

end Permuted

/-! ## Longest suffixes -/

theorem maxSuffix_perm {l l' : List Nat} (h : l ~ l') :
    maxSuffix f l = maxSuffix f l' := by
  have hmax : ∀ {l l' : List Nat}, l ⊆ l' → (maxSuffix f l).toNat ≤ (maxSuffix f l').toNat := by
    intro l l' hsub
    rcases (foldl_max_spec f l 0).2.2 with hzero | ⟨c, hc, heq⟩
    · have hzero' : (maxSuffix f l).toNat = 0 := hzero
      omega
    · have hle := (foldl_max_spec f l' 0).2.1 c (hsub hc)
      exact heq ▸ hle
  exact UInt64.toNat_inj.mp (Nat.le_antisymm (hmax h.subset) (hmax h.symm.subset))

theorem Permuted.suffixes (h : Permuted g g') (hf : g.Suffixes f) :
    g'.Suffixes f := by
  intro i node' hnode'
  obtain ⟨node, hnode, hlinks⟩ := h.node_of_getElem? hnode'
  rw [hf i node hnode, hlinks.gasCost, maxSuffix_perm hlinks.children]

theorem Permuted.entriesOf_eq (h : Permuted g g') (f : Nat → UInt64) (l : List Nat) :
    g'.entriesOf f l = g.entriesOf f l := by
  refine List.filterMap_congr fun i _ => ?_
  refine ((h.node i).map_eq fun node node' hlinks => ?_).symm
  rw [hlinks.transactionId]

theorem Permuted.unordered_withSuffixes (h : Permuted g g') (f : Nat → UInt64) :
    (g'.withSuffixes f).map unordered = (g.withSuffixes f).map unordered := by
  refine List.ext_getElem? fun i => ?_
  rw [List.getElem?_map, List.getElem?_map, getElem?_withSuffixes, getElem?_withSuffixes,
    Option.map_map, Option.map_map]
  refine ((h.node i).map_eq fun node node' hlinks => ?_).symm
  have hlinks' : SameLinks { node with longestSuffix := f i } { node' with longestSuffix := f i } :=
    ⟨hlinks.fresh, rfl, hlinks.children, hlinks.parents⟩
  exact (sameLinks_iff.mp hlinks').symm

theorem Alike.updateLongestSuffix (h : Alike g g') (hacyc : Paths.Acyclic g.Edge) :
    Option.Rel Alike g.updateLongestSuffixPostorder g'.updateLongestSuffixPostorder := by
  by_cases hn : g.nodes.length = 0
  · have hn' : g'.nodes.length = 0 := by rw [h.length_eq, hn]
    rw [updateLongestSuffixPostorder, updateLongestSuffixPostorder, if_pos hn, if_pos hn']
    exact .some h
  · by_cases hr : g.InRange
    · obtain ⟨f, hf⟩ := exists_suffixes hacyc
      have hn' : g'.nodes.length ≠ 0 := by rwa [h.length_eq]
      rw [updateLongestSuffix_eq hacyc hr hf fun hnil => absurd (by simp [hnil]) hn,
        updateLongestSuffix_eq (h.edge_eq ▸ hacyc) (h.inRange_iff.mpr hr) (h.suffixes hf)
          fun hnil => absurd (by simp [hnil]) hn',
        h.rootNodes_eq, h.entriesOf_eq]
      exact .some ⟨⟨h.unordered_withSuffixes f, h.index, rfl, h.result⟩, h.temp⟩
    · -- An index beyond the marks panics.
      have hnone : ∀ {g : TransactionGraph}, g.nodes.length ≠ 0 → ¬g.InRange →
          g.updateLongestSuffixPostorder = none := by
        intro g hn hr
        unfold updateLongestSuffixPostorder
        rw [if_neg hn, if_neg fun hall => hr fun p c hc => ?_]
        obtain ⟨node, hnode, hmem⟩ := (edge_iff_getElem? p c).mp hc
        exact hall node (List.mem_of_getElem? hnode) c hmem
      rw [hnone hn hr, hnone (by rwa [h.length_eq]) (mt h.inRange_iff.mp hr)]
      exact .none

/-! ## Children that are freed -/

def freed (g : TransactionGraph) (childIdx : Nat) : Option (Nat × List HeapEntry) := do
  let remaining ← g.tempParents[childIdx]?
  if remaining = 0 then none
  else if remaining = 1 then
    (g.nodes[childIdx]?).map fun node => (0, [⟨node.longestSuffix, node.transactionId⟩])
  else return (remaining - 1, [])

def release (g : TransactionGraph) (childIdx : Nat) (left : Nat × List HeapEntry) :
    TransactionGraph :=
  { g with
    tempParents := g.tempParents.set childIdx left.1
    txnsWithoutParent := left.2.foldl pushTxn g.txnsWithoutParent }

theorem freeChild_eq (g : TransactionGraph) (childIdx : Nat) :
    g.freeChild childIdx = (g.freed childIdx).map (g.release childIdx) := by
  unfold freeChild freed
  cases g.tempParents[childIdx]? with
  | none => rfl
  | some remaining =>
    rcases remaining with - | remaining
    · rfl
    · cases hnode : g.nodes[childIdx]? <;> by_cases hlast : remaining = 0 <;>
        simp [release, hnode, hlast]

theorem freed_release {c d : Nat} (h : c ≠ d) (left : Nat × List HeapEntry) :
    (g.release c left).freed d = g.freed d := by
  have htemp : (g.release c left).tempParents[d]? = g.tempParents[d]? := List.getElem?_set_ne h
  unfold freed
  rw [htemp]
  rfl

theorem foldl_pushTxn_comm (l l' heap : List HeapEntry) :
    l'.foldl pushTxn (l.foldl pushTxn heap) = l.foldl pushTxn (l'.foldl pushTxn heap) := by
  have hcomm : ∀ a b heap, pushTxn (pushTxn heap a) b = pushTxn (pushTxn heap b) a :=
    fun a b heap => List.orderedInsert_comm a b heap
  rw [← List.foldl_append, ← List.foldl_append]
  exact List.perm_append_comm.foldl_eq' (fun a _ b _ heap => hcomm a b heap) heap

theorem freeChild_comm (g : TransactionGraph) (c d : Nat) :
    ((g.freeChild c).bind fun g => g.freeChild d) = (g.freeChild d).bind fun g => g.freeChild c := by
  by_cases hcd : c = d
  · rw [hcd]
  have hboth : ∀ {c d}, c ≠ d → ((g.freeChild c).bind fun g => g.freeChild d) =
      (g.freed c).bind fun p => (g.freed d).bind fun q => some ((g.release c p).release d q) := by
    intro c d hne
    rw [freeChild_eq, Option.bind_map]
    refine Option.bind_congr fun p _ => ?_
    show (g.release c p).freeChild d = _
    rw [freeChild_eq, freed_release hne, Option.map_eq_bind]
    rfl
  have hrelease : ∀ p q, (g.release c p).release d q = (g.release d q).release c p := by
    intro p q
    simp only [release, List.set_comm _ _ hcd, foldl_pushTxn_comm]
  rw [hboth hcd, hboth (Ne.symm hcd), Option.bind_comm]
  simp only [hrelease]

theorem Alike.freeChild (h : Alike g g') (c : Nat) :
    Option.Rel Alike (g.freeChild c) (g'.freeChild c) := by
  have hfreed : g'.freed c = g.freed c := by
    unfold freed
    rw [h.temp]
    have hentry := (h.node c).map_eq (f := fun node =>
        (0, [(⟨node.longestSuffix, node.transactionId⟩ : HeapEntry)])) fun node node' hlinks => by
      rw [← hlinks.suffix, ← hlinks.transactionId]
    rw [hentry]
  rw [freeChild_eq, freeChild_eq, hfreed]
  cases g.freed c with
  | none => exact .none
  | some left =>
    refine .some ⟨⟨h.nodes, h.index, ?_, h.result⟩, ?_⟩
    · simp only [release, h.heap]
    · simp only [release, h.temp]

theorem Alike.remove (h : Alike g g') (txId : TransactionId) :
    Option.Rel Alike (g.removeTransactionAndUpdate txId) (g'.removeTransactionAndUpdate txId) := by
  unfold removeTransactionAndUpdate
  rw [h.index]
  cases g.idToIndex.lookup txId with
  | none => exact .some h
  | some txIdx =>
    refine (h.node txIdx).bind fun node node' hlinks => ?_
    rw [hlinks.children.foldlM_option_eq freeChild_comm]
    exact Option.Rel.foldlM (fun _ _ h' c _ => h'.freeChild c) h

theorem Permuted.getNode (h : Permuted g g') (txId : TransactionId) :
    Option.Rel SameLinks (g.getNode txId) (g'.getNode txId) := by
  unfold TransactionGraph.getNode
  rw [h.index]
  cases g.idToIndex.lookup txId with
  | none => exact .none
  | some idx => exact h.node idx

end TransactionGraph

/-! ## The simulation -/

namespace Simulation

open TransactionGraph

def SameSchedule (sim sim' : Simulation) : Prop :=
  ∃ graph, Alike sim.graph graph ∧ sim' = { sim with graph }

variable {sim sim' : Simulation}

theorem SameSchedule.assignThreads (rest : List ThreadState) (h : SameSchedule sim sim')
    (assignedAny : Bool) :
    Option.Rel (fun r r' : Simulation × Bool => SameSchedule r.1 r'.1 ∧ r.2 = r'.2)
      (assignThreads rest sim assignedAny) (assignThreads rest sim' assignedAny) := by
  induction rest generalizing sim sim' assignedAny with
  | nil => exact .some ⟨h, rfl⟩
  | cons thread rest ih =>
    obtain ⟨graph, hg, rfl⟩ := h
    have hskip : SameSchedule { sim with threads := sim.threads ++ [thread] }
        { sim with threads := sim.threads ++ [thread], graph } := ⟨graph, hg, rfl⟩
    unfold Simulation.assignThreads popTxnWithoutParent
    dsimp only
    rw [hg.heap]
    by_cases hidle : thread.isIdle = true
    · rw [if_pos hidle, if_pos hidle]
      cases hheap : sim.graph.txnsWithoutParent with
      | nil => exact ih hskip assignedAny
      | cons entry heap =>
        have hpop : Alike { sim.graph with txnsWithoutParent := heap }
            { graph with txnsWithoutParent := heap } :=
          ⟨⟨hg.nodes, hg.index, rfl, hg.result⟩, hg.temp⟩
        refine (hpop.getNode entry.txId).bind fun node node' hlinks => ?_
        rw [hlinks.gasCost]
        exact ih ⟨_, hpop, rfl⟩ true
    · rw [if_neg hidle, if_neg hidle]
      exact ih hskip assignedAny

theorem SameSchedule.complete (h : SameSchedule sim sim') (event : EstimatedCompletion)
    (completionHeap : List EstimatedCompletion) :
    Option.Rel SameSchedule (sim.complete event completionHeap)
      (sim'.complete event completionHeap) := by
  obtain ⟨graph, hg, rfl⟩ := h
  unfold Simulation.complete
  cases sim.threads[event.threadId]? with
  | none => exact .none
  | some thread =>
    cases hc : thread.completeTransaction with
    | none =>
      simp only [Option.bind_eq_bind, Option.bind_some, hc, Option.bind_none]
      exact .none
    | some completed =>
      simp only [Option.bind_eq_bind, Option.bind_some, hc]
      exact (hg.remove completed.1).bind fun g g' hg' => .some ⟨g', hg', rfl⟩

theorem SameSchedule.run (fuel : Nat) (h : SameSchedule sim sim') :
    Option.Rel SameSchedule (sim.run fuel) (sim'.run fuel) := by
  induction fuel generalizing sim sim' with
  | zero => exact .none
  | succ fuel ih =>
    obtain ⟨graph, hg, rfl⟩ := h
    have hstart : SameSchedule { sim with threads := [] } { sim with threads := [], graph } :=
      ⟨graph, hg, rfl⟩
    refine (hstart.assignThreads sim.threads false).bind ?_
    rintro ⟨sim, any⟩ ⟨-, -⟩ ⟨⟨graph, hg, rfl⟩, rfl⟩
    dsimp only
    rw [hg.heap]
    by_cases hagain : (any && !sim.graph.txnsWithoutParent.isEmpty) = true
    · rw [if_pos hagain, if_pos hagain]
      exact ih ⟨graph, hg, rfl⟩
    · rw [if_neg hagain, if_neg hagain]
      have hsim : SameSchedule sim { sim with graph } := ⟨graph, hg, rfl⟩
      obtain ⟨g, threads, completionHeap, executionOrder, currentTime⟩ := sim
      cases completionHeap with
      | nil => exact .some hsim
      | cons event completionHeap =>
        exact (hsim.complete event completionHeap).bind fun _ _ => ih

end Simulation

namespace TransactionGraph

variable {g g' : TransactionGraph}

theorem Permuted.simulate (h : Permuted g g') (hacyc : Paths.Acyclic g.Edge) (k : Nat) :
    Option.Rel Permuted (g.simulateParallelExecution k) (g'.simulateParallelExecution k) := by
  have htemp : g'.nodes.map (fun node => node.parentIndices.length) =
      g.nodes.map fun node => node.parentIndices.length := by
    have hcard : ∀ nodes : List TransactionNode, nodes.map (fun node => node.parentIndices.length) =
        (nodes.map unordered).map fun view => view.2.2.2.card := by
      intro nodes
      rw [List.map_map]
      rfl
    rw [hcard, hcard, h.nodes]
  unfold simulateParallelExecution
  rw [htemp]
  have halike : Alike { g with tempParents := g.nodes.map fun node => node.parentIndices.length }
      { g' with tempParents := g.nodes.map fun node => node.parentIndices.length } :=
    ⟨⟨h.nodes, h.index, h.heap, h.result⟩, rfl⟩
  refine (halike.updateLongestSuffix hacyc).bind fun g1 g1' h1 => ?_
  rw [h1.length_eq]
  have hsim : Simulation.SameSchedule ⟨g1, (List.range k).map ThreadState.new, [], [], 0⟩
      ⟨g1', (List.range k).map ThreadState.new, [], [], 0⟩ := ⟨g1', h1, rfl⟩
  refine (hsim.run _).bind ?_
  rintro sim - ⟨graph, hg, rfl⟩
  exact .some ⟨hg.nodes, hg.index, hg.heap, rfl⟩

/-! ## What is computed from the schedule -/

theorem Permuted.nodeMap (h : Permuted g g') (id : Nat) :
    Option.Rel SameLinks (g.nodeMap.lookup id) (g'.nodeMap.lookup id) := by
  have hfold : ∀ (nodes nodes' : List TransactionNode) (m m' : HashMap Nat TransactionNode),
      nodes'.map unordered = nodes.map unordered →
      Option.Rel SameLinks (m.lookup id) (m'.lookup id) →
      Option.Rel SameLinks ((nodes.foldl (fun m node => m.insert node.id node) m).lookup id)
        ((nodes'.foldl (fun m node => m.insert node.id node) m').lookup id) := by
    intro nodes
    induction nodes with
    | nil =>
      intro nodes' m m' heq hm
      rw [List.map_eq_nil_iff.mp heq]
      exact hm
    | cons node nodes ih =>
      intro nodes' m m' heq hm
      obtain ⟨node', nodes', rfl, hnode, hnodes⟩ := List.map_eq_cons_iff.mp heq
      have hlinks := sameLinks_iff.mpr hnode
      have hid : node'.id = node.id := congrArg TransactionId.id hlinks.transactionId
      refine ih nodes' _ _ hnodes ?_
      show Option.Rel SameLinks ((m.insert node.id node).lookup id)
        ((m'.insert node'.id node').lookup id)
      rw [hid]
      by_cases hne : id = node.id
      · rw [hne, Finmap.lookup_insert, Finmap.lookup_insert]
        exact .some hlinks
      · rw [Finmap.lookup_insert_of_ne _ hne, Finmap.lookup_insert_of_ne _ hne]
        exact hm
  exact hfold g.nodes g'.nodes ∅ ∅ h.nodes .none

theorem Permuted.accesses_iff (h : Permuted g g') {key : Key} {tx : ScheduledTx} :
    g'.Accesses key tx ↔ g.Accesses key tx := by
  have hrel := h.nodeMap tx.txId.id
  unfold Accesses
  revert hrel
  generalize g.nodeMap.lookup tx.txId.id = node, g'.nodeMap.lookup tx.txId.id = node'
  rintro (hlinks | -)
  · simp [Touches, hlinks.addresses]
  · simp

/-- The spans depend neither on the lists nor on the order in which the keys are iterated. -/
theorem Permuted.analyze_eq (h : Permuted g g') (order order' : ScheduledTx → IterOrder Key) :
    g'.analyzeKeyAccessSpans order' = g.analyzeKeyAccessSpans order := by
  unfold analyzeKeyAccessSpans
  rw [h.result]
  cases g.simulationResult with
  | none => rfl
  | some result =>
    refine congrArg some (Finmap.ext_lookup fun key => ?_)
    rw [lookup_analyze, lookup_analyze]
    refine congrArg (recordAll key · _) (List.filter_congr fun tx _ => ?_)
    exact decide_eq_decide.mpr h.accesses_iff

theorem Permuted.reorder_eq {τ : Type} (h : Permuted g g') (hacyc : Paths.Acyclic g.Edge)
    (addOrder addOrder' : Nat → HashOrder) (txs : List τ) (k : Nat) :
    (reorderTxsByDependencyGraph addOrder' txs g' k).map Prod.fst =
      (reorderTxsByDependencyGraph addOrder txs g k).map Prod.fst := by
  have hloop : ∀ {g g' : TransactionGraph}, Permuted g g' → ∀ result : SimulationResult,
      Option.Rel (fun r r' : List τ × TransactionGraph => r.1 = r'.1)
        (result.executionOrder.foldlM (reorderTx addOrder txs g) ([], .new))
        (result.executionOrder.foldlM (reorderTx addOrder' txs g') ([], .new)) := by
    intro g g' h result
    refine Option.Rel.foldlM ?_ rfl
    rintro ⟨out, new⟩ ⟨-, new'⟩ rfl tx -
    unfold reorderTx
    rw [h.index]
    cases g.idToIndex.lookup tx.txId with
    | none => exact .some rfl
    | some index =>
      dsimp only
      cases txs[index]? with
      | none => exact .none
      | some t => exact (h.node index).bind fun node node' _ => .some rfl
  refine (Option.Rel.map_eq ?_
    fun r r' hr => hr).symm
  unfold reorderTxsByDependencyGraph
  rw [h.result]
  cases hresult : g.simulationResult with
  | none =>
    refine (h.simulate hacyc k).bind fun g g' h => ?_
    dsimp only
    rw [h.result]
    cases g.simulationResult with
    | none => exact .some rfl
    | some result => exact hloop h result
  | some result =>
    -- The graph has been simulated before.
    simp only [Option.isNone_some, Bool.false_eq_true, if_false, Option.bind_eq_bind,
      Option.bind_some, h.result, hresult]
    exact hloop h result

theorem Represents.isSome_simulate {b : BlockGraph} (h : g.Represents b)
    (hheap : g.txnsWithoutParent = []) (k : Nat) : (g.simulateParallelExecution k).isSome = true := by
  rcases Nat.eq_zero_or_pos k with rfl | hk
  · let tempParents := g.nodes.map fun node => node.parentIndices.length
    have h0 : Represents { g with tempParents } b := h.congr_shape rfl rfl rfl rfl
    obtain ⟨f, hf⟩ := exists_suffixes h0.acyclic
    have hupdate := updateLongestSuffix_eq h0.acyclic h0.inRange hf fun _ => hheap
    simp [simulateParallelExecution, tempParents, hupdate, Simulation.run, Simulation.assignThreads]
  · obtain ⟨g', he, -⟩ := h.simulate hk fun _ => hheap
    rw [he]
    rfl

/-- Two graphs without cycles that differ in the order of their lists get the same schedule, the
same spans and the same order of transactions, whatever the iteration orders. The simulation returns
if the graph was built by the calls. -/
theorem replicas_agree (g g' : TransactionGraph) (h : Permuted g g')
    (hacyc : Paths.Acyclic g.Edge) (k : Nat) :
    (g'.simulateParallelExecution k).bind simulationResult =
        (g.simulateParallelExecution k).bind simulationResult ∧
      (∀ order order' : ScheduledTx → IterOrder Key,
        (g'.simulateParallelExecution k).bind (analyzeKeyAccessSpans order') =
          (g.simulateParallelExecution k).bind (analyzeKeyAccessSpans order)) ∧
      (∀ (τ : Type) (addOrder addOrder' : Nat → HashOrder) (txs : List τ),
        (reorderTxsByDependencyGraph addOrder' txs g' k).map Prod.fst =
          (reorderTxsByDependencyGraph addOrder txs g k).map Prod.fst) ∧
      (g.Constructed → (g.simulateParallelExecution k).isSome = true) := by
  have hrel := h.simulate hacyc k
  refine ⟨?_, fun order order' => ?_, fun τ addOrder addOrder' txs => ?_, fun hbuilt => ?_⟩
  · exact (hrel.bind_eq fun _ _ hp => hp.result.symm).symm
  · exact (hrel.bind_eq fun _ _ hp => (hp.analyze_eq order order').symm).symm
  · exact h.reorder_eq hacyc addOrder addOrder' txs k
  · obtain ⟨b, hb⟩ := hbuilt.represents
    exact hb.isSome_simulate (congrArg Prod.fst hbuilt.simulationState) k

section Examples

def writer (id : Nat) (gasCost : UInt64) (writeSet : KeySet) : TransactionNode :=
  .new id 0 gasCost .empty writeSet

def addAll (order : HashOrder) (nodes : List TransactionNode) : TransactionGraph :=
  nodes.foldl (fun g node => (g.addTransaction order node).1) .new

theorem constructed_addAll (order : HashOrder) {nodes : List TransactionNode}
    (h : ∀ node ∈ nodes, node.Unlinked) : (addAll order nodes).Constructed := by
  induction nodes using List.reverseRecOn with
  | nil => exact .new
  | append_singleton nodes node ih =>
    rw [addAll, List.foldl_append]
    exact .add order (h node (by simp)) (ih fun node hnode => h node (by simp [hnode]))

def fork (keys : IterOrder Key) : TransactionGraph :=
  let order : HashOrder := ⟨keys, .sorted⟩
  ((addAll order [writer 0 1 ⟨[1, 2], by decide⟩]).integrateGraph order
    (addAll order [writer 1 1 ⟨[1], by decide⟩, writer 2 1 ⟨[2], by decide⟩])).1

/-- The order in which the keys are iterated decides about the lists, not about the schedule. -/
theorem fork_replicas_agree :
    (fork .sorted).children 0 = [1, 2] ∧ (fork (.reversed .sorted)).children 0 = [2, 1] ∧
      ((fork (.reversed .sorted)).simulateParallelExecution 2).bind simulationResult =
        ((fork .sorted).simulateParallelExecution 2).bind simulationResult := by
  have hpermuted : Permuted (fork .sorted) (fork (.reversed .sorted)) :=
    ⟨by decide +kernel, by decide +kernel, by decide +kernel, by decide +kernel⟩
  have hbuilt : (fork .sorted).Constructed := by
    refine .integrate _ (List.disjoint_toFinset_iff_disjoint.mp (by decide +kernel)) ?_ ?_
    · exact constructed_addAll _ (by simp [Unlinked, writer, TransactionNode.new])
    · exact constructed_addAll _ (by simp [Unlinked, writer, TransactionNode.new])
  obtain ⟨b, hb⟩ := hbuilt.represents
  exact ⟨by decide +kernel, by decide +kernel, (replicas_agree _ _ hpermuted hb.acyclic 2).1⟩

/-- Two merged graphs that both have transactions 1 and 2. The index then leads to the second ones,
and the tail of key 3 in the first graph, which is transaction 2, is linked to its own ancestor. -/
def sharedIds (keys : IterOrder Key) : TransactionGraph :=
  let order : HashOrder := ⟨keys, .sorted⟩
  ((addAll order [writer 0 1 ⟨[1, 2], by decide⟩, writer 1 1 ⟨[5], by decide⟩,
      writer 2 1 ⟨[3, 5], by decide⟩]).integrateGraph order
    (addAll order [writer 3 1 ⟨[2, 3, 4], by decide⟩, writer 2 10 ⟨[1, 4], by decide⟩,
      writer 1 15 ⟨[6], by decide⟩])).1

/-- The traversal enters the cycle at a node that depends on the order of the children, and the
suffix of the root with it. -/
theorem sharedIds_differ : Permuted (sharedIds .sorted) (sharedIds (.reversed .sorted)) ∧
    ((sharedIds .sorted).simulateParallelExecution 1).bind simulationResult ≠
      ((sharedIds (.reversed .sorted)).simulateParallelExecution 1).bind simulationResult ∧
    ((reorderTxsByDependencyGraph (fun _ => ⟨.sorted, .sorted⟩) (List.range 6) (sharedIds .sorted)
        1).map Prod.fst = some [0, 5, 5] ∧
      (reorderTxsByDependencyGraph (fun _ => ⟨.sorted, .sorted⟩) (List.range 6)
        (sharedIds (.reversed .sorted)) 1).map Prod.fst = some [5, 0, 5]) :=
  ⟨⟨by decide +kernel, by decide +kernel, by decide +kernel, by decide +kernel⟩,
    by decide +kernel, by decide +kernel, by decide +kernel⟩

end Examples

end TransactionGraph

end CongestionControl.Pevm
