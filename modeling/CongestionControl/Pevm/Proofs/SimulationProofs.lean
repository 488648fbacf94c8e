import CongestionControl.Lib.Dispatch
import CongestionControl.Pevm.Proofs.CriticalPathProofs

/-!
# Proofs: the simulation starts every transaction once, after its parents

The simulation follows `Dispatch` on the nodes of the graph. It neither panics nor runs on, and its
execution order is a permutation of the transactions that respects the links.
-/

namespace CongestionControl.Pevm

open TransactionNode Transition
open scoped List

/-! ## Longest suffixes -/

variable {heap : List HeapEntry} {i : Nat} {entry : HeapEntry} {f : Nat → UInt64}
  {txId : TransactionId}

namespace TransactionGraph

variable {g : TransactionGraph} {b : BlockGraph}

theorem Represents.congr_shape {g' : TransactionGraph} (h : g.Represents b)
    (hnodes : g'.nodes.map shape = g.nodes.map shape) (hindex : g'.idToIndex = g.idToIndex)
    (hheads : g'.headTxns = g.headTxns) (htails : g'.tailTxns = g.tailTxns) :
    g'.Represents b where
  nodes := (map_congr_shape hnodes TransactionNode.fresh fun _ => rfl).trans h.nodes
  index := hindex ▸ h.index
  mirrored := by
    obtain ⟨h1, h2, h3⟩ := h.mirrored
    constructor
    · rwa [children_congr hnodes, parents_congr hnodes]
    · rwa [children_congr hnodes]
    · rwa [parents_congr hnodes]
  links := by
    rw [children_congr hnodes]
    exact h.links
  heads := hheads ▸ h.heads
  tails := htails ▸ h.tails

theorem Represents.acyclic (h : g.Represents b) : Paths.Acyclic g.Edge :=
  Paths.acyclic_of_lt h.forward

theorem Represents.inRange (h : g.Represents b) : g.InRange := fun _ _ => h.mirrored.child_lt

theorem mem_rootNodes (hm : g.Mirrored) {idx : Nat} :
    idx ∈ g.rootNodes ↔ idx < g.nodes.length ∧ g.parents idx = [] := by
  rw [mem_rootNodes_iff, List.eq_nil_iff_forall_not_mem]
  exact and_congr_right fun _ => forall_congr' fun p => not_congr (hm.mem_children p idx)

def HeapHolds (b : BlockGraph) (heap : List HeapEntry) (ready : List Nat) : Prop :=
  heap.map (fun entry => some entry.txId) ~ ready.map (b.ids[·]?)

theorem HeapHolds.push {ready : List Nat} (h : HeapHolds b heap ready)
    (hi : b.ids[i]? = some entry.txId) :
    HeapHolds b (pushTxn heap entry) (i :: ready) := by
  refine ((List.perm_orderedInsert _ entry heap).map _).trans ?_
  rw [List.map_cons, List.map_cons, hi]
  exact h.cons _

theorem updateLongestSuffix_eq_some (h : g.Represents b)
    (hheap : g.nodes = [] → g.txnsWithoutParent = []) (hf : g.Suffixes f) :
    ∃ g', g.updateLongestSuffixPostorder = some g' ∧ g'.Represents b ∧
      g'.nodes = g.withSuffixes f ∧ g'.tempParents = g.tempParents ∧
      HeapHolds b g'.txnsWithoutParent g.rootNodes.reverse := by
  refine ⟨_, updateLongestSuffix_eq h.acyclic h.inRange hf hheap,
    h.congr_shape shape_withSuffixes rfl rfl rfl, rfl, rfl, ?_⟩
  have hperm := perm_foldl_pushTxn (g.entriesOf f g.rootNodes) []
  rw [List.append_nil] at hperm
  have hroots : ∀ i ∈ g.rootNodes, i < g.nodes.length := fun i hi => (mem_rootNodes_iff.mp hi).1
  have hids : (g.entriesOf f g.rootNodes).map (fun entry => some entry.txId) =
      g.rootNodes.map (b.ids[·]?) := by
    have hmap := congrArg (List.map (Option.map HeapEntry.txId)) (map_some_entriesOf (f := f) hroots)
    rw [List.map_map, List.map_map] at hmap
    refine hmap.trans (List.map_congr_left fun i hi => ?_)
    have hnode : g.nodes[i]? = some _ := List.getElem?_eq_getElem (hroots i hi)
    rw [Function.comp_apply, hnode, h.getElem?_ids hnode]
    rfl
  refine (hperm.map _).trans ?_
  rw [hids]
  exact (List.reverse_perm g.rootNodes).symm.map _

/-! ## The counts of unfinished parents -/

def taskGraph (g : TransactionGraph) (hm : g.Mirrored) (hf : g.Forward) : TaskGraph Nat where
  tasks := List.range g.nodes.length
  children := g.children
  parents := g.parents
  tasks_nodup := List.nodup_range
  mirrored := hm.mem_children
  children_nodup := hm.children_nodup
  parents_nodup := hm.parents_nodup
  parent_mem _ _ hp := List.mem_range.mpr (hm.parent_lt hp)
  wellFounded :=
    Subrelation.wf (fun {p c} hp => hf p c ((hm.mem_children p c).mpr hp)) Nat.lt_wfRel.wf

variable {G : TaskGraph Nat} {nodes : List TransactionNode} {s : Dispatch Nat}

/-- The heap and the counts of the graph are those of the dispatch. -/
structure Follows (b : BlockGraph) (G : TaskGraph Nat) (nodes : List TransactionNode)
    (g : TransactionGraph) (s : Dispatch Nat) : Prop where
  represents : g.Represents b
  nodes : g.nodes = nodes
  tasks : G.tasks = List.range g.nodes.length
  children : g.children = G.children
  heap : HeapHolds b g.txnsWithoutParent s.ready
  temp : g.tempParents = G.tasks.map s.remaining

theorem set_map_range {n v : Nat} (f : Nat → Nat) :
    ((List.range n).map f).set i v = (List.range n).map (Function.update f i v) := by
  refine List.ext_getElem? fun j => ?_
  by_cases hj : i = j
  · subst hj
    by_cases hn : i < n <;> simp [hn]
  · by_cases hn : j < n <;> simp [hj, hn, Ne.symm hj]

theorem Follows.freeChild {c : Nat} {rest : List Nat} (h : Follows b G nodes g s)
    (hinv : s.Inv G (c :: rest)) (hc : c ∈ G.tasks) :
    ∃ g', g.freeChild c = some g' ∧ Follows b G nodes g' (s.tell c) ∧ (s.tell c).Inv G rest := by
  obtain ⟨hpos, hinv'⟩ := hinv.tell hc
  have hlt : c < g.nodes.length := List.mem_range.mp (h.tasks ▸ hc)
  have htemp : g.tempParents[c]? = some (s.remaining c) := by
    rw [h.temp, h.tasks]
    simp [hlt]
  have hset : g.tempParents.set c (s.remaining c - 1) = G.tasks.map (s.tell c).remaining := by
    rw [h.temp, h.tasks]
    exact set_map_range s.remaining
  have hr : ∀ heap, Represents { g with
      tempParents := g.tempParents.set c (s.remaining c - 1), txnsWithoutParent := heap } b :=
    fun heap => h.represents.congr_shape rfl rfl rfl rfl
  unfold TransactionGraph.freeChild
  by_cases hz : s.remaining c - 1 = 0
  · obtain ⟨node, hnode⟩ : ∃ node, g.nodes[c]? = some node := ⟨_, List.getElem?_eq_getElem hlt⟩
    refine ⟨{ g with
      tempParents := g.tempParents.set c (s.remaining c - 1)
      txnsWithoutParent :=
        pushTxn g.txnsWithoutParent ⟨node.longestSuffix, node.transactionId⟩ }, ?_,
      ⟨hr _, h.nodes, h.tasks, h.children, ?_, hset⟩, hinv'⟩
    · simp [htemp, hpos, hz, hnode, guard]
    · have hready : (s.tell c).ready = c :: s.ready := if_pos hz
      rw [hready]
      exact h.heap.push (h.represents.getElem?_ids hnode)
  · refine ⟨{ g with tempParents := g.tempParents.set c (s.remaining c - 1) }, ?_,
      ⟨hr g.txnsWithoutParent, h.nodes, h.tasks, h.children, ?_, hset⟩, hinv'⟩
    · simp [htemp, hpos, hz, guard]
    · have hready : (s.tell c).ready = s.ready := if_neg hz
      rw [hready]
      exact h.heap

theorem Follows.remove (h : Follows b G nodes g s) (hi : b.ids[i]? = some txId)
    (hinv : s.Inv G (G.children i)) :
    ∃ g' s', g.removeTransactionAndUpdate txId = some g' ∧ Follows b G nodes g' s' ∧ s'.Inv G [] ∧
      s'.started = s.started ∧ s'.running = s.running ∧ s'.done = s.done := by
  have hidx : g.idToIndex.lookup txId = some i := (h.represents.index txId i).mpr hi
  have hlt : i < g.nodes.length := by
    have := (List.getElem?_eq_some_iff.mp hi).1
    rwa [BlockGraph.ids, h.represents.ids_length] at this
  obtain ⟨node, hnode⟩ : ∃ node, g.nodes[i]? = some node := ⟨_, List.getElem?_eq_getElem hlt⟩
  have hchildren : node.childrenIndices = G.children i := by
    rw [childrenIndices_of_shape rfl hnode, h.children]
  obtain ⟨g', hloop, -, s', h', hinv', hs⟩ := foldlM_rest
    (I := fun rest g' => (∀ c ∈ rest, c ∈ G.tasks) ∧ ∃ s', Follows b G nodes g' s' ∧ s'.Inv G rest ∧
      s'.started = s.started ∧ s'.running = s.running ∧ s'.done = s.done)
   
    (by
      rintro c rest g' ⟨hrest, s', h', hinv', hs⟩
      obtain ⟨g'', he, h'', hinv''⟩ := h'.freeChild hinv' (hrest c List.mem_cons_self)
      exact ⟨g'', he, fun c' hc' => hrest c' (List.mem_cons_of_mem c hc'), s'.tell c, h'', hinv'',
        hs⟩)
    ⟨fun c hc => by
      rw [hchildren, ← h.children] at hc
      rw [h.tasks]
      exact List.mem_range.mpr (h.represents.mirrored.child_lt hc),
      s, h, hchildren ▸ hinv, rfl, rfl, rfl⟩
  refine ⟨g', s', ?_, h', hinv', hs⟩
  unfold removeTransactionAndUpdate
  simp only [hidx, hnode, Option.bind_eq_bind, Option.bind_some, hloop]

theorem Follows.pop (h : Follows b G nodes g s) (hh : g.txnsWithoutParent = entry :: heap) :
    ∃ i ready, b.ids[i]? = some entry.txId ∧ s.ready ~ i :: ready ∧
      HeapHolds b heap ready := by
  have hheap := h.heap
  rw [HeapHolds, hh, List.map_cons] at hheap
  obtain ⟨i, hi, hid⟩ := List.mem_map.mp (hheap.subset List.mem_cons_self)
  have hready : s.ready ~ i :: s.ready.erase i := List.perm_cons_erase hi
  refine ⟨i, s.ready.erase i, hid, hready, ?_⟩
  have hcancel := hheap.trans (hready.map (b.ids[·]?))
  rw [List.map_cons, hid] at hcancel
  exact hcancel.cons_inv

theorem Represents.exists_getNode (h : g.Represents b) (hi : b.ids[i]? = some txId) :
    ∃ node tx, g.getNode txId = some node ∧
      b.txs[i]? = some tx ∧ tx.transactionId = txId ∧ tx.gasCost = node.gasCost := by
  rw [BlockGraph.ids, List.getElem?_map] at hi
  obtain ⟨tx, htx, rfl⟩ := Option.map_eq_some_iff.mp hi
  obtain ⟨node, hnode, rfl⟩ := h.getNode (List.mem_of_getElem? htx)
  exact ⟨node, _, hnode, htx, rfl, rfl⟩

end TransactionGraph

/-! ## The threads -/

namespace Simulation

open TransactionGraph

variable {b : BlockGraph} {G : TaskGraph Nat} {nodes : List TransactionNode} {sim : Simulation}
  {s : Dispatch Nat} {threads : List ThreadState} {k : Nat} {pre rest : List ThreadState}
  {thread : ThreadState} {events : List EstimatedCompletion} {running : List Nat}
  {event : EstimatedCompletion}

/-- The threads run the running transactions; each busy thread has one completion event. -/
structure Tracks (b : BlockGraph) (k : Nat) (threads : List ThreadState)
    (events : List EstimatedCompletion) (running : List Nat) : Prop where
  running : (threads.filterMap ThreadState.currentTransaction).map some ~ running.map (b.ids[·]?)
  threadIds : threads.map ThreadState.threadId = List.range k
  events : events.map EstimatedCompletion.threadId ~
    (threads.filter (!·.isIdle)).map ThreadState.threadId

structure Simulates (b : BlockGraph) (G : TaskGraph Nat) (nodes : List TransactionNode) (k : Nat)
    (threads : List ThreadState) (sim : Simulation) (s : Dispatch Nat) : Prop where
  graph : TransactionGraph.Follows b G nodes sim.graph s
  order : sim.executionOrder.map (fun tx => some tx.txId) = s.started.map (b.ids[·]?)
  tracks : Tracks b k threads sim.completionHeap s.running
  inv : s.Inv G []

theorem Tracks.init (b : BlockGraph) (k : Nat) :
    Tracks b k ((List.range k).map ThreadState.new) [] [] := by
  constructor
  · simp [List.filterMap_map, Function.comp_def, ThreadState.new]
  · simp [Function.comp_def, ThreadState.new]
  · simp [List.filter_map, Function.comp_def, ThreadState.new, ThreadState.isIdle]

/-- The tables of the threads with one of them taken out. -/
theorem Tracks.iff_cons :
    Tracks b k (pre ++ thread :: rest) events running ↔
      ((thread :: (pre ++ rest)).filterMap ThreadState.currentTransaction).map some ~
        running.map (b.ids[·]?) ∧
      (pre ++ thread :: rest).map ThreadState.threadId = List.range k ∧
      events.map EstimatedCompletion.threadId ~
        ((thread :: (pre ++ rest)).filter (!·.isIdle)).map ThreadState.threadId := by
  have hperm : pre ++ thread :: rest ~ thread :: (pre ++ rest) := List.perm_middle
  have hrun := (hperm.filterMap ThreadState.currentTransaction).map some
  have hev := (hperm.filter (!·.isIdle)).map ThreadState.threadId
  exact ⟨fun ⟨h1, h2, h3⟩ => ⟨hrun.symm.trans h1, h2, h3.trans hev⟩,
    fun ⟨h1, h2, h3⟩ => ⟨hrun.trans h1, h2, h3.trans hev.symm⟩⟩

theorem Tracks.start (h : Tracks b k (pre ++ thread :: rest) events running)
    (hidle : thread.isIdle = true) (hi : b.ids[i]? = some txId) (time cost expected : UInt64) :
    Tracks b k (pre ++ thread.assignTransaction txId time cost :: rest)
      (events.orderedInsert (· ≤ ·) ⟨expected, thread.threadId⟩) (i :: running) := by
  have hnone : thread.currentTransaction = none := Option.isNone_iff_eq_none.mp hidle
  obtain ⟨hrun, hids, hev⟩ := Tracks.iff_cons.mp h
  rw [List.filterMap_cons_none hnone] at hrun
  rw [List.filter_cons_of_neg (by simp [hidle])] at hev
  refine Tracks.iff_cons.mpr ⟨?_, ?_, ?_⟩
  · have hsome : (thread.assignTransaction txId time cost).currentTransaction = some txId := rfl
    rw [List.filterMap_cons_some hsome, List.map_cons, List.map_cons, hi]
    exact hrun.cons _
  · rw [← hids]
    simp [ThreadState.assignTransaction]
  · exact ((List.perm_orderedInsert _ _ _).map _).trans (hev.cons _)

theorem Tracks.complete (h : Tracks b k threads (event :: events) running) :
    ∃ thread thread' txId i running', threads[event.threadId]? = some thread ∧
      thread.completeTransaction = some (txId, thread') ∧ b.ids[i]? = some txId ∧
      running ~ i :: running' ∧ Tracks b k (threads.set event.threadId thread') events running' := by
  obtain ⟨thread, hmem, hid⟩ := List.mem_map.mp (h.events.subset List.mem_cons_self)
  obtain ⟨hmem, hbusy⟩ := List.mem_filter.mp hmem
  obtain ⟨txId, htx⟩ : ∃ txId, thread.currentTransaction = some txId := by
    cases hc : thread.currentTransaction with
    | none => simp [ThreadState.isIdle, hc] at hbusy
    | some txId => exact ⟨txId, rfl⟩
  obtain ⟨pre, rest, rfl⟩ := List.append_of_mem hmem
  -- The threads are numbered by their positions.
  have hpos : event.threadId = pre.length := by
    have hat := congrArg (fun l => l[pre.length]?) h.threadIds
    simp only [List.getElem?_map, List.getElem?_append_right le_rfl, Nat.sub_self,
      List.getElem?_cons_zero, Option.map_some] at hat
    obtain ⟨hlt, hval⟩ := List.getElem?_eq_some_iff.mp hat.symm
    rw [List.getElem_range] at hval
    exact hid.symm.trans hval.symm
  obtain ⟨hrun, hids, hev⟩ := Tracks.iff_cons.mp h
  rw [List.filterMap_cons_some htx, List.map_cons] at hrun
  rw [List.filter_cons_of_pos (p := fun thread : ThreadState => !thread.isIdle) hbusy,
    List.map_cons, List.map_cons, hid] at hev
  obtain ⟨i, hi, hids'⟩ := List.mem_map.mp (hrun.subset List.mem_cons_self)
  have hrunning : running ~ i :: running.erase i := List.perm_cons_erase hi
  refine ⟨thread, _, txId, i, running.erase i, ?_, by simp [ThreadState.completeTransaction, htx]; rfl,
    hids', hrunning, ?_⟩
  · rw [hpos, List.getElem?_append_right le_rfl, Nat.sub_self]
    rfl
  · rw [hpos, List.set_append_right _ _ le_rfl, Nat.sub_self]
    refine Tracks.iff_cons.mpr ⟨?_, ?_, ?_⟩
    · have hcancel := hrun.trans (hrunning.map (b.ids[·]?))
      rw [List.map_cons, hids'] at hcancel
      exact hcancel.cons_inv
    · rw [← hids]
      simp
    · exact hev.cons_inv

/-! ## The main loop -/

structure Clock where
  threads : List ThreadState
  completionHeap : List EstimatedCompletion
  executionOrder : List ScheduledTx
  currentTime : UInt64

def clock (sim : Simulation) (threads : List ThreadState) : Clock :=
  ⟨threads, sim.completionHeap, sim.executionOrder, sim.currentTime⟩

def Clock.start (c : Clock) (pre rest : List ThreadState) (thread : ThreadState)
    (tx : TransactionNode) : Clock where
  threads := pre ++ thread.assignTransaction tx.transactionId c.currentTime tx.gasCost :: rest
  completionHeap := c.completionHeap.orderedInsert (· ≤ ·)
    ⟨c.currentTime + tx.gasCost, thread.threadId⟩
  executionOrder := c.executionOrder ++
    [⟨thread.threadId, tx.transactionId, c.currentTime, c.currentTime + tx.gasCost⟩]
  currentTime := c.currentTime

def Clock.complete (c : Clock) (event : EstimatedCompletion) (events : List EstimatedCompletion)
    (thread : ThreadState) : Clock where
  threads := c.threads.set event.threadId thread
  completionHeap := events
  executionOrder := c.executionOrder
  currentTime := if event.time > c.currentTime then event.time else c.currentTime

structure Kept (b : BlockGraph) (G : TaskGraph Nat) (k : Nat) (J : Clock → Dispatch Nat → Prop) :
    Prop where
  start : ∀ {c : Clock} {s : Dispatch Nat} {pre rest : List ThreadState} {thread : ThreadState}
    {tx : TransactionNode} {i : Nat} {ready : List Nat}, J c s → s.Inv G [] →
    Tracks b k c.threads c.completionHeap s.running → c.threads = pre ++ thread :: rest →
    thread.isIdle = true → b.txs[i]? = some tx → s.ready ~ i :: ready →
    J (c.start pre rest thread tx)
      { s with started := s.started ++ [i], running := i :: s.running, ready }
  complete : ∀ {c : Clock} {s s' : Dispatch Nat} {event : EstimatedCompletion}
    {events : List EstimatedCompletion} {thread thread' : ThreadState} {txId : TransactionId}
    {i : Nat}, J c s → s.Inv G [] → Tracks b k c.threads c.completionHeap s.running →
    (s.ready = [] ∨ ∀ thread ∈ c.threads, thread.isIdle = false) →
    c.completionHeap = event :: events → c.threads[event.threadId]? = some thread →
    thread.completeTransaction = some (txId, thread') → b.ids[i]? = some txId →
    s.running ~ i :: s'.running → s'.started = s.started →
    J (c.complete event events thread') s'

theorem Kept.trivial : Kept b G k fun _ _ => True where
  start _ _ _ _ _ _ _ := True.intro
  complete _ _ _ _ _ _ _ _ _ _ := True.intro

variable {J : Clock → Dispatch Nat → Prop}

theorem Simulates.start (hJ : Kept b G k J)
    (h : Simulates b G nodes k (sim.threads ++ thread :: rest) sim s)
    (hj : J (sim.clock (sim.threads ++ thread :: rest)) s) (hidle : thread.isIdle = true)
    (hh : sim.graph.txnsWithoutParent = entry :: heap) :
    ∃ node sim' s',
      TransactionGraph.getNode { sim.graph with txnsWithoutParent := heap } entry.txId =
        some node ∧
      Simulation.start { sim with graph := { sim.graph with txnsWithoutParent := heap } } thread
        entry.txId node.gasCost = sim' ∧
      sim'.threads =
        sim.threads ++ [thread.assignTransaction entry.txId sim.currentTime node.gasCost] ∧
      Simulates b G nodes k (sim'.threads ++ rest) sim' s' ∧ J (sim'.clock (sim'.threads ++ rest)) s' ∧
      s'.done = s.done ∧ s'.started.length = s.started.length + 1 := by
  obtain ⟨i, ready, hi, hready, hheap⟩ := h.graph.pop hh
  have hr : Represents { sim.graph with txnsWithoutParent := heap } b :=
    h.graph.represents.congr_shape rfl rfl rfl rfl
  obtain ⟨node, tx, hnode, htx, hid, hgas⟩ := hr.exists_getNode hi
  have hj' := hJ.start hj h.inv h.tracks rfl hidle htx hready
  refine ⟨node, _, { s with started := s.started ++ [i], running := i :: s.running, ready }, hnode,
    rfl, rfl, ⟨⟨hr, h.graph.nodes, h.graph.tasks, h.graph.children, hheap, h.graph.temp⟩, ?_, ?_,
      h.inv.start hready⟩, ?_, rfl, by simp⟩
  rotate_left 2
  · rw [← hid, ← hgas]
    simp only [Simulation.start, List.append_assoc]
    exact hj'
  · simp only [Simulation.start, List.map_append, h.order, List.map_cons, List.map_nil, hi]
  · simp only [Simulation.start, List.append_assoc]
    exact h.tracks.start hidle hi sim.currentTime node.gasCost _

structure Assigned (sim sim' : Simulation) (s s' : Dispatch Nat) (assignedAny assignedAny' : Bool) :
    Prop where
  done : s'.done = s.done
  started : s.started.length ≤ s'.started.length
  any : assignedAny' = true → assignedAny = true ∨ s.started.length < s'.started.length
  heap : sim.graph.txnsWithoutParent = [] → sim'.graph.txnsWithoutParent = []
  /-- A thread stays idle only if there is nothing left to start. -/
  busy : sim'.graph.txnsWithoutParent = [] ∨
    ∀ thread ∈ sim'.threads, thread ∈ sim.threads ∨ thread.isIdle = false

theorem Simulates.assign (hJ : Kept b G k J) (rest : List ThreadState) (assignedAny : Bool)
    (h : Simulates b G nodes k (sim.threads ++ rest) sim s) (hj : J (sim.clock (sim.threads ++ rest)) s) :
    ∃ sim' s' assignedAny', assignThreads rest sim assignedAny = some (sim', assignedAny') ∧
      Simulates b G nodes k sim'.threads sim' s' ∧ J (sim'.clock sim'.threads) s' ∧
      Assigned sim sim' s s' assignedAny assignedAny' := by
  induction rest generalizing sim s assignedAny with
  | nil =>
    rw [List.append_nil] at h hj
    exact ⟨sim, s, assignedAny, rfl, h, hj, rfl, le_rfl, .inl, id, .inr fun _ => .inl⟩
  | cons thread rest ih =>
    -- A thread that is passed over joins the threads that have been looked at.
    have hskip : ∃ sim' s' assignedAny',
        assignThreads rest { sim with threads := sim.threads ++ [thread] } assignedAny =
          some (sim', assignedAny') ∧
        Simulates b G nodes k sim'.threads sim' s' ∧ J (sim'.clock sim'.threads) s' ∧
        Assigned { sim with threads := sim.threads ++ [thread] } sim' s s' assignedAny
          assignedAny' := by
      have htracks := h.tracks
      rw [List.append_cons] at htracks hj
      exact ih assignedAny ⟨h.graph, h.order, htracks, h.inv⟩ hj
    cases hidle : thread.isIdle with
    | false =>
      obtain ⟨sim', s', any', he, h', hj', ha⟩ := hskip
      refine ⟨sim', s', any', by simp [assignThreads, hidle, he], h', hj', ha.done, ha.started, ha.any,
        ha.heap, ha.busy.imp_right fun hb t ht => ?_⟩
      rcases hb t ht with hm | hb
      · rcases List.mem_append.mp hm with hm | hm
        · exact .inl hm
        · exact .inr (List.mem_singleton.mp hm ▸ hidle)
      · exact .inr hb
    | true =>
      cases hh : sim.graph.txnsWithoutParent with
      | nil =>
        obtain ⟨sim', s', any', he, h', hj', ha⟩ := hskip
        exact ⟨sim', s', any', by simp [assignThreads, hidle, popTxnWithoutParent, hh, he], h',
          hj', ha.done, ha.started, ha.any, ha.heap, .inl (ha.heap hh)⟩
      | cons entry heap =>
        obtain ⟨node, sim1, s1, hnode, hsim1, hthreads, h1, hj1, hdone, hlen⟩ :=
          h.start hJ hj hidle hh
        obtain ⟨sim', s', any', he, h', hj', ha⟩ := ih true h1 hj1
        refine ⟨sim', s', any',
          by simp [assignThreads, hidle, popTxnWithoutParent, hh, hnode, hsim1, he], h', hj',
          ha.done.trans hdone, by have := ha.started; omega,
          fun _ => .inr (by have := ha.started; omega),
          fun hn => absurd (hh.symm.trans hn) (List.cons_ne_nil _ _), ?_⟩
        refine ha.busy.imp_right fun hb t ht => ?_
        rcases hb t ht with hm | hb
        · rw [hthreads] at hm
          rcases List.mem_append.mp hm with hm | hm
          · exact .inl hm
          · exact .inr (List.mem_singleton.mp hm ▸ rfl)
        · exact .inr hb

theorem Simulates.complete (hJ : Kept b G k J) (h : Simulates b G nodes k sim.threads sim s)
    (hj : J (sim.clock sim.threads) s)
    (hgreedy : s.ready = [] ∨ ∀ thread ∈ sim.threads, thread.isIdle = false)
    (hh : sim.completionHeap = event :: events) :
    ∃ sim' s', sim.complete event events = some sim' ∧ Simulates b G nodes k sim'.threads sim' s' ∧
      J (sim'.clock sim'.threads) s' ∧ s'.started = s.started ∧
      s'.done.length = s.done.length + 1 := by
  have htracks := h.tracks
  rw [hh] at htracks
  obtain ⟨thread, thread', txId, i, running, hthread, hcomplete, hi, hrunning, htracks'⟩ :=
    htracks.complete
  have hinv := h.inv.finish hrunning
  have hgraph : TransactionGraph.Follows b G nodes sim.graph { s with done := i :: s.done, running } :=
    ⟨h.graph.represents, h.graph.nodes, h.graph.tasks, h.graph.children, h.graph.heap, h.graph.temp⟩
  obtain ⟨g', s', hremove, hgraph', hinv', hstarted, hrunning', hdone⟩ := hgraph.remove hi hinv
  have hleft : s.running ~ i :: s'.running := by rwa [hrunning']
  have hj' := hJ.complete hj h.inv h.tracks hgreedy hh hthread hcomplete hi hleft hstarted
  refine ⟨{ sim with
      graph := g'
      completionHeap := events
      currentTime := if event.time > sim.currentTime then event.time else sim.currentTime
      threads := sim.threads.set event.threadId thread' }, s', ?_,
    ⟨hgraph', ?_, ?_, hinv'⟩, hj', hstarted, by rw [hdone]; rfl⟩
  · simp [Simulation.complete, hthread, hcomplete, hremove]
  · rw [hstarted]
    exact h.order
  · rw [hrunning']
    exact htracks'

theorem Tracks.idle (h : Tracks b k threads [] running) :
    running = [] ∧ ∀ thread ∈ threads, thread.isIdle = true := by
  have hnil : threads.filter (!·.isIdle) = [] := by
    have := h.events.symm.eq_nil
    exact List.map_eq_nil_iff.mp this
  have hidle : ∀ thread ∈ threads, thread.isIdle = true := by
    intro thread hm
    simpa using List.filter_eq_nil_iff.mp hnil thread hm
  refine ⟨?_, hidle⟩
  have hnone : threads.filterMap ThreadState.currentTransaction = [] :=
    List.filterMap_eq_nil_iff.mpr fun thread hm => Option.isNone_iff_eq_none.mp (hidle thread hm)
  have hr := h.running
  rw [hnone] at hr
  exact List.map_eq_nil_iff.mp hr.symm.eq_nil

/-- The main loop ends with everything started: each pass starts or completes a transaction. -/
theorem Simulates.run (hJ : Kept b G k J) (hk : 1 ≤ k) (fuel : Nat)
    (h : Simulates b G nodes k sim.threads sim s) (hj : J (sim.clock sim.threads) s)
    (hfuel : (G.tasks.length - s.started.length) + (G.tasks.length - s.done.length) < fuel) :
    ∃ sim' s', sim.run fuel = some sim' ∧ Simulates b G nodes k sim'.threads sim' s' ∧
      J (sim'.clock sim'.threads) s' ∧ sim'.graph.txnsWithoutParent = [] ∧ s'.ready = [] ∧ s'.running = [] := by
  induction fuel generalizing sim s with
  | zero => omega
  | succ fuel ih =>
    have h0 : Simulates b G nodes k ({ sim with threads := [] : Simulation }.threads ++ sim.threads)
        { sim with threads := [] } s := ⟨h.graph, h.order, h.tracks, h.inv⟩
    obtain ⟨sim1, s1, any, he, h1, hj1, ha⟩ := h0.assign hJ sim.threads false hj
    have hstarted := ha.started
    have hbound := h1.inv.started_length_le
    have hdone : s1.done.length = s.done.length := by rw [ha.done]
    unfold Simulation.run
    simp only [he, Option.bind_eq_bind, Option.bind_some]
    by_cases hcont : (any && !sim1.graph.txnsWithoutParent.isEmpty) = true
    · rw [if_pos hcont]
      have hany := (Bool.and_eq_true_iff.mp hcont).1
      have hlt := (ha.any hany).resolve_left (by simp)
      exact ih h1 hj1 (by omega)
    · rw [if_neg hcont]
      have hready : sim1.graph.txnsWithoutParent = [] → s1.ready = [] := by
        intro hheap
        have hr := h1.graph.heap
        rw [hheap] at hr
        exact List.map_eq_nil_iff.mp hr.symm.eq_nil
      cases hev : sim1.completionHeap with
      | nil =>
        have htracks := h1.tracks
        rw [hev] at htracks
        obtain ⟨hrunning, hidle⟩ := htracks.idle
        have hheap : sim1.graph.txnsWithoutParent = [] := by
          refine ha.busy.resolve_right fun hbusy => ?_
          -- There is a thread, and it is idle.
          obtain ⟨thread, hm⟩ : ∃ thread, thread ∈ sim1.threads := by
            refine List.exists_mem_of_length_pos ?_
            have hlen := congrArg List.length htracks.threadIds
            simp only [List.length_map, List.length_range] at hlen
            omega
          have hb := (hbusy thread hm).resolve_left List.not_mem_nil
          rw [hidle thread hm] at hb
          cases hb
        exact ⟨sim1, s1, rfl, h1, hj1, hheap, hready hheap, hrunning⟩
      | cons event events =>
        have hgreedy : s1.ready = [] ∨ ∀ thread ∈ sim1.threads, thread.isIdle = false :=
          ha.busy.imp hready fun hbusy thread hm =>
            (hbusy thread hm).resolve_left List.not_mem_nil
        obtain ⟨sim2, s2, he2, h2, hj2, hs2, hd2⟩ := h1.complete hJ hj1 hgreedy hev
        simp only [he2]
        have hsplit := h2.inv.split.length_eq
        rw [List.length_append] at hsplit
        exact ih h2 hj2 (by rw [hs2, hd2] at *; omega)

end Simulation

/-! ## The execution order -/

/-- An order in which every transaction is started once, after its parents. -/
structure BlockGraph.Schedule (b : BlockGraph) (order : List TransactionId) : Prop where
  perm : order ~ b.ids
  ordered : ∀ p c, b.Link p c → [p, c] <+ order

namespace TransactionGraph

variable {g : TransactionGraph} {b : BlockGraph} {k : Nat}

structure Simulated (g : TransactionGraph) (b : BlockGraph) : Prop where
  represents : g.Represents b
  heap : g.txnsWithoutParent = []
  result : ∃ result, g.simulationResult = some result ∧
    b.Schedule (result.executionOrder.map ScheduledTx.txId)

theorem map_some_ids (b : BlockGraph) :
    b.ids.map some = (List.range b.ids.length).map (b.ids[·]?) := by
  refine List.ext_getElem? fun i => ?_
  by_cases hi : i < b.ids.length <;> simp [hi]

theorem schedule_of_started {G : TaskGraph Nat} {s : Dispatch Nat} {order : List TransactionId}
    (hr : g.Represents b) (hchildren : g.children = G.children)
    (htasks : G.tasks = List.range g.nodes.length) (hinv : s.Inv G []) (hready : s.ready = [])
    (hrunning : s.running = []) (horder : order.map some = s.started.map (b.ids[·]?)) :
    b.Schedule order := by
  have hstarted : s.started ~ List.range b.ids.length := by
    rw [BlockGraph.ids, hr.ids_length, ← htasks]
    exact hinv.complete hready hrunning
  constructor
  · refine (List.map_perm_map_iff (Option.some_injective _)).mp ?_
    rw [horder, map_some_ids]
    exact hstarted.map _
  · intro p c hl
    obtain ⟨i, hi⟩ := List.mem_iff_getElem?.mp (BlockGraph.mem_ids hl).1
    obtain ⟨j, hj⟩ := List.mem_iff_getElem?.mp (BlockGraph.mem_ids hl).2
    have hparent : i ∈ G.parents j := by
      rw [← G.mirrored, ← hchildren, hr.links]
      exact ⟨p, c, hi, hj, hl⟩
    have hlt : j ∈ s.started :=
      hstarted.symm.subset (List.mem_range.mpr (List.getElem?_eq_some_iff.mp hj).1)
    have hsub := ((hinv.ordered i j hparent hlt).map (b.ids[·]?)).filterMap id
    rw [← horder] at hsub
    simpa [hi, hj, List.filterMap_map] using hsub

structure Ended (b : BlockGraph) (G : TaskGraph Nat) (k : Nat) (c : Simulation.Clock)
    (s : Dispatch Nat) : Prop where
  inv : s.Inv G []
  tracks : Simulation.Tracks b k c.threads c.completionHeap s.running
  order : c.executionOrder.map (fun tx => some tx.txId) = s.started.map (b.ids[·]?)
  ready : s.ready = []
  running : s.running = []

/-- The simulation comes to an end, where what its steps keep is true. -/
theorem Represents.simulate_kept (h : g.Represents b) (hk : 1 ≤ k)
    (hheap : g.nodes = [] → g.txnsWithoutParent = []) (hf : g.Suffixes f)
    {J : Simulation.Clock → Dispatch Nat → Prop}
    (hJ : Simulation.Kept b (g.taskGraph h.mirrored h.forward) k J) (hinit : ∀ ready remaining,
      J ⟨(List.range k).map ThreadState.new, [], [], 0⟩ ⟨[], [], [], ready, remaining⟩) :
    ∃ g' c s, g.simulateParallelExecution k = some g' ∧ g'.Represents b ∧
      g'.nodes = g.withSuffixes f ∧ g'.txnsWithoutParent = [] ∧
      g'.simulationResult = some (.new c.currentTime c.threads c.executionOrder) ∧
      Ended b (g.taskGraph h.mirrored h.forward) k c s ∧ J c s := by
  let tempParents := g.nodes.map fun node => node.parentIndices.length
  have h0 : Represents { g with tempParents } b := h.congr_shape rfl rfl rfl rfl
  obtain ⟨g1, he1, h1, hnodes1, htemp, hheap1⟩ := updateLongestSuffix_eq_some h0 hheap hf
  have hshape : g1.nodes.map shape = g.nodes.map shape := by
    rw [hnodes1]
    exact shape_withSuffixes
  have hnodes : g1.nodes.length = g.nodes.length := by
    simpa using congrArg List.length hshape
  let G := g.taskGraph h.mirrored h.forward
  let s0 : Dispatch Nat :=
    ⟨[], [], [], (rootNodes { g with tempParents }).reverse, fun c => (G.parents c).length⟩
  have hinv : s0.Inv G [] := by
    refine Dispatch.Inv.init (List.nodup_reverse.mpr (List.nodup_range.filter _)) fun c => ?_
    rw [List.mem_reverse, mem_rootNodes h0.mirrored]
    exact and_congr_left' List.mem_range.symm
  have htemp' : g1.tempParents = G.tasks.map s0.remaining := by
    rw [htemp]
    show g.nodes.map _ = (List.range g.nodes.length).map fun c => (g.parents c).length
    refine List.ext_getElem? fun i => ?_
    by_cases hi : i < g.nodes.length <;> simp [hi, parents]
  have htasks : G.tasks = List.range g1.nodes.length := by
    rw [hnodes]
    rfl
  let sim0 : Simulation := ⟨g1, (List.range k).map ThreadState.new, [], [], 0⟩
  have hsim : Simulation.Simulates b G (g.withSuffixes f) k sim0.threads sim0 s0 := by
    exact ⟨⟨h1, hnodes1, htasks, children_congr hshape, hheap1, htemp'⟩, rfl, .init b k, hinv⟩
  have hlen : G.tasks.length = g1.nodes.length := by
    rw [htasks, List.length_range]
  have hfuel : (G.tasks.length - s0.started.length) + (G.tasks.length - s0.done.length) <
      2 * g1.nodes.length + 1 := by
    omega
  obtain ⟨sim, s, hrun, h2, hj, hheap2, hready, hrunning⟩ :=
    hsim.run hJ hk (2 * g1.nodes.length + 1) (hinit _ _) hfuel
  refine ⟨{ sim.graph with
    simulationResult := some (.new sim.currentTime sim.threads sim.executionOrder) },
    sim.clock sim.threads, s, ?_, h2.graph.represents.congr_shape rfl rfl rfl rfl, h2.graph.nodes,
    hheap2, rfl, ⟨h2.inv, h2.tracks, h2.order, hready, hrunning⟩, hj⟩
  unfold simulateParallelExecution
  simp only [Option.bind_eq_bind, tempParents] at he1 ⊢
  rw [he1, Option.bind_some, hrun]
  rfl

theorem Represents.simulate (h : g.Represents b) (hk : 1 ≤ k)
    (hheap : g.nodes = [] → g.txnsWithoutParent = []) :
    ∃ g', g.simulateParallelExecution k = some g' ∧ g'.Simulated b := by
  obtain ⟨f, hf⟩ := exists_suffixes h.acyclic
  obtain ⟨g', c, s, he, h', -, hheap', hresult, hend, -⟩ :=
    h.simulate_kept hk hheap hf .trivial fun _ _ => trivial
  refine ⟨g', he, h', hheap', _, hresult, ?_⟩
  refine schedule_of_started h rfl rfl hend.inv hend.ready
    hend.running ?_
  rw [← hend.order, List.map_map]
  rfl

end TransactionGraph

end CongestionControl.Pevm
