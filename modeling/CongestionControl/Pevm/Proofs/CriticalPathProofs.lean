import CongestionControl.Lib.Transition
import CongestionControl.Pevm.Proofs.CycleCheckProofs
import CongestionControl.Pevm.Proofs.DependencyGraphProofs
import CongestionControl.Pevm.Simulation

/-!
# Proofs: longest suffixes

In a graph without cycles the traversal gives every node its gas cost plus the largest suffix of its
children: if nothing overflows, the weight of the heaviest path that starts at the node.
-/

namespace CongestionControl.Pevm

open TransactionNode Transition
open scoped List

/-! ## Shapes -/

def TransactionNode.shape (node : TransactionNode) : TransactionNode :=
  { node with longestSuffix := 0 }

namespace TransactionGraph

open Relation Paths

variable {g : TransactionGraph} {b : BlockGraph} {nodes nodes' : List TransactionNode} {i idx : Nat}
  {node : TransactionNode} {g' : TransactionGraph}

section

variable (h : nodes'.map shape = nodes.map shape)

include h

theorem map_congr_shape {α : Type*} (f : TransactionNode → α) (hf : ∀ node, f node.shape = f node) :
    nodes'.map f = nodes.map f := by
  have hmap : ∀ l : List TransactionNode, (l.map shape).map f = l.map f := by
    intro l
    rw [List.map_map]
    exact List.map_congr_left fun node _ => hf node
  rw [← hmap, h, hmap]

theorem getElem?_congr_shape {α : Type*} (f : TransactionNode → α)
    (hf : ∀ node, f node.shape = f node) (i : Nat) :
    (nodes'[i]?).map f = (nodes[i]?).map f := by
  rw [← List.getElem?_map, ← List.getElem?_map, map_congr_shape h f hf]

theorem exists_of_shape (hi : nodes'[i]? = some node) :
    ∃ node', nodes[i]? = some node' ∧ node'.shape = node.shape := by
  have hs := getElem?_congr_shape h shape (fun _ => rfl) i
  rw [hi] at hs
  exact Option.map_eq_some_iff.mp hs.symm

end

theorem eq_of_shape {node' : TransactionNode} (h : node'.shape = node.shape) :
    node'.gasCost = node.gasCost ∧ node'.childrenIndices = node.childrenIndices ∧
      node'.transactionId = node.transactionId := by
  have hgas : node'.shape.gasCost = node.shape.gasCost := by rw [h]
  have hchildren : node'.shape.childrenIndices = node.shape.childrenIndices := by rw [h]
  have hid : node'.shape.transactionId = node.shape.transactionId := by rw [h]
  exact ⟨hgas, hchildren, hid⟩

theorem children_congr (h : g'.nodes.map shape = g.nodes.map shape) :
    g'.children = g.children := by
  funext i
  have hi := getElem?_congr_shape h childrenIndices (fun _ => rfl) i
  unfold children
  cases h1 : g'.nodes[i]? <;> cases h2 : g.nodes[i]? <;> simp_all

theorem parents_congr (h : g'.nodes.map shape = g.nodes.map shape) :
    g'.parents = g.parents := by
  funext i
  have hi := getElem?_congr_shape h parentIndices (fun _ => rfl) i
  unfold parents
  cases h1 : g'.nodes[i]? <;> cases h2 : g.nodes[i]? <;> simp_all

theorem childrenIndices_of_shape (h : nodes.map shape = g.nodes.map shape)
    (hi : nodes[i]? = some node) : node.childrenIndices = g.children i := by
  obtain ⟨node', hi', hs⟩ := exists_of_shape h hi
  rw [← (eq_of_shape hs).2.1]
  exact children_of_getElem? hi'

/-! ## The traversal -/

def maxSuffix (f : Nat → UInt64) (children : List Nat) : UInt64 :=
  children.foldl (fun m c => max m (f c)) 0

def Suffixes (g : TransactionGraph) (f : Nat → UInt64) : Prop :=
  ∀ i node, g.nodes[i]? = some node → f i = node.gasCost + maxSuffix f node.childrenIndices

theorem edge_lt {p c : Nat} (h : g.Edge p c) : p < g.nodes.length := by
  obtain ⟨node, hnode, -⟩ := (edge_iff_getElem? p c).mp h
  exact (List.getElem?_eq_some_iff.mp hnode).1

theorem wellFounded_edge (hacyc : Acyclic g.Edge) : WellFounded fun c p => g.Edge p c :=
  hacyc.wellFounded (Set.finite_Iio g.nodes.length) fun _ _ => edge_lt

theorem exists_suffixes (hacyc : Acyclic g.Edge) : ∃ f, g.Suffixes f := by
  have hwf := wellFounded_edge hacyc
  let F (i : Nat) (ih : ∀ c, g.Edge i c → UInt64) : UInt64 :=
    (g.nodes[i]?).elim 0 TransactionNode.gasCost +
      (g.children i).attach.foldl (fun m c => max m (ih c.1 c.2)) 0
  refine ⟨hwf.fix F, fun i node hnode => ?_⟩
  rw [hwf.fix_eq]
  show (g.nodes[i]?).elim 0 TransactionNode.gasCost +
    (g.children i).attach.foldl (fun m c => max m (hwf.fix F c.1)) 0 = _
  rw [hnode, Option.elim_some, List.foldl_attach (f := fun m c => max m (hwf.fix F c)),
    children_of_getElem? hnode]
  rfl

/-- The invariant of the traversal: the nodes that have been left have their suffixes, and their
children have been left too. The nodes on `stack` have been visited and not left. -/
structure Visiting (g : TransactionGraph) (f : Nat → UInt64) (stack : Finset Nat) (v : Visit) :
    Prop where
  shape : v.nodes.map TransactionNode.shape = g.nodes.map TransactionNode.shape
  final : ∀ i ∈ v.visited, i ∉ stack → ∀ node, v.nodes[i]? = some node → node.longestSuffix = f i
  closed : ∀ i ∈ v.visited, i ∉ stack → ∀ c, g.Edge i c → c ∈ v.visited ∧ c ∉ stack

variable {f : Nat → UInt64} {stack : Finset Nat} {v : Visit}

theorem Visiting.exists_node (h : Visiting g f stack v) (hi : i < g.nodes.length) :
    ∃ node, v.nodes[i]? = some node := by
  have hlen : v.nodes.length = g.nodes.length := by
    simpa using congrArg List.length h.shape
  exact ⟨_, List.getElem?_eq_getElem (by omega)⟩

theorem Visiting.push (h : Visiting g f stack v) (hnew : idx ∉ v.visited) :
    Visiting g f (insert idx stack) { v with visited := insert idx v.visited } := by
  have hold : ∀ i ∈ insert idx v.visited, i ∉ insert idx stack → i ∈ v.visited ∧ i ∉ stack := by
    intro i hi hs
    rw [Finset.mem_insert, not_or] at hs
    exact ⟨(Finset.mem_insert.mp hi).resolve_left hs.1, hs.2⟩
  refine ⟨h.shape, fun i hi hs => ?_, fun i hi hs c hc => ?_⟩
  · obtain ⟨hi', hs'⟩ := hold i hi hs
    exact h.final i hi' hs'
  · obtain ⟨hi', hs'⟩ := hold i hi hs
    obtain ⟨hc1, hc2⟩ := h.closed i hi' hs' c hc
    have hne : c ≠ idx := fun he => hnew (he ▸ hc1)
    exact ⟨Finset.mem_insert_of_mem hc1, by simp [hne, hc2]⟩

theorem Visiting.pop (h : Visiting g f (insert idx stack) v)
    (hchildren : ∀ c, g.Edge idx c → c ∈ v.visited ∧ c ∉ stack) :
    Visiting g f stack { v with
      nodes := v.nodes.modify idx fun node => { node with longestSuffix := f idx } } := by
  refine ⟨?_, fun i hi hs node hnode => ?_, fun i hi hs c hc => ?_⟩
  · rw [← h.shape]
    refine List.ext_getElem? fun i => ?_
    cases hn : v.nodes[i]? <;> by_cases hi : idx = i <;> simp [hn, hi, TransactionNode.shape]
  · rw [List.getElem?_modify] at hnode
    obtain ⟨old, hold, rfl⟩ := Option.map_eq_some_iff.mp hnode
    by_cases hi' : idx = i
    · rw [if_pos hi', hi']
    · rw [if_neg hi']
      exact h.final i hi (by simp [Ne.symm hi', hs]) old hold
  · by_cases hi' : i = idx
    · exact hchildren c (hi' ▸ hc)
    · obtain ⟨hc1, hc2⟩ := h.closed i hi (by simp [hi', hs]) c hc
      exact ⟨hc1, fun hmem => hc2 (Finset.mem_insert_of_mem hmem)⟩

theorem postorderDfs_eq (hacyc : Acyclic g.Edge) (hr : g.InRange) (hf : g.Suffixes f) (fuel : Nat)
    (hidx : idx < g.nodes.length) (hfuel : g.unvisited v.visited < fuel) (h : Visiting g f stack v)
    (hstack : ∀ i ∈ stack, TransGen g.Edge i idx) :
    ∃ v', postorderDfs fuel idx v = some (f idx, v') ∧ Visiting g f stack v' ∧
      v.visited ⊆ v'.visited ∧ idx ∈ v'.visited := by
  induction fuel generalizing idx v stack with
  | zero => omega
  | succ fuel ih =>
    have hnot : idx ∉ stack := fun hmem => hacyc idx (hstack idx hmem)
    obtain ⟨node, hnode⟩ := h.exists_node hidx
    unfold postorderDfs
    by_cases hvis : idx ∈ v.visited
    · have hfinal := h.final idx hvis hnot node hnode
      exact ⟨v, by simp [hnode, hvis, hfinal], h, subset_rfl, hvis⟩
    · have hchildren := childrenIndices_of_shape h.shape hnode
      have hdec := unvisited_insert_lt hidx hvis
      -- Every node that is on the stack during the loop leads to the children.
      have hedge : ∀ c ∈ node.childrenIndices, g.Edge idx c := by
        rw [hchildren]
        exact fun c hc => hc
      have hstack' : ∀ c, g.Edge idx c → ∀ i ∈ insert idx stack, TransGen g.Edge i c := by
        intro c hc i hi
        rcases Finset.mem_insert.mp hi with rfl | hi
        · exact .single hc
        · exact (hstack i hi).tail hc
      obtain ⟨⟨m, v'⟩, hloop, pre, hpre, hm, h', hsub, hall⟩ := foldlM_rest
        (I := fun rest (acc : UInt64 × Visit) => ∃ pre, node.childrenIndices = pre ++ rest ∧
          acc.1 = maxSuffix f pre ∧ Visiting g f (insert idx stack) acc.2 ∧
          insert idx v.visited ⊆ acc.2.visited ∧ ∀ c ∈ pre, c ∈ acc.2.visited)
        (f := visitChild (postorderDfs fuel))
        (b := (0, { v with visited := insert idx v.visited }))
        (by
          rintro c rest ⟨m, w⟩ ⟨pre, hpre, hm, hw, hsub, hall⟩
          have hc : g.Edge idx c := hedge c (by rw [hpre]; simp)
          have hle : g.unvisited w.visited ≤ g.unvisited (insert idx v.visited) :=
            unvisited_le hsub
          have hlt : g.unvisited w.visited < fuel := by omega
          obtain ⟨w', hdfs, hw', hsub', hcw⟩ := ih (hr idx c hc) hlt hw (hstack' c hc)
          refine ⟨(max m (f c), w'), by simp [visitChild, hdfs], pre ++ [c], by simp [hpre], ?_, hw',
            hsub.trans hsub', fun i hi => ?_⟩
          · show max m (f c) = maxSuffix f (pre ++ [c])
            rw [maxSuffix, List.foldl_append, ← maxSuffix, ← hm]
            rfl
          · rcases List.mem_append.mp hi with hi | hi
            · exact hsub' (hall i hi)
            · exact List.mem_singleton.mp hi ▸ hcw)
        ⟨[], rfl, rfl, h.push hvis, subset_rfl, by simp⟩
      rw [List.append_nil] at hpre
      obtain ⟨gnode, hgnode, hs⟩ := exists_of_shape h.shape hnode
      obtain ⟨hgas, hkids, -⟩ := eq_of_shape hs
      have hsuffix : node.gasCost + m = f idx := by
        rw [hf idx gnode hgnode, hgas, hkids, hpre]
        exact congrArg (node.gasCost + ·) hm
      have hpop := h'.pop fun c hc => by
        refine ⟨hall c (hpre ▸ hchildren ▸ hc), fun hmem => ?_⟩
        exact hacyc c (hstack' c hc c (Finset.mem_insert_of_mem hmem))
      simp only [hnode, hvis, Option.bind_eq_bind, Option.bind_some, if_false, hloop, hsuffix]
      exact ⟨_, rfl, hpop, (Finset.subset_insert idx _).trans hsub,
        hsub (Finset.mem_insert_self idx _)⟩

/-! ## The roots -/

theorem mem_rootNodes_iff :
    idx ∈ g.rootNodes ↔ idx < g.nodes.length ∧ ∀ p, ¬g.Edge p idx := by
  rw [rootNodes, List.mem_filter, List.mem_range, Bool.not_eq_true', List.any_eq_false]
  refine and_congr_right fun _ => ⟨fun h p hp => ?_, fun h node hmem hc => ?_⟩
  · obtain ⟨node, hnode, hc⟩ := (edge_iff_getElem? p idx).mp hp
    exact h node (List.mem_of_getElem? hnode) (decide_eq_true hc)
  · obtain ⟨p, hp⟩ := List.mem_iff_getElem?.mp hmem
    exact h p ((edge_iff_getElem? p idx).mpr ⟨node, hp, of_decide_eq_true hc⟩)

theorem exists_root (hacyc : Acyclic g.Edge) (hr : g.InRange) (hi : i < g.nodes.length) :
    ∃ root ∈ g.rootNodes, ReflTransGen g.Edge root i := by
  have hwf : WellFounded g.Edge := Acyclic.wellFounded hacyc.swap
    (Set.finite_Iio g.nodes.length) fun c p hpc => hr p c hpc
  induction i using hwf.induction with
  | _ i ih =>
    by_cases hparent : ∃ p, g.Edge p i
    · obtain ⟨p, hp⟩ := hparent
      obtain ⟨root, hroot, hreach⟩ := ih p hp (edge_lt hp)
      exact ⟨root, hroot, hreach.tail hp⟩
    · exact ⟨i, mem_rootNodes_iff.mpr ⟨hi, fun p hp => hparent ⟨p, hp⟩⟩, .refl⟩

def withSuffixes (g : TransactionGraph) (f : Nat → UInt64) : List TransactionNode :=
  g.nodes.mapIdx fun i node => { node with longestSuffix := f i }

def entriesOf (g : TransactionGraph) (f : Nat → UInt64) (l : List Nat) : List HeapEntry :=
  l.filterMap fun i => (g.nodes[i]?).map fun node => ⟨f i, node.transactionId⟩

theorem getElem?_withSuffixes (i : Nat) :
    (g.withSuffixes f)[i]? = (g.nodes[i]?).map fun node => { node with longestSuffix := f i } :=
  List.getElem?_mapIdx

theorem shape_withSuffixes :
    (g.withSuffixes f).map TransactionNode.shape = g.nodes.map TransactionNode.shape := by
  refine List.ext_getElem? fun i => ?_
  rw [List.getElem?_map, getElem?_withSuffixes, List.getElem?_map]
  cases g.nodes[i]? <;> rfl

theorem map_some_entriesOf {l : List Nat} (hl : ∀ i ∈ l, i < g.nodes.length) :
    (g.entriesOf f l).map some =
      l.map fun i => (g.nodes[i]?).map fun node => ⟨f i, node.transactionId⟩ := by
  induction l with
  | nil => rfl
  | cons i l ih =>
    have hi : g.nodes[i]? = some _ := List.getElem?_eq_getElem (hl i List.mem_cons_self)
    have htail := ih fun j hj => hl j (List.mem_cons_of_mem i hj)
    rw [entriesOf] at htail ⊢
    rw [List.filterMap_cons, List.map_cons, ← htail, hi]
    rfl

theorem Visiting.nodes_eq (h : Visiting g f ∅ v)
    (hall : ∀ i < g.nodes.length, i ∈ v.visited) : v.nodes = g.withSuffixes f := by
  refine List.ext_getElem? fun i => ?_
  rw [getElem?_withSuffixes]
  by_cases hi : i < g.nodes.length
  · obtain ⟨node, hnode⟩ := h.exists_node hi
    obtain ⟨gnode, hgnode, hs⟩ := exists_of_shape h.shape hnode
    rw [hgnode, ← h.final i (hall i hi) (Finset.notMem_empty i) node hnode]
    cases node
    cases gnode
    simp_all [TransactionNode.shape]
  · have hlen : v.nodes.length = g.nodes.length := by
      simpa using congrArg List.length h.shape
    rw [List.getElem?_eq_none (by omega), List.getElem?_eq_none (by omega)]
    rfl

/-- The whole traversal: the nodes get their suffixes and the roots are pushed on the heap. -/
theorem updateLongestSuffix_eq (hacyc : Acyclic g.Edge) (hr : g.InRange) (hf : g.Suffixes f)
    (hheap : g.nodes = [] → g.txnsWithoutParent = []) :
    g.updateLongestSuffixPostorder = some { g with
      nodes := g.withSuffixes f
      txnsWithoutParent := (g.entriesOf f g.rootNodes).foldl pushTxn [] } := by
  unfold updateLongestSuffixPostorder
  by_cases hn : g.nodes.length = 0
  · have hnil := List.length_eq_zero_iff.mp hn
    have hroots : g.rootNodes = [] := by simp [rootNodes, hn]
    have hsame : g.withSuffixes f = g.nodes := by simp [withSuffixes, hnil]
    rw [if_pos hn, hroots, hsame]
    show some g = some { g with txnsWithoutParent := [] }
    rw [← hheap hnil]
  · have hrange : ∀ node ∈ g.nodes, ∀ c ∈ node.childrenIndices, c < g.nodes.length := by
      intro node hmem c hc
      obtain ⟨p, hp⟩ := List.mem_iff_getElem?.mp hmem
      exact hr p c ((edge_iff_getElem? p c).mpr ⟨node, hp, hc⟩)
    obtain ⟨⟨w, heap⟩, hloop, pre, hpre, hw, hheap', hall⟩ := foldlM_rest
      (I := fun rest (acc : Visit × List HeapEntry) => ∃ pre, g.rootNodes = pre ++ rest ∧
        Visiting g f ∅ acc.1 ∧ acc.2 = (g.entriesOf f pre).foldl pushTxn [] ∧
        ∀ i ∈ pre, i ∈ acc.1.visited)
      (f := visitRoot (g.nodes.length + 1)) (l := g.rootNodes) (b := (⟨g.nodes, ∅⟩, []))
      (by
        rintro root rest ⟨w, heap⟩ ⟨pre, hpre, hw, hheap', hall⟩
        have hroot : root < g.nodes.length := by
          have hmem : root ∈ g.rootNodes := by rw [hpre]; simp
          exact (mem_rootNodes_iff.mp hmem).1
        obtain ⟨w', hdfs, hw', hsub, hvis⟩ := postorderDfs_eq hacyc hr hf (g.nodes.length + 1)
          hroot (unvisited_lt w.visited) hw (by simp)
        obtain ⟨node, hnode⟩ := hw'.exists_node hroot
        obtain ⟨gnode, hgnode, hs⟩ := exists_of_shape hw'.shape hnode
        have hsuffix := hw'.final root hvis (Finset.notMem_empty root) node hnode
        refine ⟨(w', pushTxn heap ⟨node.longestSuffix, node.transactionId⟩),
          by simp [visitRoot, hdfs, hnode], pre ++ [root], by simp [hpre], hw', ?_, fun i hi => ?_⟩
        · have hentry : g.entriesOf f [root] = [⟨node.longestSuffix, node.transactionId⟩] := by
            simp [entriesOf, hgnode, hsuffix, (eq_of_shape hs).2.2]
          have hsplit : g.entriesOf f (pre ++ [root]) = g.entriesOf f pre ++ g.entriesOf f [root] :=
            List.filterMap_append
          rw [hsplit, hentry, List.foldl_append, ← hheap']
          rfl
        · rcases List.mem_append.mp hi with hi | hi
          · exact hsub (hall i hi)
          · exact List.mem_singleton.mp hi ▸ hvis)
      ⟨[], rfl, ⟨rfl, by simp, by simp⟩, rfl, by simp⟩
    rw [List.append_nil] at hpre
    have hreached : ∀ i < g.nodes.length, i ∈ w.visited := by
      intro i hi
      obtain ⟨root, hroot, hreach⟩ := exists_root hacyc hr hi
      induction hreach with
      | refl => exact hall root (hpre ▸ hroot)
      | tail _ hedge ih => exact (hw.closed _ (ih (edge_lt hedge)) (by simp) _ hedge).1
    have hnodes : w.nodes = g.withSuffixes f := hw.nodes_eq hreached
    rw [if_neg hn, if_pos hrange, hloop, hpre, ← hheap', ← hnodes]
    rfl

/-! ## The heaviest path -/

def gas (g : TransactionGraph) (i : Nat) : Nat := (g.nodes[i]?).elim 0 fun node => node.gasCost.toNat

def totalGas (g : TransactionGraph) : Nat := (g.nodes.map fun node => node.gasCost.toNat).sum

theorem totalGas_eq : g.totalGas = ((List.range g.nodes.length).map g.gas).sum := by
  unfold totalGas
  congr 1
  refine List.ext_getElem? fun i => ?_
  by_cases hi : i < g.nodes.length <;> simp [hi, gas]

theorem path_le_totalGas (hacyc : Acyclic g.Edge) (hr : g.InRange) {path : List Nat}
    (hi : i < g.nodes.length) (h : IsPath g.Edge i path) : (path.map g.gas).sum ≤ g.totalGas := by
  have hsub : path ⊆ List.range g.nodes.length := by
    intro j hj
    rw [List.mem_range]
    rcases reflTransGen_iff_eq_or_transGen.mp (h.reaches hj) with rfl | hreach
    · exact hi
    · obtain ⟨p, -, hp⟩ := TransGen.tail'_iff.mp hreach
      exact hr p j hp
  obtain ⟨l, hperm, hl⟩ := (h.nodup hacyc).subperm hsub
  rw [totalGas_eq, ← (hperm.map g.gas).sum_eq]
  exact (hl.map g.gas).sum_le_sum fun _ _ => Nat.zero_le _

theorem toNat_max (a b : UInt64) : (max a b).toNat = max a.toNat b.toNat := by
  rw [show max a b = if a ≤ b then b else a from rfl]
  split <;> rename_i h <;> rw [UInt64.le_iff_toNat_le] at h <;> omega

theorem foldl_max_spec (f : Nat → UInt64) (children : List Nat) (m : UInt64) :
    m.toNat ≤ (children.foldl (fun m c => max m (f c)) m).toNat ∧
      (∀ c ∈ children, (f c).toNat ≤ (children.foldl (fun m c => max m (f c)) m).toNat) ∧
      ((children.foldl (fun m c => max m (f c)) m).toNat = m.toNat ∨
        ∃ c ∈ children, (f c).toNat = (children.foldl (fun m c => max m (f c)) m).toNat) := by
  induction children generalizing m with
  | nil => simp
  | cons a children ih =>
    obtain ⟨h1, h2, h3⟩ := ih (max m (f a))
    rw [toNat_max] at h1 h3
    rw [List.foldl_cons]
    refine ⟨by omega, fun c hc => ?_, ?_⟩
    · rcases List.mem_cons.mp hc with rfl | hc
      · omega
      · exact h2 c hc
    · rcases h3 with h3 | ⟨c, hc, h3⟩
      · rcases le_total m.toNat (f a).toNat with hle | hle
        · exact .inr ⟨a, List.mem_cons_self, by omega⟩
        · exact .inl (by omega)
      · exact .inr ⟨c, List.mem_cons_of_mem a hc, h3⟩

/-- A suffix is that of the heaviest child and the gas cost, if the suffixes of the children are the
weights of paths: no path is heavier than the whole graph, so the addition does not wrap. -/
theorem Suffixes.step (hacyc : Acyclic g.Edge) (hr : g.InRange) (hf : g.Suffixes f)
    (htotal : g.totalGas < 2 ^ 64) (hi : i < g.nodes.length)
    (hchildren : ∀ c, g.Edge i c → IsGreatest (weights g.Edge g.gas c) (f c).toNat) :
    (f i).toNat = g.gas i + (maxSuffix f (g.children i)).toNat ∧
      IsGreatest (weights g.Edge g.gas i) (f i).toNat := by
  obtain ⟨node, hnode⟩ : ∃ node, g.nodes[i]? = some node := ⟨_, List.getElem?_eq_getElem hi⟩
  obtain ⟨-, hmax, hmem⟩ := foldl_max_spec f (g.children i) 0
  have hstep : IsGreatest (weights g.Edge g.gas i)
      (g.gas i + (maxSuffix f (g.children i)).toNat) := isGreatest_weights hchildren hmax hmem
  have hgas : g.gas i = node.gasCost.toNat := by rw [gas, hnode, Option.elim_some]
  have hbound : g.gas i + (maxSuffix f (g.children i)).toNat ≤ g.totalGas := by
    obtain ⟨path, hpath, hw⟩ := hstep.1
    rw [hw]
    exact path_le_totalGas hacyc hr hi hpath
  have hval : (f i).toNat = g.gas i + (maxSuffix f (g.children i)).toNat := by
    rw [hf i node hnode, children_of_getElem? hnode, UInt64.toNat_add, hgas]
    omega
  exact ⟨hval, hval ▸ hstep⟩

/-- A suffix is the weight of the heaviest path, as long as the gas costs do not overflow. -/
theorem Suffixes.isGreatest (hacyc : Acyclic g.Edge) (hr : g.InRange) (hf : g.Suffixes f)
    (htotal : g.totalGas < 2 ^ 64) (hi : i < g.nodes.length) :
    IsGreatest (weights g.Edge g.gas i) (f i).toNat := by
  induction i using (wellFounded_edge hacyc).induction with
  | _ i ih => exact (hf.step hacyc hr htotal hi fun c hc => ih c hc (hr i c hc)).2

theorem perm_foldl_pushTxn (l heap : List HeapEntry) : l.foldl pushTxn heap ~ l ++ heap := by
  induction l generalizing heap with
  | nil => exact .refl heap
  | cons entry l ih =>
    refine (ih (pushTxn heap entry)).trans ?_
    have hpush : pushTxn heap entry ~ entry :: heap := List.perm_orderedInsert _ entry heap
    exact (hpush.append_left l).trans List.perm_middle

/-- In a graph without cycles every node gets the weight of the heaviest path that starts at it, and
the heap holds one entry for each node without parents. -/
theorem updateLongestSuffix_critical (g : TransactionGraph) (hacyc : Acyclic g.Edge)
    (hr : g.InRange) (htotal : g.totalGas < 2 ^ 64)
    (hheap : g.nodes = [] → g.txnsWithoutParent = []) :
    ∃ (g' : TransactionGraph) (roots : List Nat), g.updateLongestSuffixPostorder = some g' ∧
      g'.nodes.map TransactionNode.shape = g.nodes.map TransactionNode.shape ∧
      (∀ (i : Nat) (node : TransactionNode), g'.nodes[i]? = some node →
        IsGreatest {w | ∃ path, IsPath g.Edge i path ∧ w = (path.map g.gas).sum}
          node.longestSuffix.toNat) ∧
      roots.Nodup ∧ (∀ i, i ∈ roots ↔ i < g.nodes.length ∧ ∀ p, ¬g.Edge p i) ∧
      g'.txnsWithoutParent.map some ~ roots.map fun i => (g'.nodes[i]?).map fun node =>
        (⟨node.longestSuffix, node.transactionId⟩ : HeapEntry) := by
  obtain ⟨f, hf⟩ := exists_suffixes hacyc
  refine ⟨_, g.rootNodes, updateLongestSuffix_eq hacyc hr hf hheap, shape_withSuffixes,
    fun i node hnode => ?_, List.nodup_range.filter _, fun i => mem_rootNodes_iff, ?_⟩
  · obtain ⟨old, hold, rfl⟩ := Option.map_eq_some_iff.mp
      ((getElem?_withSuffixes i).symm.trans hnode)
    exact hf.isGreatest hacyc hr htotal (List.getElem?_eq_some_iff.mp hold).1
  · have hperm := perm_foldl_pushTxn (g.entriesOf f g.rootNodes) []
    rw [List.append_nil] at hperm
    refine (hperm.map some).trans (List.Perm.of_eq ?_)
    rw [map_some_entriesOf fun i hi => (mem_rootNodes_iff.mp hi).1]
    refine List.map_congr_left fun i _ => ?_
    show _ = ((g.withSuffixes f)[i]?).map _
    rw [getElem?_withSuffixes]
    cases g.nodes[i]? <;> rfl

theorem pairGraph_critical : ∃ g', pairGraph.updateLongestSuffixPostorder = some g' ∧
    (∀ node, g'.nodes[0]? = some node →
      IsGreatest {w | ∃ path, IsPath pairGraph.Edge 0 path ∧ w = (path.map pairGraph.gas).sum}
        node.longestSuffix.toNat) := by
  have hacyc : Acyclic pairGraph.Edge := acyclic_of_lt pairGraph_represents.forward
  have hr : pairGraph.InRange := fun _ _ => pairGraph_represents.mirrored.child_lt
  obtain ⟨g', -, heq, -, hsuffix, -⟩ := updateLongestSuffix_critical pairGraph hacyc hr
    (by decide +kernel) (by decide +kernel)
  exact ⟨g', heq, hsuffix 0⟩

end TransactionGraph

end CongestionControl.Pevm
