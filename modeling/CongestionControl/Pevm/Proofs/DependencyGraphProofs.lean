import CongestionControl.Pevm.BlockGraph

/-!
# Proofs: the dependency graph represents its block graph

`add_transaction` and `integrate_graph` do not fail on graphs built by them, and do to the tables
what `BlockGraph.add` and `BlockGraph.integrate` do to the block graph. So every such graph has
mirrored lists of parents and children and only forward edges.
-/

namespace CongestionControl.Pevm

open Function (update update_of_ne update_self)
open Relation (TransGen)
open TransactionNode
open scoped List

/-! ## Key sets -/

theorem disjointFrom_eq_true {a : Key} {rest : List Key → Bool} {as : List Key}
    (hrest : ∀ bs, bs.Pairwise (· < ·) → (rest bs = true ↔ ∀ x ∈ as, x ∉ bs))
    (ha : ∀ x ∈ as, a < x) : ∀ {bs : List Key}, bs.Pairwise (· < ·) →
    (disjointFrom a rest bs = true ↔ ∀ x ∈ a :: as, x ∉ bs)
  | [], _ => by simp [disjointFrom]
  | b :: bs, hbs => by
    obtain ⟨hb, hbs'⟩ := List.pairwise_cons.mp hbs
    unfold disjointFrom
    split
    · rename_i hab
      simp [hab]
    · rename_i hab
      split
      · -- The second list is above `a`.
        rename_i hlt
        have hnot : a ∉ b :: bs := by
          intro hmem
          rcases List.mem_cons.mp hmem with h | h
          · exact hab h
          · exact Nat.lt_asymm hlt (hb a h)
        rw [hrest _ hbs, List.forall_mem_cons]
        exact ⟨fun h => ⟨hnot, h⟩, fun h => h.2⟩
      · -- The first list is above `b`.
        rename_i hlt
        have hba : b < a := Nat.lt_of_le_of_ne (Nat.le_of_not_lt hlt) (Ne.symm hab)
        have hne : ∀ x ∈ a :: as, x ≠ b := by
          intro x hx hxb
          rcases List.mem_cons.mp hx with h | h
          · exact hab (h.symm.trans hxb)
          · exact Nat.lt_asymm (hxb ▸ ha x h) hba
        rw [disjointFrom_eq_true hrest ha hbs']
        constructor
        · intro h x hx hmem
          rcases List.mem_cons.mp hmem with he | hm
          · exact hne x hx he
          · exact h x hx hm
        · exact fun h x hx hm => h x hx (List.mem_cons_of_mem b hm)

/-- `sorted_is_disjoint` decides whether two sorted vectors have no key in common. -/
theorem sortedIsDisjoint_eq_true : ∀ {as bs : List Key}, as.Pairwise (· < ·) →
    bs.Pairwise (· < ·) → (sortedIsDisjoint as bs = true ↔ ∀ x ∈ as, x ∉ bs)
  | [], _, _, _ => by simp [sortedIsDisjoint]
  | _ :: _, _, has, hbs =>
    disjointFrom_eq_true
      (fun _ h => sortedIsDisjoint_eq_true (List.pairwise_cons.mp has).2 h)
      (List.pairwise_cons.mp has).1 hbs

theorem sortedIsDisjoint_eq_false {p c : TransactionNode} :
    sortedIsDisjoint p.writeSet.keys c.writeSet.keys = false ↔ p.Conflicts c := by
  rw [← Bool.not_eq_true, sortedIsDisjoint_eq_true p.writeSet.sorted c.writeSet.sorted]
  simp [Conflicts, Writes]

/-! ## Heads and tails -/

variable {node : TransactionNode}

namespace BlockGraph

variable {b other : BlockGraph} {addr : Key}

theorem mem_ids {p c : TransactionId} (h : b.Link p c) : p ∈ b.ids ∧ c ∈ b.ids :=
  ⟨(b.ordered p c h).subset (by simp), (b.ordered p c h).subset (by simp)⟩

theorem head_eq_none : b.head addr = none ↔ b.tail addr = none := by
  rw [head, tail, List.head?_eq_none_iff, List.getLast?_eq_none_iff]

theorem head_single {head : TransactionNode} :
    (single node).head addr = some head ↔ node.Touches addr ∧ head = node.fresh := by
  by_cases h : node.Touches addr
  · have hf : node.fresh.Touches addr := h
    simp [BlockGraph.head, single, touching, h, hf, eq_comm]
  · have hf : ¬ node.fresh.Touches addr := h
    simp [BlockGraph.head, single, touching, h, hf]

theorem map_head_single (node : TransactionNode) :
    ((single node).head addr).map transactionId =
      if addr ∈ node.addresses then some node.transactionId else none := by
  by_cases h : addr ∈ node.addresses
  · rw [head_single.mpr ⟨h, rfl⟩, if_pos h]
    rfl
  · rw [if_neg h, Option.map_eq_none_iff, Option.eq_none_iff_forall_ne_some]
    exact fun head hh => h (head_single.mp hh).1

theorem tail_single (node : TransactionNode) : (single node).tail addr = (single node).head addr := by
  by_cases h : node.fresh.Touches addr <;> simp [BlockGraph.head, BlockGraph.tail, single, touching, h]

section Append

variable {cross : TransactionNode → TransactionNode → Prop}
  {hcross : ∀ p c, p.Conflicts c → cross p c} {hdisj : b.ids.Disjoint other.ids}

theorem head_append :
    (append cross hcross b other hdisj).head addr = (b.head addr).or (other.head addr) := by
  simp [BlockGraph.head, append, List.head?_append]

theorem tail_append :
    (append cross hcross b other hdisj).tail addr = (other.tail addr).or (b.tail addr) := by
  simp [BlockGraph.tail, append, List.getLast?_append]

end Append

theorem map_head_add (hnew : node.transactionId ∉ b.ids) :
    ((b.add node hnew).head addr).map transactionId = ((b.head addr).map transactionId).or
      (if addr ∈ node.addresses then some node.transactionId else none) := by
  rw [show (b.add node hnew).head addr = _ from head_append, Option.map_or, map_head_single]

theorem map_tail_add (hnew : node.transactionId ∉ b.ids) :
    ((b.add node hnew).tail addr).map transactionId =
      (if addr ∈ node.addresses then some node.transactionId else none).or
        ((b.tail addr).map transactionId) := by
  rw [show (b.add node hnew).tail addr = _ from tail_append, Option.map_or, tail_single,
    map_head_single]

end BlockGraph

namespace TransactionGraph

variable {g g' other : TransactionGraph} {txs txs' : List TransactionNode}
  {Link Link' : TransactionId → TransactionId → Prop} {b bo : BlockGraph} {addr : Key}
  {p c i j : Nat} {f : Nat → List Nat} {table : HashMap TransactionId Nat}
  {ids : List TransactionId} {txId pid cid : TransactionId} {rest : List Key}

/-! ## The lists of parents and children -/

theorem lt_of_mem_children (h : c ∈ g.children p) : p < g.nodes.length := by
  by_contra hp
  simp [children, List.getElem?_eq_none (Nat.le_of_not_lt hp)] at h

theorem lt_of_mem_parents (h : p ∈ g.parents c) : c < g.nodes.length := by
  by_contra hc
  simp [parents, List.getElem?_eq_none (Nat.le_of_not_lt hc)] at h

theorem Mirrored.child_lt (hm : g.Mirrored) (h : c ∈ g.children p) :
    c < g.nodes.length :=
  lt_of_mem_parents ((hm.mem_children p c).mp h)

theorem Mirrored.parent_lt (hm : g.Mirrored) (h : p ∈ g.parents c) :
    p < g.nodes.length :=
  lt_of_mem_children ((hm.mem_children p c).mpr h)

theorem Mirrored.count_child (hm : g.Mirrored) (p c : Nat) :
    (g.children p).count c = if p ∈ g.parents c then 1 else 0 := by
  split <;> rename_i hp
  · exact List.count_eq_one_of_mem (hm.children_nodup p) ((hm.mem_children p c).mpr hp)
  · exact List.count_eq_zero_of_not_mem fun hc => hp ((hm.mem_children p c).mp hc)

/-! ## Linking two nodes -/

theorem link_of_mem (h : c ∈ g.children p) : g.link p c = g := by
  unfold link
  rw [if_pos h]

theorem children_link (hp : p < g.nodes.length) (h : c ∉ g.children p) :
    (g.link p c).children = update g.children p (g.children p ++ [c]) := by
  funext i
  unfold link
  rw [if_neg h]
  by_cases hi : i = p
  · subst hi
    by_cases hc : c = i <;>
      simp [children, hc, List.getElem?_eq_getElem hp]
  · rw [update_of_ne hi]
    have hpi : ¬ p = i := fun h => hi h.symm
    cases hn : g.nodes[i]? <;> by_cases hc : c = i <;>
      simp [children, hpi, hc, hn]

theorem parents_link (hc : c < g.nodes.length) (h : c ∉ g.children p) :
    (g.link p c).parents = update g.parents c (g.parents c ++ [p]) := by
  funext i
  unfold link
  rw [if_neg h]
  by_cases hi : i = c
  · subst hi
    by_cases hp : p = i <;>
      simp [parents, hp, List.getElem?_eq_getElem hc]
  · rw [update_of_ne hi]
    have hci : ¬ c = i := fun h => hi h.symm
    cases hn : g.nodes[i]? <;> by_cases hp : p = i <;>
      simp [parents, hci, hp, hn]

theorem mem_update_push :
    j ∈ update f p (f p ++ [c]) i ↔ j ∈ f i ∨ (i = p ∧ j = c) := by
  by_cases hi : i = p
  · subst hi
    simp
  · simp [hi]

theorem nodup_update_push (h : ∀ i, (f i).Nodup) (hc : c ∉ f p) :
    (update f p (f p ++ [c]) i).Nodup := by
  by_cases hi : i = p
  · subst hi
    rw [update_self, List.nodup_append]
    refine ⟨h i, List.nodup_singleton c, ?_⟩
    intro x hx y hy hxy
    rw [List.mem_singleton.mp hy] at hxy
    exact hc (hxy ▸ hx)
  · rw [update_of_ne hi]
    exact h i

theorem Mirrored.link (h : g.Mirrored) (hp : p < g.nodes.length) (hc : c < g.nodes.length) :
    (g.link p c).Mirrored := by
  by_cases hmem : c ∈ g.children p
  · rwa [link_of_mem hmem]
  · have hmem' : p ∉ g.parents c := fun hpc => hmem ((h.mem_children p c).mpr hpc)
    constructor
    · intro i j
      rw [children_link hp hmem, parents_link hc hmem, mem_update_push, mem_update_push,
        h.mem_children i j, and_comm]
    · intro i
      rw [children_link hp hmem]
      exact nodup_update_push h.children_nodup hmem
    · intro i
      rw [parents_link hc hmem]
      exact nodup_update_push h.parents_nodup hmem'

/-! ## Appending the nodes of another graph -/

theorem children_appendNodes (g other : TransactionGraph) (i : Nat) :
    (g.appendNodes other).children i = if i < g.nodes.length then g.children i
      else (other.children (i - g.nodes.length)).map (g.nodes.length + ·) := by
  unfold children appendNodes
  split
  · rw [List.getElem?_append_left ‹_›]
  · rw [List.getElem?_append_right (Nat.le_of_not_lt ‹_›), List.getElem?_map]
    cases other.nodes[i - g.nodes.length]? <;> rfl

theorem parents_appendNodes (g other : TransactionGraph) (i : Nat) :
    (g.appendNodes other).parents i = if i < g.nodes.length then g.parents i
      else (other.parents (i - g.nodes.length)).map (g.nodes.length + ·) := by
  unfold parents appendNodes
  split
  · rw [List.getElem?_append_left ‹_›]
  · rw [List.getElem?_append_right (Nat.le_of_not_lt ‹_›), List.getElem?_map]
    cases other.nodes[i - g.nodes.length]? <;> rfl

theorem mem_map_add {k : Nat} {l : List Nat} : j ∈ l.map (k + ·) ↔ k ≤ j ∧ j - k ∈ l := by
  constructor
  · intro h
    obtain ⟨i, hi, rfl⟩ := List.mem_map.mp h
    exact ⟨Nat.le_add_right k i, by rwa [Nat.add_sub_cancel_left]⟩
  · rintro ⟨hk, h⟩
    exact List.mem_map.mpr ⟨j - k, h, Nat.add_sub_of_le hk⟩

theorem nodup_map_add {k : Nat} {l : List Nat} (h : l.Nodup) : (l.map (k + ·)).Nodup :=
  h.map fun _ _ => Nat.add_left_cancel

theorem Mirrored.appendNodes (h : g.Mirrored) (ho : other.Mirrored) :
    (g.appendNodes other).Mirrored := by
  constructor
  · intro p c
    rw [children_appendNodes, parents_appendNodes]
    split <;> split <;> rename_i hp hc
    · exact h.mem_children p c
    · refine iff_of_false (fun hm => hc (h.child_lt hm)) fun hm => ?_
      exact absurd (mem_map_add.mp hm).1 (Nat.not_le_of_lt hp)
    · refine iff_of_false (fun hm => ?_) fun hm => hp (h.parent_lt hm)
      exact absurd (mem_map_add.mp hm).1 (Nat.not_le_of_lt hc)
    · rw [mem_map_add, mem_map_add, ho.mem_children]
      exact and_congr_left' (iff_of_true (Nat.le_of_not_lt hc) (Nat.le_of_not_lt hp))
  · intro i
    rw [children_appendNodes]
    split
    · exact h.children_nodup i
    · exact nodup_map_add (ho.children_nodup _)
  · intro i
    rw [parents_appendNodes]
    split
    · exact h.parents_nodup i
    · exact nodup_map_add (ho.parents_nodup _)

theorem Indexes.insert (h : Indexes table ids) (hnew : txId ∉ ids) :
    Indexes (table.insert txId ids.length) (ids ++ [txId]) := by
  intro txId' i
  by_cases ht : txId' = txId
  · subst ht
    rw [Finmap.lookup_insert, List.getElem?_append]
    split
    · rename_i hi
      refine iff_of_false (fun he => ?_) fun he => hnew (List.mem_of_getElem? he)
      exact absurd (Option.some.inj he) (Nat.ne_of_gt hi)
    · rename_i hi
      rw [List.getElem?_singleton]
      split
      · rename_i h0
        exact iff_of_true (congrArg some (by omega)) rfl
      · rename_i h0
        refine iff_of_false (fun he => h0 ?_) (by simp)
        rw [Option.some.inj he, Nat.sub_self]
  · rw [Finmap.lookup_insert_of_ne _ ht, h txId' i, List.getElem?_append]
    split
    · exact Iff.rfl
    · rename_i hi
      rw [List.getElem?_eq_none (Nat.le_of_not_lt hi), List.getElem?_singleton]
      refine iff_of_false (by simp) ?_
      split
      · exact fun he => ht (Option.some.inj he).symm
      · simp

theorem Indexes.foldl (nodes : List TransactionNode) (h : Indexes table ids)
    (hnodup : (ids ++ nodes.map transactionId).Nodup) :
    Indexes (nodes.foldl (fun (p : HashMap TransactionId Nat × Nat) node =>
      (p.1.insert node.transactionId p.2, p.2 + 1)) (table, ids.length)).1
      (ids ++ nodes.map transactionId) := by
  induction nodes generalizing table ids with
  | nil => simpa using h
  | cons node nodes ih =>
    rw [List.map_cons, List.append_cons] at hnodup ⊢
    have hnew : node.transactionId ∉ ids := by
      have hn := (List.nodup_append.mp hnodup).1
      exact fun hm => (List.nodup_append.mp hn).2.2 _ hm _ (List.mem_singleton_self _) rfl
    have hlen : (ids ++ [node.transactionId]).length = ids.length + 1 := by simp
    have := ih (h.insert hnew) hnodup
    rwa [hlen] at this

/-! ## The tables -/

section

variable (h : Tables g txs Link)

include h

theorem Tables.length_eq : txs.length = g.nodes.length := by
  rw [← h.nodes, List.length_map]

theorem Tables.ids_length :
    (txs.map transactionId).length = g.nodes.length := by
  rw [List.length_map, h.length_eq]

theorem Tables.congr (hnodes : g'.nodes = g.nodes) (hindex : g'.idToIndex = g.idToIndex)
    (hlink : ∀ p c, Link p c ↔ Link' p c) :
    Tables g' txs Link' := by
  have hch : g'.children = g.children := by funext i; simp only [children, hnodes]
  have hpa : g'.parents = g.parents := by funext i; simp only [parents, hnodes]
  refine ⟨hnodes ▸ h.nodes, hindex ▸ h.index, ⟨?_, ?_, ?_⟩, ?_⟩
  · rw [hch, hpa]
    exact h.mirrored.mem_children
  · rw [hch]
    exact h.mirrored.children_nodup
  · rw [hpa]
    exact h.mirrored.parents_nodup
  · intro p c
    simp only [hch, h.links p c, hlink]

theorem Tables.getNode (hmem : node ∈ txs) :
    ∃ n, g.getNode node.transactionId = some n ∧ n.fresh = node := by
  obtain ⟨i, hi⟩ := List.mem_iff_getElem?.mp hmem
  have hidx : g.idToIndex.lookup node.transactionId = some i := by
    rw [h.index, List.getElem?_map, hi]
    rfl
  rw [← h.nodes, List.getElem?_map] at hi
  obtain ⟨n, hn, hf⟩ := Option.map_eq_some_iff.mp hi
  exact ⟨n, by simp [TransactionGraph.getNode, hidx, hn], hf⟩

theorem Tables.indexOf (hmem : txId ∈ txs.map transactionId) (kind : String) :
    ∃ i, g.indexOf kind txId = .ok i ∧ (txs.map transactionId)[i]? = some txId := by
  obtain ⟨i, hi⟩ := List.mem_iff_getElem?.mp hmem
  refine ⟨i, ?_, hi⟩
  unfold TransactionGraph.indexOf
  rw [(h.index txId i).mpr hi]

end

theorem link_keeps (g : TransactionGraph) (p c : Nat) :
    (g.link p c).nodes.map TransactionNode.fresh = g.nodes.map TransactionNode.fresh ∧
      (g.link p c).idToIndex = g.idToIndex ∧ (g.link p c).headTxns = g.headTxns ∧
      (g.link p c).tailTxns = g.tailTxns := by
  unfold link
  split
  · exact ⟨rfl, rfl, rfl, rfl⟩
  · refine ⟨List.ext_getElem? fun i => ?_, rfl, rfl, rfl⟩
    cases hn : g.nodes[i]? <;> by_cases hp : p = i <;> by_cases hc : c = i <;>
      simp [hn, hp, hc, TransactionNode.fresh]

theorem Tables.link (h : Tables g txs Link) (hnodup : (txs.map transactionId).Nodup)
    (hp : (txs.map transactionId)[p]? = some pid) (hc : (txs.map transactionId)[c]? = some cid) :
    Tables (g.link p c) txs fun a b => Link a b ∨ (a = pid ∧ b = cid) := by
  have hp' : p < g.nodes.length := h.ids_length ▸ (List.getElem?_eq_some_iff.mp hp).1
  have hc' : c < g.nodes.length := h.ids_length ▸ (List.getElem?_eq_some_iff.mp hc).1
  obtain ⟨hnodes, hindex, -, -⟩ := link_keeps g p c
  have hchildren : ∀ i j, j ∈ (g.link p c).children i ↔ j ∈ g.children i ∨ (i = p ∧ j = c) := by
    intro i j
    by_cases hmem : c ∈ g.children p
    · rw [link_of_mem hmem]
      exact ⟨.inl, Or.rec id fun hij => hij.1 ▸ hij.2 ▸ hmem⟩
    · rw [children_link hp' hmem, mem_update_push]
  refine ⟨hnodes.trans h.nodes, hindex ▸ h.index, h.mirrored.link hp' hc', fun i j => ?_⟩
  rw [hchildren, h.links]
  constructor
  · rintro (⟨a, b, ha, hb, hl⟩ | ⟨rfl, rfl⟩)
    · exact ⟨a, b, ha, hb, .inl hl⟩
    · exact ⟨pid, cid, hp, hc, .inr ⟨rfl, rfl⟩⟩
  · rintro ⟨a, b, ha, hb, hl | ⟨rfl, rfl⟩⟩
    · exact .inl ⟨a, b, ha, hb, hl⟩
    · exact .inr ⟨hnodup.getElem?_unique ha hp, hnodup.getElem?_unique hb hc⟩

theorem Tables.addEdge (h : Tables g txs Link) (hnodup : (txs.map transactionId).Nodup)
    (hp : pid ∈ txs.map transactionId) (hc : cid ∈ txs.map transactionId) :
    ∃ g', g.addEdge pid cid = (g', .ok ()) ∧
      (Tables g' txs fun a b => Link a b ∨ (a = pid ∧ b = cid)) ∧
      g'.headTxns = g.headTxns ∧ g'.tailTxns = g.tailTxns := by
  obtain ⟨p, hpi, hp⟩ := h.indexOf hp "Parent"
  obtain ⟨c, hci, hc⟩ := h.indexOf hc "Child"
  refine ⟨g.link p c, ?_, h.link hnodup hp hc, (link_keeps g p c).2.2⟩
  unfold TransactionGraph.addEdge
  rw [hpi, hci]

theorem Tables.addEdges (cid : TransactionId) (parents : List TransactionId)
    (h : Tables g txs Link) (hnodup : (txs.map transactionId).Nodup)
    (hp : ∀ pid ∈ parents, pid ∈ txs.map transactionId) (hc : cid ∈ txs.map transactionId) :
    ∃ g', g.addEdges cid parents = (g', .ok ()) ∧
      (Tables g' txs fun a b => Link a b ∨ (a ∈ parents ∧ b = cid)) ∧
      g'.headTxns = g.headTxns ∧ g'.tailTxns = g.tailTxns := by
  induction parents generalizing g Link with
  | nil => exact ⟨g, rfl, h.congr rfl rfl (by simp), rfl, rfl⟩
  | cons pid rest ih =>
    obtain ⟨g1, he, h1, hh, ht⟩ := h.addEdge hnodup (hp pid List.mem_cons_self) hc
    obtain ⟨g2, he', h2, hh', ht'⟩ := ih h1 fun pid' hm => hp pid' (List.mem_cons_of_mem pid hm)
    refine ⟨g2, ?_, h2.congr rfl rfl fun a b => ?_, hh'.trans hh, ht'.trans ht⟩
    · simp only [TransactionGraph.addEdges, he, he']
    · rw [List.mem_cons, or_and_right, or_assoc]

theorem Tables.appendNodes (h : Tables g txs Link) (ho : Tables other txs' Link')
    (hlink : ∀ p c, Link p c → p ∈ txs.map transactionId ∧ c ∈ txs.map transactionId)
    (hlink' : ∀ p c, Link' p c → p ∈ txs'.map transactionId ∧ c ∈ txs'.map transactionId)
    (hnodup : ((txs ++ txs').map transactionId).Nodup) :
    Tables (g.appendNodes other) (txs ++ txs') fun p c => Link p c ∨ Link' p c := by
  have hlen := h.ids_length
  rw [List.map_append] at hnodup
  have hleft : ∀ {i : Nat} {txId : TransactionId}, (txs.map transactionId)[i]? = some txId →
      (txs.map transactionId ++ txs'.map transactionId)[i]? = some txId := by
    intro i txId hi
    rwa [List.getElem?_append_left (List.getElem?_eq_some_iff.mp hi).1]
  have hright : ∀ {i : Nat} {txId : TransactionId}, (txs'.map transactionId)[i]? = some txId →
      (txs.map transactionId ++ txs'.map transactionId)[g.nodes.length + i]? = some txId := by
    intro i txId hi
    rwa [← hlen, List.getElem?_append_right (Nat.le_add_right _ _), Nat.add_sub_cancel_left]
  refine ⟨?_, ?_, h.mirrored.appendNodes ho.mirrored, fun p c => ?_⟩
  · rw [← h.nodes, ← ho.nodes, TransactionGraph.appendNodes, List.map_append, List.map_map]
    rfl
  · have hids : other.nodes.map transactionId = txs'.map transactionId := by
      rw [← ho.nodes, List.map_map]
      rfl
    have hind := Indexes.foldl other.nodes h.index (by rwa [hids])
    rw [hids, hlen] at hind
    rw [List.map_append]
    exact hind
  · rw [List.map_append]
    constructor
    · intro hm
      rw [children_appendNodes] at hm
      split at hm
      · obtain ⟨pid, cid, hp, hc, hl⟩ := (h.links p c).mp hm
        exact ⟨pid, cid, hleft hp, hleft hc, .inl hl⟩
      · rename_i hge
        obtain ⟨c', hm', rfl⟩ := List.mem_map.mp hm
        obtain ⟨pid, cid, hp, hc, hl⟩ := (ho.links _ c').mp hm'
        have hp' := hright hp
        rw [Nat.add_sub_of_le (Nat.le_of_not_lt hge)] at hp'
        exact ⟨pid, cid, hp', hright hc, .inr hl⟩
    · rintro ⟨pid, cid, hp, hc, hl | hl⟩
      · obtain ⟨p', hp'⟩ := List.mem_iff_getElem?.mp (hlink pid cid hl).1
        obtain ⟨c', hc'⟩ := List.mem_iff_getElem?.mp (hlink pid cid hl).2
        cases hnodup.getElem?_unique hp (hleft hp')
        cases hnodup.getElem?_unique hc (hleft hc')
        have hm := (h.links p c).mpr ⟨pid, cid, hp', hc', hl⟩
        rwa [children_appendNodes, if_pos (lt_of_mem_children hm)]
      · obtain ⟨p', hp'⟩ := List.mem_iff_getElem?.mp (hlink' pid cid hl).1
        obtain ⟨c', hc'⟩ := List.mem_iff_getElem?.mp (hlink' pid cid hl).2
        cases hnodup.getElem?_unique hp (hright hp')
        cases hnodup.getElem?_unique hc (hright hc')
        have hm := (ho.links p' c').mpr ⟨pid, cid, hp', hc', hl⟩
        rw [children_appendNodes, if_neg (Nat.not_lt.mpr (Nat.le_add_right _ _)),
          Nat.add_sub_cancel_left]
        exact List.mem_map_of_mem hm

/-! ## Adding a transaction -/

theorem mem_parentTransactions {order : HashOrder} : txId ∈ g.parentTransactions order node ↔
      ∃ addr ∈ node.addresses, g.conflictingTail node addr = some txId := by
  have hfold : ∀ (l : List Key) (parents : Finset TransactionId),
      txId ∈ l.foldl (fun parents addr =>
        (g.conflictingTail node addr).elim parents (insert · parents)) parents ↔
      txId ∈ parents ∨ ∃ addr ∈ l, g.conflictingTail node addr = some txId := by
    intro l
    induction l with
    | nil => simp
    | cons addr l ih =>
      intro parents
      rw [List.foldl_cons, ih]
      cases hc : g.conflictingTail node addr with
      | none => simp [hc]
      | some txId' => simp [hc, or_assoc, or_left_comm, eq_comm]
  unfold parentTransactions
  rw [hfold]
  simp

theorem Tables.conflictingTail (h : Tables g txs Link) (hsub : ∀ node ∈ b.txs, node ∈ txs)
    (htails : ∀ addr, g.tailTxns.lookup addr = (b.tail addr).map transactionId) :
    g.conflictingTail node addr = some txId ↔
      ∃ tail, b.tail addr = some tail ∧ tail.Conflicts node ∧ txId = tail.transactionId := by
  unfold TransactionGraph.conflictingTail
  rw [htails]
  cases ht : b.tail addr with
  | none => simp
  | some tail =>
    obtain ⟨n, hn, hf⟩ := h.getNode (hsub tail (BlockGraph.tail_mem ht).1)
    have hw : n.writeSet = tail.writeSet := by rw [← hf]; rfl
    simp only [Option.map_some, Option.bind_eq_bind, Option.bind_some, hn, hw]
    cases hd : sortedIsDisjoint tail.writeSet.keys node.writeSet.keys with
    | false => simp [sortedIsDisjoint_eq_false.mp hd, eq_comm]
    | true =>
      have hno : ¬ tail.Conflicts node := by
        rw [← sortedIsDisjoint_eq_false, hd]
        simp
      simp [hno]

theorem foldl_touch (txId : TransactionId) (l : List Key) (g : TransactionGraph) :
    (l.foldl (touch txId) g).nodes = g.nodes ∧ (l.foldl (touch txId) g).idToIndex = g.idToIndex ∧
      (∀ addr, (l.foldl (touch txId) g).headTxns.lookup addr =
        (g.headTxns.lookup addr).or (if addr ∈ l then some txId else none)) ∧
      ∀ addr, (l.foldl (touch txId) g).tailTxns.lookup addr =
        (if addr ∈ l then some txId else none).or (g.tailTxns.lookup addr) := by
  induction l generalizing g with
  | nil => simp
  | cons key l ih =>
    obtain ⟨hnodes, hindex, hheads, htails⟩ := ih (touch txId g key)
    refine ⟨hnodes, hindex, fun addr => ?_, fun addr => ?_⟩
    · rw [List.foldl_cons, hheads, touch]
      by_cases hk : addr = key
      · subst hk
        cases hl : g.headTxns.lookup addr with
        | none =>
          have hn : addr ∉ g.headTxns := Finmap.lookup_eq_none.mp hl
          simp [hn]
        | some id =>
          have hs : addr ∈ g.headTxns := Finmap.mem_iff.mpr ⟨id, hl⟩
          simp [hs, hl]
      · by_cases hs : key ∈ g.headTxns
        · simp [hs, hk]
        · simp [hs, hk, Finmap.lookup_insert_of_ne]
    · rw [List.foldl_cons, htails, touch]
      by_cases hk : addr = key
      · subst hk
        by_cases hl : addr ∈ l <;> simp [hl]
      · simp [hk, Finmap.lookup_insert_of_ne]

theorem Tables.single (hnode : node.Unlinked) :
    Tables (new.addNode node).1 [node.fresh] fun _ _ => False := by
  have hch : ∀ i, (new.addNode node).1.children i = [] := by
    rintro (_ | i)
    · exact hnode.1
    · rfl
  have hpa : ∀ i, (new.addNode node).1.parents i = [] := by
    rintro (_ | i)
    · exact hnode.2
    · rfl
  refine ⟨rfl, ?_, ⟨?_, ?_, ?_⟩, ?_⟩
  · have hempty : Indexes new.idToIndex [] := by
      intro txId i
      simp [new]
    exact hempty.insert List.not_mem_nil
  · simp [hch, hpa]
  · simp [hch]
  · simp [hpa]
  · simp [hch]

theorem addNode_eq_appendNodes (g : TransactionGraph) (hnode : node.Unlinked) :
    (g.addNode node).1 = g.appendNodes (new.addNode node).1 := by
  obtain ⟨id, replica, gasCost, readSet, writeSet, longestSuffix, children, parents⟩ := node
  obtain ⟨rfl, rfl⟩ := hnode
  rfl

theorem Represents.addUnlinked (h : g.Represents b) (order : HashOrder) (hnode : node.Unlinked)
    (hnew : node.transactionId ∉ b.ids) :
    ∃ g', g.addTransaction order node = (g', .ok g.nodes.length) ∧
      g'.Represents (b.add node hnew) := by
  have hnot : node.transactionId ∉ g.idToIndex := by
    intro hm
    obtain ⟨i, hi⟩ := Finmap.mem_iff.mp hm
    exact hnew (List.mem_of_getElem? ((h.index _ i).mp hi))
  have h1 : Tables (g.addNode node).1 (b.txs ++ [node.fresh]) fun p c => b.Link p c ∨ False := by
    rw [addNode_eq_appendNodes g hnode]
    exact h.appendNodes (Tables.single hnode) (fun _ _ => BlockGraph.mem_ids) (by simp)
      (b.add node hnew).nodup
  have hparent : ∀ txId, txId ∈ order.ids.toList ((g.addNode node).1.parentTransactions
      order node) ↔ ∃ addr ∈ node.addresses, ∃ tail, b.tail addr = some tail ∧
        tail.Conflicts node ∧ txId = tail.transactionId := by
    intro txId
    rw [order.ids.mem_toList, mem_parentTransactions]
    refine exists_congr fun addr => and_congr_right fun _ => ?_
    exact h1.conflictingTail (fun _ => List.mem_append_left _) h.tails
  obtain ⟨g2, he, h2, hh, ht⟩ := h1.addEdges node.transactionId
    (order.ids.toList ((g.addNode node).1.parentTransactions order node))
    (b.add node hnew).nodup
    (fun pid hm => by
      obtain ⟨addr, -, tail, ht, -, rfl⟩ := (hparent pid).mp hm
      rw [List.map_append]
      exact List.mem_append_left _ (List.mem_map_of_mem (BlockGraph.tail_mem ht).1))
    (by simp)
  obtain ⟨hnodes, hindex, hheads, htails⟩ := foldl_touch node.transactionId
    (order.keys.toList node.addresses) g2
  refine ⟨(order.keys.toList node.addresses).foldl (touch node.transactionId) g2, ?_,
    h2.congr hnodes hindex fun p c => ?_, fun addr => ?_, fun addr => ?_⟩
  · unfold addTransaction
    rw [if_neg hnot]
    simp only [he]
    rfl
  · rw [hparent, or_false]
    refine or_congr_right ?_
    rw [show (BlockGraph.single node).Link p c = False from rfl, false_or]
    constructor
    · rintro ⟨⟨addr, hm, tail, ht, hc, rfl⟩, rfl⟩
      exact ⟨addr, tail, node.fresh, ht, BlockGraph.head_single.mpr ⟨hm, rfl⟩, hc, rfl, rfl⟩
    · rintro ⟨addr, tail, head, ht, hhead, hc, rfl, rfl⟩
      obtain ⟨hm, rfl⟩ := BlockGraph.head_single.mp hhead
      exact ⟨⟨addr, hm, tail, ht, hc, rfl⟩, rfl⟩
  · rw [hheads, hh, BlockGraph.map_head_add, ← h.heads]
    simp only [order.keys.mem_toList]
    rfl
  · rw [htails, ht, BlockGraph.map_tail_add, ← h.tails]
    simp only [order.keys.mem_toList]
    rfl

theorem Represents.add (h : g.Represents b) (order : HashOrder)
    (hnew : node.transactionId ∉ b.ids) :
    ∃ g', g.addTransaction order node.fresh = (g', .ok g.nodes.length) ∧
      g'.Represents (b.add node hnew) :=
  have hlinks : node.fresh.Unlinked := ⟨rfl, rfl⟩
  h.addUnlinked order hlinks hnew

/-! ## Merging two graphs -/

def LinkAt (b bo : BlockGraph) (addr : Key) (p c : TransactionId) : Prop :=
  ∃ tail head, b.tail addr = some tail ∧ bo.head addr = some head ∧
    p = tail.transactionId ∧ c = head.transactionId

structure Connecting (b bo : BlockGraph) (g : TransactionGraph) (rest : List Key) : Prop where
  tables : Tables g (b.txs ++ bo.txs) fun p c =>
    (b.Link p c ∨ bo.Link p c) ∨ ∃ addr, addr ∉ rest ∧ LinkAt b bo addr p c
  heads : ∀ addr, g.headTxns.lookup addr =
    (if addr ∈ rest then b.head addr else (b.head addr).or (bo.head addr)).map transactionId
  tails : ∀ addr, g.tailTxns.lookup addr =
    (if addr ∈ rest then b.tail addr else (bo.tail addr).or (b.tail addr)).map transactionId

theorem takeTail_keeps (g other : TransactionGraph) (addr : Key) :
    (g.takeTail other addr).nodes = g.nodes ∧ (g.takeTail other addr).idToIndex = g.idToIndex ∧
      (g.takeTail other addr).headTxns = g.headTxns := by
  unfold takeTail
  split <;> exact ⟨rfl, rfl, rfl⟩

theorem lookup_takeTail (g other : TransactionGraph) (addr addr' : Key) :
    (g.takeTail other addr).tailTxns.lookup addr' =
      if addr' = addr then (other.tailTxns.lookup addr).or (g.tailTxns.lookup addr)
      else g.tailTxns.lookup addr' := by
  unfold takeTail
  by_cases ha : addr' = addr
  · subst ha
    split <;> simp [*]
  · rw [if_neg ha]
    split
    · exact Finmap.lookup_insert_of_ne _ ha
    · rfl

theorem Tables.connect (h : Tables g txs Link) (hnodup : (txs.map transactionId).Nodup)
    (hp : pid ∈ txs.map transactionId) (hc : cid ∈ txs.map transactionId)
    (ht : g.tailTxns.lookup addr = some pid) (hh : other.headTxns.lookup addr = some cid)
    (edgesAdded : Nat) :
    ∃ g' edgesAdded', g.connect other addr edgesAdded =
        (g'.takeTail other addr, .ok edgesAdded') ∧
      (Tables g' txs fun a b => Link a b ∨ (a = pid ∧ b = cid)) ∧
      g'.headTxns = g.headTxns ∧ g'.tailTxns = g.tailTxns := by
  obtain ⟨p, hpi, hp'⟩ := h.indexOf hp "Parent"
  obtain ⟨c, hci, hc'⟩ := h.indexOf hc "Child"
  have hhas : g.hasEdge pid cid = .ok (decide (c ∈ g.children p)) := by
    unfold hasEdge
    rw [hpi, hci]
    rfl
  unfold TransactionGraph.connect
  simp only [ht, hh, hhas]
  by_cases hm : c ∈ g.children p
  · refine ⟨g, edgesAdded, by simp [hm], h.congr rfl rfl fun a b => ?_, rfl, rfl⟩
    obtain ⟨pid', cid', hp'', hc'', hl⟩ := (h.links p c).mp hm
    cases hp'.symm.trans hp''
    cases hc'.symm.trans hc''
    exact ⟨.inl, Or.rec id fun hab => hab.1 ▸ hab.2 ▸ hl⟩
  · obtain ⟨g', he, h', hkeys⟩ := h.addEdge hnodup hp hc
    exact ⟨g', edgesAdded + 1, by simp [hm, he], h', hkeys⟩

/-- One more key is connected: the tables of heads and tails change there only. -/
theorem Connecting.advance (h : Connecting b bo g (addr :: rest)) (haddr : addr ∉ rest)
    (htables : Tables g' (b.txs ++ bo.txs) fun p c => ((b.Link p c ∨ bo.Link p c) ∨
      ∃ a, a ∉ addr :: rest ∧ LinkAt b bo a p c) ∨ LinkAt b bo addr p c)
    (hheads : ∀ a, g'.headTxns.lookup a =
      if a = addr then ((b.head addr).or (bo.head addr)).map transactionId
      else g.headTxns.lookup a) (htails : ∀ a, g'.tailTxns.lookup a =
      if a = addr then ((bo.tail addr).or (b.tail addr)).map transactionId
      else g.tailTxns.lookup a) : Connecting b bo g' rest := by
  refine ⟨htables.congr rfl rfl fun p c => ?_, fun a => ?_, fun a => ?_⟩
  · rw [or_assoc]
    refine or_congr_right ⟨?_, ?_⟩
    · rintro (⟨a, ha, hl⟩ | hl)
      · exact ⟨a, fun hm => ha (List.mem_cons_of_mem addr hm), hl⟩
      · exact ⟨addr, haddr, hl⟩
    · rintro ⟨a, ha, hl⟩
      by_cases haa : a = addr
      · exact .inr (haa ▸ hl)
      · exact .inl ⟨a, by simp [haa, ha], hl⟩
  · rw [hheads a, h.heads a]
    by_cases ha : a = addr
    · subst ha
      simp [haddr]
    · simp [ha]
  · rw [htails a, h.tails a]
    by_cases ha : a = addr
    · subst ha
      simp [haddr]
    · simp [ha]

theorem Connecting.step (ho : other.Represents bo) (hdisj : b.ids.Disjoint bo.ids)
    (haddr : addr ∉ rest) (h : Connecting b bo g (addr :: rest)) (edgesAdded : Nat) :
    ∃ g' edgesAdded', g.connect other addr edgesAdded = (g', .ok edgesAdded') ∧
      Connecting b bo g' rest := by
  have htailSelf := h.tails addr
  have hheadSelf := h.heads addr
  rw [if_pos List.mem_cons_self] at htailSelf hheadSelf
  have hhead := ho.heads addr
  have htail := ho.tails addr
  cases hh : bo.head addr with
  | none =>
    have ht : bo.tail addr = none := BlockGraph.head_eq_none.mp hh
    rw [hh] at hhead
    refine ⟨g, edgesAdded, ?_, h.advance haddr ?_ ?_ ?_⟩
    · unfold TransactionGraph.connect
      rw [hhead]
      cases g.tailTxns.lookup addr <;> rfl
    · refine h.tables.congr rfl rfl fun p c => (or_iff_left ?_).symm
      rintro ⟨_, _, -, hn, -⟩
      cases hh.symm.trans hn
    · intro a
      split
      · rename_i ha
        rw [ha, hheadSelf, hh, Option.or_none]
      · rfl
    · intro a
      split
      · rename_i ha
        rw [ha, htailSelf, ht, Option.none_or]
      · rfl
  | some head =>
    rw [hh] at hhead
    cases ht : b.tail addr with
    | none =>
      have hb : b.head addr = none := BlockGraph.head_eq_none.mpr ht
      rw [ht] at htailSelf
      refine ⟨({ g with headTxns := g.headTxns.insert addr head.transactionId }).takeTail other
        addr, edgesAdded, ?_, h.advance haddr ?_ ?_ ?_⟩
      · unfold TransactionGraph.connect
        rw [hhead, htailSelf]
        rfl
      · obtain ⟨hnodes, hindex, -⟩ := takeTail_keeps
          { g with headTxns := g.headTxns.insert addr head.transactionId } other addr
        refine h.tables.congr hnodes hindex fun p c => (or_iff_left ?_).symm
        rintro ⟨_, _, hn, -⟩
        cases ht.symm.trans hn
      · intro a
        rw [(takeTail_keeps _ other addr).2.2]
        by_cases ha : a = addr
        · subst ha
          simp [hb, hh]
        · simp [ha, Finmap.lookup_insert_of_ne]
      · intro a
        rw [lookup_takeTail, htail]
        by_cases ha : a = addr <;> simp [ha, ht, htailSelf]
    | some tail =>
      rw [ht] at htailSelf
      have hnodup : ((b.txs ++ bo.txs).map transactionId).Nodup := (b.integrate bo hdisj).nodup
      have hmem : ∀ {node}, node ∈ b.txs ∨ node ∈ bo.txs →
          node.transactionId ∈ (b.txs ++ bo.txs).map transactionId :=
        fun hm => List.mem_map_of_mem (List.mem_append.mpr hm)
      obtain ⟨g1, k, he, h1, hk1, hk2⟩ := h.tables.connect hnodup
        (hmem (.inl (BlockGraph.tail_mem ht).1)) (hmem (.inr (BlockGraph.head_mem hh).1))
        htailSelf hhead edgesAdded
      obtain ⟨hnodes, hindex, hheads⟩ := takeTail_keeps g1 other addr
      obtain ⟨first, hfirst⟩ : ∃ first, b.head addr = some first := by
        refine Option.ne_none_iff_exists'.mp fun hn => ?_
        cases (BlockGraph.head_eq_none.mp hn).symm.trans ht
      refine ⟨g1.takeTail other addr, k, he, h.advance haddr ?_ ?_ ?_⟩
      · refine h1.congr hnodes hindex fun p c => or_congr_right ?_
        simp [LinkAt, ht, hh]
      · intro a
        rw [hheads, hk1]
        split
        · rename_i ha
          rw [ha, hheadSelf, hfirst, Option.some_or]
        · rfl
      · intro a
        rw [lookup_takeTail, htail, hk2]
        by_cases ha : a = addr <;> simp [ha, ht, htailSelf]

theorem Connecting.connectAll (ho : other.Represents bo) (hdisj : b.ids.Disjoint bo.ids)
    (rest : List Key) (hrest : rest.Nodup) (h : Connecting b bo g rest) (edgesAdded : Nat) :
    ∃ g' edgesAdded', g.connectAll other edgesAdded rest = (g', .ok edgesAdded') ∧
      Connecting b bo g' [] := by
  induction rest generalizing g edgesAdded with
  | nil => exact ⟨g, edgesAdded, rfl, h⟩
  | cons addr rest ih =>
    obtain ⟨haddr, hrest'⟩ := List.nodup_cons.mp hrest
    obtain ⟨g1, k1, he1, h1⟩ := h.step ho hdisj haddr edgesAdded
    obtain ⟨g2, k2, he2, h2⟩ := ih hrest' h1 k1
    exact ⟨g2, k2, by simp only [TransactionGraph.connectAll, he1, he2], h2⟩

theorem Represents.integrate (h : g.Represents b) (ho : other.Represents bo) (order : HashOrder)
    (hdisj : b.ids.Disjoint bo.ids) :
    ∃ g' edgesAdded, g.integrateGraph order other = (g', .ok edgesAdded) ∧
      g'.Represents (b.integrate bo hdisj) := by
  let all := order.keys.toList
    (g.headTxns.keys ∪ g.tailTxns.keys ∪ other.headTxns.keys ∪ other.tailTxns.keys)
  -- A key that is in none of the tables is touched by no transaction.
  have hnone : ∀ {addr}, addr ∉ all → b.head addr = none ∧ b.tail addr = none ∧
      bo.head addr = none ∧ bo.tail addr = none := by
    intro addr ha
    simp only [all, order.keys.mem_toList, Finset.mem_union, Finmap.mem_keys, not_or] at ha
    obtain ⟨⟨⟨h1, h2⟩, h3⟩, h4⟩ := ha
    rw [← Finmap.lookup_eq_none] at h1 h2 h3 h4
    rw [h.heads, Option.map_eq_none_iff] at h1
    rw [h.tails, Option.map_eq_none_iff] at h2
    rw [ho.heads, Option.map_eq_none_iff] at h3
    rw [ho.tails, Option.map_eq_none_iff] at h4
    exact ⟨h1, h2, h3, h4⟩
  have h0 : Connecting b bo (g.appendNodes other) all := by
    refine ⟨?_, fun addr => ?_, fun addr => ?_⟩
    · refine (h.appendNodes ho.toTables (fun _ _ => BlockGraph.mem_ids)
        (fun _ _ => BlockGraph.mem_ids) (b.integrate bo hdisj).nodup).congr rfl rfl fun p c =>
        (or_iff_left ?_).symm
      rintro ⟨addr, ha, tail, -, ht, -⟩
      cases (hnone ha).2.1.symm.trans ht
    · refine (h.heads addr).trans ?_
      by_cases ha : addr ∈ all
      · rw [if_pos ha]
      · simp [ha, hnone ha]
    · refine (h.tails addr).trans ?_
      by_cases ha : addr ∈ all
      · rw [if_pos ha]
      · simp [ha, hnone ha]
  obtain ⟨g', k, he, h1⟩ := h0.connectAll ho hdisj all (order.keys.nodup_toList _) 0
  refine ⟨g', k, he, h1.tables.congr rfl rfl fun p c => ?_, fun addr => ?_, fun addr => ?_⟩
  · simp [BlockGraph.integrate, BlockGraph.append, BlockGraph.CrossLink, LinkAt, or_assoc]
  · rw [h1.heads, if_neg List.not_mem_nil, BlockGraph.integrate, BlockGraph.head_append]
  · rw [h1.tails, if_neg List.not_mem_nil, BlockGraph.integrate, BlockGraph.tail_append]

/-! ## Graphs built by the calls -/

theorem Represents.new : new.Represents .empty where
  nodes := rfl
  index := by intro txId i; simp [TransactionGraph.new, BlockGraph.empty]
  mirrored := by
    constructor <;> intros <;> simp [children, parents, TransactionGraph.new]
  links := by simp [children, TransactionGraph.new, BlockGraph.empty]
  heads := by simp [TransactionGraph.new, BlockGraph.head, BlockGraph.empty, touching]
  tails := by simp [TransactionGraph.new, BlockGraph.tail, BlockGraph.empty, touching]

theorem Builds.represents (h : g.Builds b) : g.Represents b := by
  induction h with
  | new => exact .new
  | add order node hnew _ ih =>
    obtain ⟨g', he, h'⟩ := ih.add order hnew
    rwa [he]
  | integrate order hdisj _ _ ih iho =>
    obtain ⟨g', k, he, h'⟩ := ih.integrate iho order hdisj
    rwa [he]

theorem Represents.path_iff (h : g.Represents b) (hi : b.ids[i]? = some pid)
    (hj : b.ids[j]? = some cid) :
    TransGen (fun parent child => child ∈ g.children parent) i j ↔ TransGen b.Link pid cid := by
  constructor
  · intro hpath
    induction hpath generalizing cid with
    | single he =>
      obtain ⟨pid', cid', hi', hj', hl⟩ := (h.links _ _).mp he
      cases hi.symm.trans hi'
      cases hj.symm.trans hj'
      exact .single hl
    | tail _ he ih =>
      obtain ⟨mid, cid', hm, hj', hl⟩ := (h.links _ _).mp he
      cases hj.symm.trans hj'
      exact (ih hm).tail hl
  · intro hpath
    induction hpath generalizing j with
    | single hl => exact .single ((h.links i j).mpr ⟨pid, _, hi, hj, hl⟩)
    | tail _ hl ih =>
      obtain ⟨k, hk⟩ := List.mem_iff_getElem?.mp (BlockGraph.mem_ids hl).1
      exact (ih hk).tail ((h.links k j).mpr ⟨_, _, hk, hj, hl⟩)

theorem Represents.ids_eq (h : g.Represents b) : g.ids = b.ids := by
  rw [BlockGraph.ids, ← h.nodes, List.map_map]
  rfl

theorem Represents.getElem?_ids (h : g.Represents b) (hi : g.nodes[i]? = some node) :
    b.ids[i]? = some node.transactionId := by
  rw [BlockGraph.ids, ← h.nodes, List.map_map, List.getElem?_map, hi]
  rfl

theorem Represents.getElem?_txs (h : g.Represents b) :
    b.txs[i]? = some node ↔ ∃ n, g.nodes[i]? = some n ∧ n.fresh = node := by
  rw [← h.nodes, List.getElem?_map, Option.map_eq_some_iff]

/-! ## What the calls leave alone -/

def simulationState (g : TransactionGraph) : List HeapEntry × Option SimulationResult :=
  (g.txnsWithoutParent, g.simulationResult)

theorem simulationState_link (g : TransactionGraph) (p c : Nat) :
    (g.link p c).simulationState = g.simulationState := by
  unfold link
  split <;> rfl

theorem simulationState_addEdge (g : TransactionGraph) (pid cid : TransactionId) :
    (g.addEdge pid cid).1.simulationState = g.simulationState := by
  unfold TransactionGraph.addEdge
  split
  · rfl
  · rfl
  · exact simulationState_link ..

theorem simulationState_addEdges (g : TransactionGraph) (cid : TransactionId)
    (parents : List TransactionId) :
    (g.addEdges cid parents).1.simulationState = g.simulationState := by
  induction parents generalizing g with
  | nil => rfl
  | cons pid rest ih =>
    have he := simulationState_addEdge g pid cid
    unfold TransactionGraph.addEdges
    split <;> rename_i g' heq <;> rw [heq] at he
    · exact (ih g').trans he
    · exact he

theorem simulationState_addTransaction (order : HashOrder) (g : TransactionGraph)
    (node : TransactionNode) :
    (g.addTransaction order node).1.simulationState = g.simulationState := by
  have htouch : ∀ (l : List Key) (g' : TransactionGraph),
      (l.foldl (touch node.transactionId) g').simulationState = g'.simulationState := by
    intro l
    induction l with
    | nil => exact fun _ => rfl
    | cons key l ih => exact fun g' => ih _
  unfold addTransaction
  by_cases hmem : node.transactionId ∈ g.idToIndex
  · rw [if_pos hmem]
  · have he := simulationState_addEdges (g.addNode node).1 node.transactionId
      (order.ids.toList ((g.addNode node).1.parentTransactions order node))
    rw [if_neg hmem]
    simp only
    split <;> rename_i g' heq <;> rw [heq] at he
    · exact he
    · exact (htouch _ g').trans he

theorem simulationState_connectAll (g other : TransactionGraph) (l : List Key) (edgesAdded : Nat) :
    (g.connectAll other edgesAdded l).1.simulationState = g.simulationState := by
  have htake : ∀ (g' : TransactionGraph) addr,
      (g'.takeTail other addr).simulationState = g'.simulationState := by
    intro g' addr
    unfold takeTail
    split <;> rfl
  have hconnect : ∀ (g' : TransactionGraph) addr k,
      (g'.connect other addr k).1.simulationState = g'.simulationState := by
    intro g' addr k
    unfold TransactionGraph.connect
    split
    · rename_i tailTxId headTxId _ _
      have he := simulationState_addEdge g' tailTxId headTxId
      split
      · split <;> rename_i g'' heq <;> rw [heq] at he
        · exact (htake g'' addr).trans he
        · exact he
      · exact htake g' addr
    · exact htake _ addr
    · rfl
  induction l generalizing g edgesAdded with
  | nil => rfl
  | cons addr l ih =>
    have he := hconnect g addr edgesAdded
    unfold connectAll
    split <;> rename_i g' _ heq <;> rw [heq] at he
    · exact (ih g' _).trans he
    · exact he

theorem simulationState_integrateGraph (order : HashOrder) (g other : TransactionGraph) :
    (g.integrateGraph order other).1.simulationState = g.simulationState :=
  simulationState_connectAll (g.appendNodes other) other _ 0

theorem Builds.simulationState (h : g.Builds b) : g.simulationState = ([], none) := by
  induction h with
  | new => rfl
  | add order node hnew _ ih => exact (simulationState_addTransaction ..).trans ih
  | integrate order hdisj _ _ ih _ => exact (simulationState_integrateGraph ..).trans ih

theorem Represents.forward (h : g.Represents b) : g.Forward := by
  intro p c hc
  obtain ⟨pid, cid, hp, hc, hl⟩ := (h.links p c).mp hc
  obtain ⟨i, j, hij, hi, hj⟩ := List.pair_sublist_iff_getElem?.mp (b.ordered pid cid hl)
  cases b.nodup.getElem?_unique hp hi
  cases b.nodup.getElem?_unique hc hj
  exact hij

end TransactionGraph

/-! ## Two writers of one key -/

theorem pairwise_nil : ([] : List Nat).Pairwise (· < ·) := .nil

def KeySet.empty : KeySet := ⟨[], pairwise_nil⟩

def KeySet.singleton (key : Nat) : KeySet := ⟨[key], List.pairwise_singleton _ _⟩

def writer (id : Nat) : TransactionNode := .new id 0 1 .empty (.singleton 7)

def pairGraph : TransactionGraph :=
  let order : HashOrder := ⟨.sorted, .sorted⟩
  ((TransactionGraph.new.addTransaction order (writer 0)).1.addTransaction order (writer 1)).1

def pairBlockGraph : BlockGraph :=
  (BlockGraph.empty.add (writer 0) (by decide)).add (writer 1) (by decide)

theorem pairGraph_builds : pairGraph.Builds pairBlockGraph := by
  have h := TransactionGraph.Builds.add ⟨.sorted, .sorted⟩ (writer 0) (by decide) .new
  exact h.add ⟨.sorted, .sorted⟩ (writer 1) (by decide)

theorem pairGraph_represents : pairGraph.Represents pairBlockGraph :=
  pairGraph_builds.represents

end CongestionControl.Pevm
