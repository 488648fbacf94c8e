import CongestionControl.Pevm.GreedyIntegrator
import CongestionControl.Pevm.Proofs.SimulationProofs

/-!
# Proofs: the greedy integration loses, duplicates and misaligns nothing

Whatever the comparisons say, a group is represented by the merge of the block graphs of its members,
and reordering follows a schedule of all their transactions.
-/

namespace CongestionControl.Pevm

open TransactionNode Transition
open scoped List

/-! ## Reordering -/

section Reorder

variable {τ : Type} {g : TransactionGraph} {b : BlockGraph} {txs : List τ}
  {addOrder : Nat → HashOrder}

def labelOf (g : TransactionGraph) (b : BlockGraph) (txs : List τ) (txId : TransactionId) :
    Option (τ × TransactionNode) :=
  (g.idToIndex.lookup txId).bind fun i => (txs.zip b.txs)[i]?

structure Reordering (g : TransactionGraph) (b : BlockGraph) (txs : List τ)
    (order : List TransactionId) (rest : List ScheduledTx) (acc : List τ × TransactionGraph) :
    Prop where
  split : ∃ b' : BlockGraph, acc.2.Represents b' ∧ acc.1.length = b'.txs.length ∧
    b'.ids ++ rest.map ScheduledTx.txId = order ∧
    (acc.1.zip b'.txs).map some = b'.ids.map (labelOf g b txs)

theorem Reordering.step (hg : g.Represents b) (htxs : txs.length = b.txs.length)
    {order : List TransactionId} (horder : order ~ b.ids) {scheduled : ScheduledTx}
    {rest : List ScheduledTx} {acc : List τ × TransactionGraph}
    (h : Reordering g b txs order (scheduled :: rest) acc) :
    ∃ acc', reorderTx addOrder txs g acc scheduled = some acc' ∧
      Reordering g b txs order rest acc' := by
  obtain ⟨b', hr, hlen, hsplit, hlabels⟩ := h.split
  have hnodup : order.Nodup := horder.nodup_iff.mpr b.nodup
  have hmem : scheduled.txId ∈ b.ids := by
    refine horder.subset ?_
    rw [← hsplit]
    simp
  obtain ⟨i, hi⟩ := List.mem_iff_getElem?.mp hmem
  have hidx : g.idToIndex.lookup scheduled.txId = some i := (hg.index _ i).mpr hi
  have hlt : i < b.txs.length := by
    have := (List.getElem?_eq_some_iff.mp hi).1
    rwa [BlockGraph.ids, List.length_map] at this
  obtain ⟨tx, htx⟩ : ∃ tx, txs[i]? = some tx := ⟨_, List.getElem?_eq_getElem (by omega)⟩
  obtain ⟨node, hnode⟩ : ∃ node, g.nodes[i]? = some node :=
    ⟨_, List.getElem?_eq_getElem (hg.length_eq ▸ hlt)⟩
  have hid : node.transactionId = scheduled.txId :=
    Option.some.inj ((hg.getElem?_ids hnode).symm.trans hi)
  have hnew : node.transactionId ∉ b'.ids := by
    rw [hid]
    intro hin
    rw [← hsplit] at hnodup
    exact (List.nodup_append.mp hnodup).2.2 _ hin _ List.mem_cons_self rfl
  obtain ⟨g', hadd, hr'⟩ := hr.add (addOrder acc.1.length) hnew
  have htxs' : (b'.add node hnew).txs = b'.txs ++ [node.fresh] := rfl
  have hids' : (b'.add node hnew).ids = b'.ids ++ [scheduled.txId] := by
    rw [BlockGraph.ids, htxs', List.map_append, ← hid]
    rfl
  refine ⟨(acc.1 ++ [tx], g'), by simp [reorderTx, hidx, htx, hnode, hadd],
    ⟨b'.add node hnew, hr', ?_, ?_, ?_⟩⟩
  · simp [htxs', hlen]
  · rw [hids', ← hsplit, List.append_assoc]
    rfl
  · rw [hids', htxs', List.zip_append hlen, List.map_append, hlabels]
    have hlabel : labelOf g b txs scheduled.txId = some (tx, node.fresh) := by
      have hb : b.txs[i]? = some node.fresh := hg.getElem?_txs.mpr ⟨node, hnode, rfl⟩
      simp [labelOf, hidx, List.getElem?_zip_eq_some, htx, hb]
    simp [hlabel]

/-- The new list and the new graph hold the same transactions, aligned as before, in an order that
respects the links. -/
theorem reorder_eq_some (addOrder : Nat → HashOrder) (h : g.Simulated b) (htxs : txs.length = b.txs.length) (k : Nat) :
    ∃ out newGraph b', reorderTxsByDependencyGraph addOrder txs g k = some (out, newGraph) ∧
      newGraph.Represents b' ∧ out.length = b'.txs.length ∧ b.Schedule b'.ids ∧
      out.zip b'.txs ~ txs.zip b.txs := by
  obtain ⟨result, hresult, hschedule⟩ := h.result
  have hg := h.represents
  obtain ⟨⟨out, newGraph⟩, hloop, hend⟩ := foldlM_rest
    (I := Reordering g b txs (result.executionOrder.map ScheduledTx.txId))
    (f := reorderTx addOrder txs g) (b := ([], .new))
    (fun _ _ _ hI => hI.step hg htxs hschedule.perm)
    ⟨⟨.empty, .new, rfl, rfl, rfl⟩⟩
  obtain ⟨b', hr, hlen, hids, hlabels⟩ := hend.split
  rw [List.map_nil, List.append_nil] at hids
  refine ⟨out, newGraph, b', by simp [reorderTxsByDependencyGraph, hresult, hloop], hr, hlen,
    hids ▸ hschedule, ?_⟩
  -- Both sides are the labels of the ids, in the two orders.
  have hall : b.ids.map (labelOf g b txs) = (txs.zip b.txs).map some := by
    refine List.ext_getElem? fun i => ?_
    cases hi : b.ids[i]? with
    | none =>
      have hge : b.txs.length ≤ i := by
        have := List.getElem?_eq_none_iff.mp hi
        rwa [BlockGraph.ids, List.length_map] at this
      have hz : (txs.zip b.txs)[i]? = none := List.getElem?_eq_none (by simp; omega)
      simp [hi, hz]
    | some txId =>
      have hlt : i < b.txs.length := by
        have := (List.getElem?_eq_some_iff.mp hi).1
        rwa [BlockGraph.ids, List.length_map] at this
      have hidx : g.idToIndex.lookup txId = some i := (hg.index _ i).mpr hi
      have hz : i < (txs.zip b.txs).length := by simp; omega
      simp [hi, labelOf, hidx, List.getElem?_eq_getElem hz]
  refine (List.map_perm_map_iff (Option.some_injective _)).mp ?_
  rw [hlabels, ← hall]
  exact (hids ▸ hschedule.perm).map _

end Reorder

/-! ## Removing the members of a group -/

theorem foldl_eraseIdx_perm {α : Type} (ps : List Nat) {l : List α} (hps : ps.Pairwise (· > ·))
    (hlt : ∀ p ∈ ps, p < l.length) :
    l.map some ~ ps.map (l[·]?) ++
      (ps.foldl (fun l pos => if pos < l.length then l.eraseIdx pos else l) l).map some := by
  induction ps generalizing l with
  | nil => exact .refl _
  | cons p ps ih =>
    obtain ⟨hp, hps'⟩ := List.pairwise_cons.mp hps
    have hpl := hlt p List.mem_cons_self
    have hlen : (l.eraseIdx p).length = l.length - 1 := List.length_eraseIdx_of_lt hpl
    have hsame : ∀ q ∈ ps, (l.eraseIdx p)[q]? = l[q]? := fun q hq =>
      List.getElem?_eraseIdx_of_lt (hp q hq)
    have hrest := ih hps' (l := l.eraseIdx p) fun q hq => by
      have := hp q hq
      omega
    rw [List.map_congr_left hsame] at hrest
    have hfirst : l.map some ~ l[p]? :: (l.eraseIdx p).map some := by
      have := (List.getElem_cons_eraseIdx_perm hpl).symm.map some
      rwa [List.map_cons, ← List.getElem?_eq_getElem hpl] at this
    rw [List.foldl_cons, if_pos hpl]
    exact hfirst.trans (hrest.cons _)

theorem removePositions_perm {α : Type} {l : List α} {sPositions : Finset Nat}
    (hlt : ∀ p ∈ sPositions, p < l.length) :
    l.map some ~ (sPositions.sort (· ≥ ·)).map (l[·]?) ++
      (removePositions l sPositions).map some := by
  refine foldl_eraseIdx_perm _ ?_ fun p hp => hlt p ((Finset.mem_sort _).mp hp)
  exact (Finset.pairwise_sort sPositions (· ≥ ·)).sortedGE.sortedGT_of_nodup
    (Finset.sort_nodup _ _) |>.pairwise

/-! ## The groups -/

variable {i : Nat}

section Groups

variable {blocks : List BlockGraph} (outcomes : Outcomes) {k : Nat} (group : Nat)
  {blk b : BlockGraph} {indices : List Nat} {g candidate : TransactionGraph}
  {l : List (Nat × TransactionGraph)} {first : Nat} {s : Group}

def txsAt (blocks : List BlockGraph) (i : Nat) : List TransactionNode :=
  (blocks[i]?).elim [] BlockGraph.txs

structure Merges (blocks : List BlockGraph) (b : BlockGraph) (indices : List Nat) : Prop where
  txs : b.txs = indices.flatMap (txsAt blocks)
  links : ∀ i ∈ indices, ∀ blk, blocks[i]? = some blk → ∀ p c, blk.Link p c → b.Link p c

def Candidate (blocks : List BlockGraph) (candidate : Nat × TransactionGraph) : Prop :=
  ∃ blk, blocks[candidate.1]? = some blk ∧ candidate.2.Simulated blk

def DisjointIds (blocks : List BlockGraph) : Prop :=
  blocks.Pairwise fun b b' => b.ids.Disjoint b'.ids

theorem DisjointIds.disjoint (h : DisjointIds blocks) {j : Nat} {bi bj : BlockGraph}
    (hi : blocks[i]? = some bi) (hj : blocks[j]? = some bj) (hij : i ≠ j) :
    bi.ids.Disjoint bj.ids := by
  obtain ⟨hil, rfl⟩ := List.getElem?_eq_some_iff.mp hi
  obtain ⟨hjl, rfl⟩ := List.getElem?_eq_some_iff.mp hj
  rcases Nat.lt_or_gt_of_ne hij with hlt | hgt
  · exact List.pairwise_iff_getElem.mp h i j hil hjl hlt
  · exact (List.pairwise_iff_getElem.mp h j i hjl hil hgt).symm

theorem Merges.single (h : blocks[i]? = some blk) :
    Merges blocks blk [i] where
  txs := by simp [txsAt, h]
  links := by
    intro j hj blk' hblk' p c hl
    rw [List.mem_singleton.mp hj, h] at hblk'
    exact Option.some.inj hblk' ▸ hl

theorem Merges.disjoint (h : Merges blocks b indices) (hdisj : DisjointIds blocks)
    (hi : blocks[i]? = some blk) (hnot : i ∉ indices) : b.ids.Disjoint blk.ids := by
  intro txId hb hblk
  rw [BlockGraph.ids, h.txs, List.mem_map] at hb
  obtain ⟨tx, htx, rfl⟩ := hb
  obtain ⟨j, hj, htx⟩ := List.mem_flatMap.mp htx
  unfold txsAt at htx
  cases hbj : blocks[j]? with
  | none => simp [hbj] at htx
  | some bj =>
    rw [hbj] at htx
    have hne : j ≠ i := fun he => hnot (he ▸ hj)
    exact hdisj.disjoint hbj hi hne (List.mem_map_of_mem htx) hblk

theorem Merges.integrate (h : Merges blocks b indices) (hi : blocks[i]? = some blk)
    (hd : b.ids.Disjoint blk.ids) :
    Merges blocks (b.integrate blk hd) (indices ++ [i]) where
  txs := by
    rw [List.flatMap_append, ← h.txs]
    simp [txsAt, hi, BlockGraph.integrate, BlockGraph.append]
  links := by
    intro j hj blk' hblk' p c hl
    rcases List.mem_append.mp hj with hj | hj
    · exact .inl (h.links j hj blk' hblk' p c hl)
    · rw [List.mem_singleton.mp hj, hi] at hblk'
      exact .inr (.inl (Option.some.inj hblk' ▸ hl))

theorem decentIntegration_eq_some (hk : 1 ≤ k) (hg : g.Simulated b) (hc : candidate.Simulated blk)
    (hd : b.ids.Disjoint blk.ids) (i : Nat) :
    ∃ result, decentIntegration outcomes k group i g candidate = some result ∧
      ∀ g', result = some g' → g'.Simulated (b.integrate blk hd) := by
  obtain ⟨g1, edges, he, h1⟩ :=
    hg.represents.integrate hc.represents (outcomes.mergeOrder group i) hd
  have hstate := TransactionGraph.simulationState_integrateGraph (outcomes.mergeOrder group i) g
    candidate
  rw [he] at hstate
  have hheap : g1.txnsWithoutParent = [] := (congrArg Prod.fst hstate).trans hg.heap
  obtain ⟨g2, he2, h2⟩ := h1.simulate hk fun _ => hheap
  refine ⟨if outcomes.cvDecent group i then some g2 else none,
    by simp [decentIntegration, he, he2], ?_⟩
  intro g' hg'
  split at hg'
  · exact Option.some.inj hg' ▸ h2
  · cases hg'

/-- The state of the scan of the candidates `l` when the positions below `i` are still to come. -/
structure ScanInv (blocks : List BlockGraph) (l : List (Nat × TransactionGraph)) (first i : Nat)
    (s : Group) : Prop where
  merged : ∃ b, s.graph.Simulated b ∧ Merges blocks b s.sourceIndices
  indices : s.sourceIndices.map some ~
    some first :: (s.sPositions.sort (· ≥ ·)).map fun p => (l[p]?).map Prod.fst
  range : ∀ p ∈ s.sPositions, i ≤ p ∧ p < l.length

theorem ScanInv.weaken {j : Nat} (h : ScanInv blocks l first i s) (hj : j ≤ i) :
    ScanInv blocks l first j s :=
  ⟨h.merged, h.indices, fun p hp => ⟨hj.trans (h.range p hp).1, (h.range p hp).2⟩⟩

theorem ScanInv.not_mem {idx : Nat} (h : ScanInv blocks l first (i + 1) s)
    (hnodup : (first :: l.map Prod.fst).Nodup) (hi : l[i]? = some (idx, candidate)) :
    idx ∉ s.sourceIndices := by
  intro hmem
  obtain ⟨hfirst, hnodup'⟩ := List.nodup_cons.mp hnodup
  have hidx : (l.map Prod.fst)[i]? = some idx := by rw [List.getElem?_map, hi]; rfl
  rcases List.mem_cons.mp (h.indices.subset (List.mem_map_of_mem hmem)) with he | hm
  · exact hfirst (Option.some.inj he ▸ List.mem_of_getElem? hidx)
  · obtain ⟨p, hp, hpi⟩ := List.mem_map.mp hm
    have hlt := (h.range p ((Finset.mem_sort _).mp hp)).1
    rw [← List.getElem?_map] at hpi
    have := hnodup'.getElem?_unique hidx hpi
    omega

theorem ScanInv.accept {idx : Nat} (h : ScanInv blocks l first (i + 1) s)
    (hi : l[i]? = some (idx, candidate))
    (hg : ∃ b, g.Simulated b ∧ Merges blocks b (s.sourceIndices ++ [idx])) :
    ScanInv blocks l first i ⟨⟨g, s.sourceIndices ++ [idx]⟩, insert i s.sPositions⟩ := by
  have hnot : i ∉ s.sPositions := fun hmem => by
    have := (h.range i hmem).1
    omega
  have hlt : i < l.length := (List.getElem?_eq_some_iff.mp hi).1
  refine ⟨hg, ?_, fun p hp => ?_⟩
  · have hsort : (insert i s.sPositions).sort (· ≥ ·) ~ i :: s.sPositions.sort (· ≥ ·) := by
      rw [← Multiset.coe_eq_coe, Finset.sort_eq, ← Multiset.cons_coe, Finset.sort_eq,
        Finset.insert_val_of_notMem hnot]
    have hmap := hsort.map fun p => (l[p]?).map Prod.fst
    rw [List.map_cons, hi] at hmap
    rw [List.map_append]
    refine (List.perm_append_singleton _ _).trans ?_
    exact (h.indices.cons _).trans ((List.Perm.swap _ _ _).trans (hmap.symm.cons _))
  · rcases Finset.mem_insert.mp hp with rfl | hp
    · exact ⟨le_rfl, hlt⟩
    · exact ⟨by have := (h.range p hp).1; omega, (h.range p hp).2⟩

theorem scan_eq_some (hk : 1 ≤ k) (hdisj : DisjointIds blocks)
    (hl : ∀ candidate ∈ l, Candidate blocks candidate) (hnodup : (first :: l.map Prod.fst).Nodup)
    (hi : i ≤ l.length) (h : ScanInv blocks l first i s) (hsize : s.sourceIndices.length ≤ 10) :
    ∃ s', scan outcomes k group l i s = some s' ∧ ScanInv blocks l first 0 s' ∧
      s'.sourceIndices.length ≤ 11 := by
  induction i generalizing s with
  | zero => exact ⟨s, rfl, h, by omega⟩
  | succ i ih =>
    have hskip := ih (by omega) (h.weaken (Nat.le_succ i)) hsize
    obtain ⟨⟨idx, candidate⟩, hc⟩ : ∃ c, l[i]? = some c := ⟨_, List.getElem?_eq_getElem (by omega)⟩
    unfold scan
    by_cases hdecent : outcomes.decentGraph group i = true
    · exact ⟨s, by rw [if_pos hdecent], h.weaken (Nat.zero_le _), by omega⟩
    · rw [if_neg hdecent]
      simp only [hc, Option.bind_eq_bind, Option.bind_some]
      by_cases hhot : outcomes.hasCommonHotKeys group i = true
      · rw [if_pos hhot]
        exact hskip
      · rw [if_neg hhot]
        obtain ⟨b, hb, hm⟩ := h.merged
        obtain ⟨blk, hblk, hsim⟩ := hl _ (List.mem_of_getElem? hc)
        have hd := hm.disjoint hdisj hblk (h.not_mem hnodup hc)
        obtain ⟨result, he, hresult⟩ := decentIntegration_eq_some outcomes group hk hb hsim
          hd i
        simp only [he]
        cases result with
        | none => exact hskip
        | some g =>
          have haccept := h.accept hc
            ⟨b.integrate blk hd, hresult g rfl, hm.integrate hblk hd⟩
          by_cases hfull : (s.sourceIndices ++ [idx]).length > 10
          · simp only [if_pos hfull]
            exact ⟨_, rfl, haccept.weaken (Nat.zero_le _), by simp; omega⟩
          · simp only [if_neg hfull]
            exact ih (by omega) haccept (by simpa using hfull)

structure GroupOk (blocks : List BlockGraph) (result : IntegratedGraphWithIndices) : Prop where
  merged : ∃ b, result.graph.Simulated b ∧ Merges blocks b result.sourceIndices
  nonempty : result.sourceIndices ≠ []
  size : result.sourceIndices.length ≤ 11

theorem integrateAll_eq_some (hk : 1 ≤ k) (hdisj : DisjointIds blocks) {fuel : Nat}
    (hfuel : l.length ≤ fuel) (hl : ∀ candidate ∈ l, Candidate blocks candidate)
    (hnodup : (l.map Prod.fst).Nodup) :
    ∃ results, integrateAll outcomes k fuel group l = some results ∧
      results.flatMap IntegratedGraphWithIndices.sourceIndices ~ l.map Prod.fst ∧
      ∀ result ∈ results, GroupOk blocks result := by
  induction fuel generalizing l group with
  | zero =>
    have hnil : l = [] := List.length_eq_zero_iff.mp (Nat.le_zero.mp hfuel)
    subst hnil
    exact ⟨[], rfl, .nil, by simp⟩
  | succ fuel ih =>
    cases l with
    | nil => exact ⟨[], rfl, .nil, by simp⟩
    | cons head l =>
      obtain ⟨firstIdx, first⟩ := head
      obtain ⟨blk, hblk, hsim⟩ := hl (firstIdx, first) List.mem_cons_self
      have hl' : ∀ candidate ∈ l, Candidate blocks candidate :=
        fun c hc => hl c (List.mem_cons_of_mem _ hc)
      have h0 : ScanInv blocks l firstIdx l.length ⟨⟨first, [firstIdx]⟩, ∅⟩ :=
        ⟨⟨blk, hsim, .single hblk⟩, by simp, by simp⟩
      obtain ⟨s, hs, hinv, hsize⟩ := scan_eq_some outcomes group hk hdisj hl' hnodup le_rfl h0
        (by simp)
      have hrest := removePositions_perm fun p hp => (hinv.range p hp).2
      have hperm : s.sourceIndices ++ (removePositions l s.sPositions).map Prod.fst ~
          firstIdx :: l.map Prod.fst := by
        refine (List.map_perm_map_iff (Option.some_injective _)).mp ?_
        have hmap := hrest.map (Option.map Prod.fst)
        simp only [List.map_append, List.map_map, Function.comp_def, Option.map_some] at hmap
        simp only [List.map_append, List.map_cons, List.map_map, Function.comp_def]
        exact (hinv.indices.append_right _).trans (hmap.symm.cons _)
      have hsub : ∀ c ∈ removePositions l s.sPositions, c ∈ l := by
        intro c hc
        have hm := hrest.symm.subset (List.mem_append_right _ (List.mem_map_of_mem hc))
        simpa using hm
      have hlen : (removePositions l s.sPositions).length ≤ l.length := by
        have := hrest.length_eq
        simp only [List.length_map, List.length_append] at this
        omega
      have hnodup' : ((removePositions l s.sPositions).map Prod.fst).Nodup :=
        (List.nodup_append.mp (hperm.nodup_iff.mpr hnodup)).2.1
      rw [List.length_cons] at hfuel
      obtain ⟨results, hresults, hall, hok⟩ := ih (group + 1) (by omega)
        (fun c hc => hl' c (hsub c hc)) hnodup'
      refine ⟨s.toIntegratedGraphWithIndices :: results, by simp [integrateAll, hs, hresults], ?_,
        ?_⟩
      · exact (hall.append_left _).trans hperm
      · intro result hm
        rcases List.mem_cons.mp hm with rfl | hm
        · refine ⟨hinv.merged, fun hnil => ?_, hsize⟩
          have := hinv.indices.length_eq
          simp [hnil] at this
        · exact hok result hm

end Groups

/-! ## The whole integration -/

def labelled {τ : Type} (txs : List (List τ)) (graphs : List TransactionGraph) :
    List (τ × TransactionNode) :=
  (List.zipWith (fun ts g => ts.zip (g.nodes.map TransactionNode.fresh)) txs graphs).flatten

section Lists

variable {α β γ : Type} {R : α → β → Prop} {l' : List β}

theorem exists_forall₂ : ∀ {l : List α}, (∀ a ∈ l, ∃ b, R a b) →
    ∃ bs, List.Forall₂ R l bs
  | [], _ => ⟨[], .nil⟩
  | a :: l, h => by
    obtain ⟨b, hb⟩ := h a List.mem_cons_self
    obtain ⟨bs, hbs⟩ := exists_forall₂ (l := l) fun a' ha => h a' (List.mem_cons_of_mem a ha)
    exact ⟨b :: bs, .cons hb hbs⟩

theorem forall₂_getElem? {l : List α} (h : List.Forall₂ R l l') {a : α} (hi : l[i]? = some a) :
    ∃ b, l'[i]? = some b ∧ R a b := by
  induction h generalizing i with
  | nil => simp at hi
  | cons hab _ ih =>
    cases i with
    | zero => exact ⟨_, rfl, Option.some.inj hi ▸ hab⟩
    | succ i => exact ih hi

theorem map_eq_of_forall₂ {f : α → γ} {h : β → γ} {l : List α}
    (hl : List.Forall₂ (fun a b => f a = h b) l l') : l.map f = l'.map h := by
  induction hl with
  | nil => rfl
  | cons hab _ ih => rw [List.map_cons, List.map_cons, hab, ih]

theorem flatMap_perm_of_forall₂ {f : α → List γ} {h : β → List γ} {l : List α}
    (hl : List.Forall₂ (fun a b => f a ~ h b) l l') : l.flatMap f ~ l'.flatMap h := by
  induction hl with
  | nil => exact .refl _
  | cons hab _ ih =>
    exact hab.append ih

theorem zip_flatMap {ι : Type} {f : ι → List α} {h : ι → List β} (l : List ι)
    (hlen : ∀ i ∈ l, (f i).length = (h i).length) :
    (l.flatMap f).zip (l.flatMap h) = l.flatMap fun i => (f i).zip (h i) := by
  induction l with
  | nil => rfl
  | cons i l ih =>
    rw [List.flatMap_cons, List.flatMap_cons, List.flatMap_cons,
      List.zip_append (hlen i List.mem_cons_self),
      ih fun j hj => hlen j (List.mem_cons_of_mem i hj)]

end Lists

theorem map_fst_labelled {τ : Type} {txs : List (List τ)} {graphs : List TransactionGraph}
    (h : List.Forall₂ (fun ts g => ts.length = g.nodes.length) txs graphs) :
    (labelled txs graphs).map Prod.fst = txs.flatten := by
  unfold labelled
  induction h with
  | nil => rfl
  | cons hlen _ ih =>
    rw [List.zipWith_cons_cons, List.flatten_cons, List.flatten_cons, List.map_append, ih,
      List.map_fst_zip (by simp [hlen])]

section Integrate

variable {τ : Type} {graphs : List TransactionGraph} {blocks : List BlockGraph}
  {txs : List (List τ)} {k : Nat}

theorem simulateIndexed_eq_some (hk : 1 ≤ k)
    (hbuilt : List.Forall₂ TransactionGraph.Builds graphs blocks) :
    ∃ indexed, graphs.zipIdx.mapM (simulateIndexed k) = some indexed ∧
      indexed.map Prod.fst = List.range graphs.length ∧
      ∀ candidate ∈ indexed, Candidate blocks candidate := by
  obtain ⟨indexed, he, hall⟩ := mapM_forall₂ (f := simulateIndexed k)
    (R := fun gi candidate => candidate.1 = gi.2 ∧ Candidate blocks candidate) (by
      rintro ⟨g, i⟩ hm
      obtain ⟨b, hb, hB⟩ := forall₂_getElem? hbuilt (List.mk_mem_zipIdx_iff_getElem?.mp hm)
      have hstate := hB.simulationState
      obtain ⟨g', hg', hsim⟩ := hB.represents.simulate hk fun _ => congrArg Prod.fst hstate
      have hnone : g.simulationResult = none := congrArg Prod.snd hstate
      exact ⟨(i, g'), by simp [simulateIndexed, hnone, hg'], rfl, b, hb, hsim⟩)
  refine ⟨indexed, he, ?_, ?_⟩
  · rw [List.range_eq_range', ← List.zipIdx_map_snd 0 graphs]
    exact (map_eq_of_forall₂ (hall.imp fun _ _ hab => hab.1.symm)).symm
  · intro candidate hc
    obtain ⟨i, hi⟩ := List.mem_iff_getElem?.mp hc
    obtain ⟨_, -, -, hcand⟩ := forall₂_getElem? hall.flip hi
    exact hcand

def labelsAt (blocks : List BlockGraph) (txs : List (List τ)) (i : Nat) :
    List (τ × TransactionNode) :=
  ((txs[i]?).getD []).zip (txsAt blocks i)

structure OutputOk (blocks : List BlockGraph) (txs : List (List τ)) (indices : List Nat)
    (output : List τ × TransactionGraph) : Prop where
  length : output.1.length = output.2.nodes.length
  labels : output.1.zip (output.2.nodes.map TransactionNode.fresh) ~
    indices.flatMap (labelsAt blocks txs)
  nodup : output.2.ids.Nodup
  ordered : ∀ i ∈ indices, ∀ blk, blocks[i]? = some blk → ∀ p c, blk.Link p c →
    [p, c] <+ output.2.ids

theorem reorderGroup_eq_some (outcomes : Outcomes)
    (hlen : ∀ (i : Nat) blk, blocks[i]? = some blk →
      ∃ ts, txs[i]? = some ts ∧ ts.length = blk.txs.length)
    {result : IntegratedGraphWithIndices} (hok : GroupOk blocks result)
    (hmem : ∀ i ∈ result.sourceIndices, ∃ blk, blocks[i]? = some blk) (group : Nat) :
    ∃ output, reorderGroup outcomes k txs (result, group) = some output ∧
      OutputOk blocks txs result.sourceIndices output := by
  obtain ⟨b, hsim, hmerge⟩ := hok.merged
  have hat : ∀ i ∈ result.sourceIndices, ((txs[i]?).getD []).length = (txsAt blocks i).length := by
    intro i hi
    obtain ⟨blk, hblk⟩ := hmem i hi
    obtain ⟨ts, hts, hl⟩ := hlen i blk hblk
    simp [hts, txsAt, hblk, hl]
  obtain ⟨merged, hmerged, hall⟩ := mapM_forall₂ (l := result.sourceIndices)
    (R := fun i ts => (txs[i]?).getD [] = ts) (by
      intro i hi
      obtain ⟨blk, hblk⟩ := hmem i hi
      obtain ⟨ts, hts, -⟩ := hlen i blk hblk
      exact ⟨ts, hts, by simp [hts]⟩)
  have hflat : merged.flatten = result.sourceIndices.flatMap fun i => (txs[i]?).getD [] := by
    rw [List.flatMap_def, map_eq_of_forall₂ hall, List.map_id']
  have hlen' : merged.flatten.length = b.txs.length := by
    rw [hflat, hmerge.txs, List.length_flatMap, List.length_flatMap]
    exact congrArg List.sum (List.map_congr_left hat)
  obtain ⟨out, newGraph, b', he, hr, hl, hschedule, hzip⟩ :=
    reorder_eq_some (outcomes.addOrder group) hsim hlen' k
  refine ⟨(out, newGraph), by simp [reorderGroup, hmerged, he], ?_, ?_, ?_, ?_⟩
  · rw [hl, hr.length_eq]
  · rw [hr.nodes]
    refine hzip.trans ?_
    rw [hflat, hmerge.txs, zip_flatMap _ hat]
    exact .refl _
  · rw [hr.ids_eq]
    exact b'.nodup
  · intro i hi blk hblk p c hl
    rw [hr.ids_eq]
    exact hschedule.ordered p c (hmerge.links i hi blk hblk p c hl)

theorem integrate_eq_some (outcomes : Outcomes) (hk : 1 ≤ k)
    (hbuilt : List.Forall₂ TransactionGraph.Builds graphs blocks) (hdisj : DisjointIds blocks)
    (hlen : ∀ (i : Nat) blk, blocks[i]? = some blk →
      ∃ ts, txs[i]? = some ts ∧ ts.length = blk.txs.length) :
    ∃ results outputs, greedyDecentIntegrationWithIndices outcomes k graphs = some results ∧
      integratePevmGraphs outcomes k graphs txs =
        some (outputs.map Prod.fst, outputs.map Prod.snd) ∧
      results.flatMap IntegratedGraphWithIndices.sourceIndices ~ List.range graphs.length ∧
      (∀ result ∈ results, GroupOk blocks result) ∧
      List.Forall₂ (fun result output => OutputOk blocks txs result.sourceIndices output) results
        outputs := by
  obtain ⟨indexed, hindexed, hfst, hcand⟩ := simulateIndexed_eq_some hk hbuilt
  have hsort := outcomes.sortByCv_perm indexed
  have hfst' : (outcomes.sortByCv indexed).map Prod.fst ~ List.range graphs.length :=
    hfst ▸ hsort.map Prod.fst
  obtain ⟨results, hresults, hflat, hok⟩ := integrateAll_eq_some outcomes 0 hk hdisj
    hsort.length_eq.le (fun c hc => hcand c (hsort.subset hc))
    (hfst'.nodup_iff.mpr List.nodup_range)
  have hgreedy : greedyDecentIntegrationWithIndices outcomes k graphs = some results := by
    simp [greedyDecentIntegrationWithIndices, hindexed, hresults]
  have hmem : ∀ result ∈ results, ∀ i ∈ result.sourceIndices, ∃ blk, blocks[i]? = some blk := by
    intro result hr i hi
    have hrange := (hflat.trans hfst').subset (List.mem_flatMap.mpr ⟨result, hr, hi⟩)
    rw [List.mem_range, hbuilt.length_eq] at hrange
    exact ⟨_, List.getElem?_eq_getElem hrange⟩
  obtain ⟨outputs, houtputs, hall⟩ := mapM_forall₂
    (f := reorderGroup outcomes k txs)
    (R := fun indexed output => OutputOk blocks txs indexed.1.sourceIndices output) (by
      rintro ⟨result, group⟩ hm
      have hr : result ∈ results := List.mem_of_getElem? (List.mk_mem_zipIdx_iff_getElem?.mp hm)
      exact reorderGroup_eq_some outcomes hlen (hok result hr) (hmem result hr) group)
  refine ⟨results, outputs, hgreedy, by simp [integratePevmGraphs, hgreedy, houtputs],
    hflat.trans hfst', hok, ?_⟩
  have hmap : results.zipIdx.map Prod.fst = results := List.zipIdx_map_fst 0 results
  rw [← hmap, List.forall₂_map_left_iff]
  exact hall

theorem labelled_eq (hbuilt : List.Forall₂ TransactionGraph.Builds graphs blocks)
    (hlen : List.Forall₂ (fun ts g => ts.length = g.nodes.length) txs graphs) :
    labelled txs graphs = (List.range graphs.length).flatMap (labelsAt blocks txs) := by
  have hat : ∀ i, labelsAt blocks txs i =
      ((txs[i]?).getD []).zip (((graphs[i]?).elim [] fun g => g.nodes.map TransactionNode.fresh)) := by
    intro i
    unfold labelsAt txsAt
    cases hg : graphs[i]? with
    | none =>
      have hb : blocks[i]? = none := by
        rw [List.getElem?_eq_none_iff] at hg ⊢
        rwa [← hbuilt.length_eq]
      simp [hb]
    | some g =>
      obtain ⟨b, hb, hB⟩ := forall₂_getElem? hbuilt hg
      simp [hb, hB.represents.nodes]
  refine congrArg List.flatten (List.ext_getElem? fun i => ?_)
  rw [List.getElem?_zipWith]
  cases hg : graphs[i]? with
  | none =>
    have hge := List.getElem?_eq_none_iff.mp hg
    simp [hge]
  | some g =>
    obtain ⟨ts, hts, -⟩ := forall₂_getElem? hlen.flip hg
    obtain ⟨hlt, hget⟩ := List.getElem?_eq_some_iff.mp hg
    simp [hts, hlt, hat, hget]

end Integrate

/-- The integration partitions the graphs into groups of at most eleven, keeps every transaction
with its node, and puts ancestors before their descendants. -/
theorem integratePevmGraphs_aligned {τ : Type} {graphs : List TransactionGraph}
    {txs : List (List τ)} (hbuilt : ∀ g ∈ graphs, ∃ b, g.Builds b)
    (hdisj : graphs.Pairwise fun g g' => g.ids.Disjoint g'.ids)
    (hlen : List.Forall₂ (fun ts g => ts.length = g.nodes.length) txs graphs) {k : Nat}
    (hk : 1 ≤ k) (outcomes : Outcomes) :
    ∃ results outTxs outGraphs,
      greedyDecentIntegrationWithIndices outcomes k graphs = some results ∧
      results.flatMap IntegratedGraphWithIndices.sourceIndices ~ List.range graphs.length ∧
      (∀ result ∈ results, result.sourceIndices ≠ [] ∧ result.sourceIndices.length ≤ 11) ∧
      integratePevmGraphs outcomes k graphs txs = some (outTxs, outGraphs) ∧
      outTxs.flatten ~ txs.flatten ∧
      List.Forall₂ (fun ts g => ts.length = g.nodes.length) outTxs outGraphs ∧
      labelled outTxs outGraphs ~ labelled txs graphs ∧
      ∀ g ∈ graphs, ∀ (i j : Nat) p c, g.nodes[i]? = some p → g.nodes[j]? = some c →
        Relation.TransGen (fun parent child => child ∈ g.children parent) i j →
        ∃ g' ∈ outGraphs, [p.transactionId, c.transactionId] <+ g'.ids := by
  obtain ⟨blocks, hblocks⟩ := exists_forall₂ hbuilt
  have hids : graphs.map TransactionGraph.ids = blocks.map BlockGraph.ids :=
    map_eq_of_forall₂ (hblocks.imp fun _ _ hB => hB.represents.ids_eq)
  have hdisj' : DisjointIds blocks := by
    have := List.pairwise_map.mpr hdisj
    rw [hids] at this
    exact List.pairwise_map.mp this
  have hlen' : ∀ (i : Nat) blk, blocks[i]? = some blk →
      ∃ ts, txs[i]? = some ts ∧ ts.length = blk.txs.length := by
    intro i blk hblk
    obtain ⟨g, hg, hB⟩ := forall₂_getElem? hblocks.flip hblk
    obtain ⟨ts, hts, hl⟩ := forall₂_getElem? hlen.flip hg
    exact ⟨ts, hts, hl.trans hB.represents.length_eq.symm⟩
  obtain ⟨results, outputs, hgreedy, hout, hpart, hok, hall⟩ :=
    integrate_eq_some outcomes hk hblocks hdisj' hlen'
  have hlabels : labelled (outputs.map Prod.fst) (outputs.map Prod.snd) ~ labelled txs graphs := by
    rw [labelled_eq hblocks hlen, labelled, List.zipWith_map, List.zipWith_self,
      ← List.flatMap_def]
    refine .trans (.symm (flatMap_perm_of_forall₂ (hall.imp fun _ _ hok => hok.labels.symm))) ?_
    rw [← List.flatMap_assoc]
    exact hpart.flatMap_right _
  have hlengths : List.Forall₂ (fun ts (g : TransactionGraph) => ts.length = g.nodes.length)
      (outputs.map Prod.fst) (outputs.map Prod.snd) := by
    rw [List.forall₂_map_left_iff, List.forall₂_map_right_iff, List.forall₂_same]
    intro output ho
    obtain ⟨n, hn⟩ := List.mem_iff_getElem?.mp ho
    obtain ⟨_, -, hok⟩ := forall₂_getElem? hall.flip hn
    exact hok.length
  refine ⟨results, outputs.map Prod.fst, outputs.map Prod.snd, hgreedy, hpart,
    fun result hr => ⟨(hok result hr).nonempty, (hok result hr).size⟩, hout, ?_, hlengths, hlabels,
    ?_⟩
  · rw [← map_fst_labelled hlengths, ← map_fst_labelled hlen]
    exact hlabels.map Prod.fst
  · intro g hg i j p c hp hc hpath
    obtain ⟨n, hn⟩ := List.mem_iff_getElem?.mp hg
    obtain ⟨blk, hblk, hB⟩ := forall₂_getElem? hblocks hn
    have hrep := hB.represents
    have hlinks := (hrep.path_iff (hrep.getElem?_ids hp) (hrep.getElem?_ids hc)).mp hpath
    have hmem := hpart.symm.subset (List.mem_range.mpr (List.getElem?_eq_some_iff.mp hn).1)
    obtain ⟨result, hr, hin⟩ := List.mem_flatMap.mp hmem
    obtain ⟨m, hm⟩ := List.mem_iff_getElem?.mp hr
    obtain ⟨output, ho, hok⟩ := forall₂_getElem? hall hm
    refine ⟨output.2, List.mem_map_of_mem (List.mem_of_getElem? ho), ?_⟩
    exact hok.nodup.pair_sublist_of_transGen (hok.ordered n hin blk hblk) hlinks

def acceptAll : Outcomes where
  sortByCv l := l
  sortByCv_perm _ := .refl _
  decentGraph _ _ := true
  hasCommonHotKeys _ _ := true
  cvDecent _ _ := true
  mergeOrder _ _ := ⟨.sorted, .sorted⟩
  addOrder _ _ := ⟨.sorted, .sorted⟩

def singleGraph : TransactionGraph :=
  (TransactionGraph.new.addTransaction ⟨.sorted, .sorted⟩ (writer 2)).1

theorem singleGraph_builds :
    singleGraph.Builds (BlockGraph.empty.add (writer 2) (by decide)) :=
  .add ⟨.sorted, .sorted⟩ (writer 2) (by decide) .new

theorem integratePevmGraphs_pair_single :
    ∃ outTxs outGraphs,
      integratePevmGraphs acceptAll 2 [pairGraph, singleGraph] [["a", "b"], ["c"]] =
        some (outTxs, outGraphs) ∧ outTxs.flatten ~ ["a", "b", "c"] := by
  have hbuilt : ∀ g ∈ [pairGraph, singleGraph], ∃ b, g.Builds b := by
    intro g hg
    rcases List.mem_pair.mp hg with rfl | rfl
    · exact ⟨_, pairGraph_builds⟩
    · exact ⟨_, singleGraph_builds⟩
  have hdisj : [pairGraph, singleGraph].Pairwise fun g g' => g.ids.Disjoint g'.ids := by
    rw [List.pairwise_pair, pairGraph_builds.represents.ids_eq,
      singleGraph_builds.represents.ids_eq]
    have hnot : ∀ id ∈ pairBlockGraph.ids,
        id ∉ (BlockGraph.empty.add (writer 2) (by decide)).ids := by decide
    exact fun id h h' => hnot id h h'
  have hlen : List.Forall₂ (fun ts g => ts.length = g.nodes.length) [["a", "b"], ["c"]]
      [pairGraph, singleGraph] :=
    .cons pairGraph_represents.length_eq (.cons singleGraph_builds.represents.length_eq .nil)
  obtain ⟨_, outTxs, outGraphs, -, -, -, h, hperm, -⟩ :=
    integratePevmGraphs_aligned hbuilt hdisj hlen (k := 2) (by decide) acceptAll
  exact ⟨outTxs, outGraphs, h, hperm⟩

end CongestionControl.Pevm
