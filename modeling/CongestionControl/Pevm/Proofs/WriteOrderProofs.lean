import CongestionControl.Pevm.Proofs.DependencyGraphProofs

/-!
# Proofs: which write-after-write conflicts the dependency graph orders

A transaction that only reads a key becomes its tail too, so the next writer is compared with the reader
instead of the last writer: the two writers are ordered only if links for other keys do it.
-/

namespace CongestionControl.Pevm

open Relation (TransGen)
open TransactionNode
open scoped List

/-- Any two transactions with a write in common are connected by a path from the earlier one to the
later one. -/
def TransactionGraph.WritesOrdered (g : TransactionGraph) : Prop :=
  ∀ i j p c, g.nodes[i]? = some p → g.nodes[j]? = some c → i < j → p.Conflicts c →
    TransGen (fun parent child => child ∈ g.children parent) i j

namespace BlockGraph

/-- Two successive writers of a key that have readers of the key between them are connected by
links. -/
def GapsLinked (b : BlockGraph) : Prop :=
  ∀ addr p readers c, p :: (readers ++ [c]) <:+: touching addr b.txs → readers ≠ [] →
    p.Writes addr → c.Writes addr → (∀ reader ∈ readers, ¬ reader.Writes addr) →
    TransGen b.Link p.transactionId c.transactionId

variable {b : BlockGraph}

/-- Successive writers of a key are linked directly if nothing touches the key between them. -/
theorem GapsLinked.writers_isChain (h : b.GapsLinked) (addr : Key) :
    ((touching addr b.txs).filter fun node => node.Writes addr).IsChain fun p c =>
      TransGen b.Link p.transactionId c.transactionId := by
  rw [List.isChain_filter_iff]
  intro p readers c hin hp hc hreaders
  have hp := of_decide_eq_true hp
  have hc := of_decide_eq_true hc
  rcases readers with _ | ⟨reader, readers⟩
  · obtain ⟨s, t, heq⟩ := hin
    have hchain := b.chained addr
    rw [← heq] at hchain
    exact .single (List.isChain_pair.mp hchain.left_of_append.right_of_append hp hc)
  · exact h addr p (reader :: readers) c hin (List.cons_ne_nil _ _) hp hc
      fun m hm => of_decide_eq_false (hreaders m hm)

/-- Paths between successive writers make paths between all writers. -/
theorem gapsLinked_iff : b.GapsLinked ↔ ∀ p c, [p, c] <+ b.txs → p.Conflicts c →
    TransGen b.Link p.transactionId c.transactionId := by
  constructor
  · rintro h p c hpc ⟨addr, hp, hc⟩
    let path (p c : TransactionNode) := TransGen b.Link p.transactionId c.transactionId
    have hall := List.isChain_iff_pairwise.mp (show List.IsChain path _ from h.writers_isChain addr)
    have hpc' : [p, c] <+ (touching addr b.txs).filter fun node => node.Writes addr := by
      have hself : touching addr [p, c] = [p, c] := by
        simp [touching, hp.touches, hc.touches]
      have hself' : [p, c].filter (fun node => node.Writes addr) = [p, c] := by simp [hp, hc]
      have hsub := hpc.filter fun node => node.Touches addr
      rw [show List.filter _ _ = _ from hself] at hsub
      exact hself' ▸ hsub.filter fun node => node.Writes addr
    exact List.pairwise_iff_forall_sublist.mp hall hpc'
  · intro h addr p readers c hin _ hp hc _
    refine h p c ?_ ⟨addr, hp, hc⟩
    have hsub : [p, c] <+ p :: (readers ++ [c]) :=
      (List.sublist_append_right readers [c]).cons_cons p
    exact (hsub.trans hin.sublist).trans List.filter_sublist

end BlockGraph

namespace TransactionGraph

variable {g : TransactionGraph} {b : BlockGraph}

/-- Exactly when the write-after-write conflicts are ordered in a graph built by `add_transaction`
and `integrate_graph`. -/
theorem Builds.writesOrdered_iff (h : g.Builds b) : g.WritesOrdered ↔ b.GapsLinked := by
  have hr := h.represents
  rw [BlockGraph.gapsLinked_iff]
  constructor
  · intro hg p c hpc hconf
    obtain ⟨i, j, hij, hi, hj⟩ := List.pair_sublist_iff_getElem?.mp hpc
    obtain ⟨p', hi', rfl⟩ := hr.getElem?_txs.mp hi
    obtain ⟨c', hj', rfl⟩ := hr.getElem?_txs.mp hj
    exact (hr.path_iff (hr.getElem?_ids hi') (hr.getElem?_ids hj')).mp
      (hg i j p' c' hi' hj' hij hconf)
  · intro hb i j p c hi hj hij hconf
    refine (hr.path_iff (hr.getElem?_ids hi) (hr.getElem?_ids hj)).mpr ?_
    refine hb p.fresh c.fresh ?_ hconf
    exact List.pair_sublist_iff_getElem?.mpr ⟨i, j, hij, hr.getElem?_txs.mpr ⟨p, hi, rfl⟩,
      hr.getElem?_txs.mpr ⟨c, hj, rfl⟩⟩

end TransactionGraph

theorem pairGraph_writesOrdered :
    pairGraph.Builds pairBlockGraph ∧ pairGraph.WritesOrdered := by
  refine ⟨pairGraph_builds, pairGraph_builds.writesOrdered_iff.mpr ?_⟩
  intro addr p readers c hin hne _ _ _
  exfalso
  have hlen : (p :: (readers ++ [c])).length ≤ pairBlockGraph.txs.length :=
    hin.length_le.trans (List.length_filter_le _ _)
  have hpos : 0 < readers.length := List.length_pos_of_ne_nil hne
  have htwo : pairBlockGraph.txs.length = 2 := rfl
  simp only [List.length_cons, List.length_append, List.length_nil, htwo] at hlen
  omega

def reader (id : Nat) : TransactionNode := .new id 0 1 (.singleton 7) .empty

def readBetween : TransactionGraph :=
  let order : HashOrder := ⟨.sorted, .sorted⟩
  (((TransactionGraph.new.addTransaction order (writer 0)).1.addTransaction order
    (reader 1)).1.addTransaction order (writer 2)).1

/-- The reader becomes the tail of the key and has no write in common with the second writer, which
gets no parent. -/
theorem readBetween_not_writesOrdered :
    (∃ b, readBetween.Builds b) ∧ ¬ readBetween.WritesOrdered := by
  constructor
  · have h0 := TransactionGraph.Builds.add ⟨.sorted, .sorted⟩ (writer 0) (by decide) .new
    have h1 := h0.add ⟨.sorted, .sorted⟩ (reader 1) (by decide)
    exact ⟨_, h1.add ⟨.sorted, .sorted⟩ (writer 2) (by decide)⟩
  · intro h
    have hpath := h 0 2 (writer 0) (writer 2) (by decide +kernel) (by decide +kernel) (by decide)
      ⟨7, by decide, by decide⟩
    obtain ⟨child, hchild, -⟩ := Relation.TransGen.head'_iff.mp hpath
    have hnone : readBetween.children 0 = [] := by decide +kernel
    rw [hnone] at hchild
    cases hchild

end CongestionControl.Pevm
