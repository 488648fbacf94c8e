import CongestionControl.Mysticeti.Proofs.FinalizationProofs

/-!
# The interpreter finalizes exactly the certified transactions

Rounds are processed in order and blocks include blocks of lower rounds, so a block finds the votes of
its includes in the table: its own table has the votes of its whole history.
-/

namespace CongestionControl.Mysticeti

namespace SignedStore

variable (store : SignedStore) (committee : Committee)

/-- The authority shares the transaction or votes for it in the block or in an ancestor of it. -/
def Votes (b : StatementBlock) (tx : TransactionLocator) (a : AuthorityIndex) : Prop :=
  ∃ c, Ancestor store.store.blocks b c ∧ c.author = a ∧
    ∃ p ∈ (store.signed c).statements.zipIdx, tx ∈ (store.signed c).ballots p

open Classical in
noncomputable def stakeOf (P : AuthorityIndex → Prop) : Stake :=
  committee.getTotalStake ((Finset.range committee.len).filter P)

def Certifies (b : StatementBlock) (tx : TransactionLocator) : Prop :=
  ¬ (store.signed b).epochChanged ∧
    committee.isQuorum (stakeOf committee (store.Votes b tx)) = true

open Classical in
noncomputable def certifying (tx : TransactionLocator) : Finset BlockReference :=
  store.store.index.keys.filter fun r =>
    ∃ b ∈ store.store.blocks, b.reference = r ∧ store.Certifies committee b tx

def Finalized (tx : TransactionLocator) : Prop :=
  committee.isQuorum (stakeOf committee fun a =>
    ∃ b ∈ store.store.blocks, b.author = a ∧ store.Certifies committee b tx) = true

variable {store committee}

theorem votes_iff {b : StatementBlock} {tx : TransactionLocator} {a : AuthorityIndex} :
    store.Votes b tx a ↔
      (∃ p ∈ (store.signed b).statements.zipIdx, ∃ x ∈ (store.signed b).ballots p,
        tx = x ∧ a = b.author) ∨
      ∃ p ∈ b.includes, ∃ c ∈ store.store.blocks, c.reference = p ∧ store.Votes c tx a := by
  constructor
  · rintro ⟨c, hpath, rfl, p, hp, hballot⟩
    rcases hpath.cases_head with rfl | ⟨d, ⟨hd, hinc⟩, hrest⟩
    · exact .inl ⟨p, hp, tx, hballot, rfl, rfl⟩
    · exact .inr ⟨d.reference, hinc, d, hd, rfl, c, hrest, rfl, p, hp, hballot⟩
  · rintro (⟨p, hp, _, hballot, rfl, rfl⟩ | ⟨_, hinc, d, hd, rfl, c, hrest, hauthor, hballot⟩)
    · exact ⟨b, .refl, rfl, p, hp, hballot⟩
    · exact ⟨c, .head ⟨hd, hinc⟩ hrest, hauthor, hballot⟩

end SignedStore

theorem StakeAggregator.Counts.stake_eq {committee : Committee} {agg : StakeAggregator}
    {P : AuthorityIndex → Prop} (h : agg.Counts committee) (hvotes : ∀ a, a ∈ agg.votes ↔ P a) :
    agg.stake = SignedStore.stakeOf committee P := by
  classical
  rw [h.stake, SignedStore.stakeOf]
  refine Finset.sum_congr (Finset.ext fun a => ?_) fun _ _ => rfl
  rw [Finset.mem_filter, ← hvotes]
  exact (and_iff_right_of_imp fun ha => h.known ha).symm

theorem StakeAggregator.Counts.exists_vote {committee : Committee} {agg : StakeAggregator}
    (h : agg.Counts committee) (hq : committee.isQuorum agg.stake = true) : ∃ a, a ∈ agg.votes := by
  by_contra hnone
  have hempty : agg.votes = ∅ := Finset.eq_empty_of_forall_notMem fun a ha => hnone ⟨a, ha⟩
  rw [h.stake, hempty] at hq
  exact Nat.not_lt_zero _ (of_decide_eq_true hq)

namespace FinalizationInterpreter

variable {committee : Committee} {orders : InterpreterOrders} {store : SignedStore}
  {f f' : FinalizationInterpreter} {b : StatementBlock} {fuel : Nat}

/-- The table has the votes of whole histories, and the certificates are its certifying blocks. -/
structure Exact (committee : Committee) (store : SignedStore) (f : FinalizationInterpreter) : Prop
    extends Inv committee store f where
  voters : ∀ b ∈ store.store.blocks, b.reference ∈ f.transactionAggregator → ∀ tx a,
    a ∈ (f.votesOf b.reference tx).votes ↔ store.Votes b tx a
  certificates : ∀ b ∈ store.store.blocks, ∀ tx, b.reference ∈ f.certificatesOf tx ↔
    b.reference ∈ f.transactionAggregator ∧ store.Certifies committee b tx

variable (hclosed : Closed store.store.blocks)
  (hknown : ∀ b ∈ store.store.blocks, b.author ∈ Finset.range committee.len)

include hclosed hknown

/-- The calls for the includes return at once. -/
theorem Inv.processBlock_casts (h : Inv committee store f) (orders : InterpreterOrders) (fuel : Nat)
    (hb : b ∈ store.store.blocks)
    (hin : b.reference ∉ f.transactionAggregator)
    (hincludes : ∀ p ∈ b.includes, p ∈ f.transactionAggregator) :
    ∃ f', FinalizationInterpreter.processBlock committee orders store (fuel + 2) f (store.signed b) =
        some f' ∧ Inv committee store f' ∧ Casts committee store b (fun tx a =>
        (∃ p ∈ (store.signed b).statements.zipIdx, ∃ x ∈ (store.signed b).ballots p,
          tx = x ∧ a = b.author) ∨ ∃ p ∈ b.includes, a ∈ (f.votesOf p tx).votes)
        (f.setVotes b.reference ∅) f' := by
  rw [FinalizationInterpreter.processBlock, SignedStore.signed_reference, if_neg hin,
    SignedStore.signed_includes]
  obtain ⟨f₁, rfl, hopen₁, -, -⟩ := h.enter hb (hknown b hb) hin
  obtain ⟨f₂, hf₂, hinv₂, hcasts₂⟩ :=
    hopen₁.foldlM fun p _ f hf _ => hf.voteStatement p
  have hopen₂ := hopen₁.of_keys hinv₂ hcasts₂.keys
  obtain ⟨f₃, hf₃, hinv₃, hcasts₃⟩ := hopen₂.foldlM
    (S := fun p tx a => a ∈ (f.votesOf p tx).votes)
    (g := includeParent committee orders store
      (FinalizationInterpreter.processBlock committee orders store (fuel + 1)) (store.signed b)) <| by
    intro p hp f' hf' hothers
    have hmem := hincludes p hp
    have hne : p ≠ b.reference := fun heq => hin (heq ▸ hmem)
    have hlookup : f'.transactionAggregator.lookup p = f.transactionAggregator.lookup p := by
      rw [hothers p hne, hcasts₂.others p hne]
      exact Finmap.lookup_insert_of_ne _ hne
    have hmem' : p ∈ f'.transactionAggregator := by
      rw [Finmap.mem_iff, hlookup]
      exact Finmap.mem_iff.mp hmem
    have hvotes : ∀ tx, f'.votesOf p tx = f.votesOf p tx := fun tx => by
      rw [votesOf, hlookup]
      rfl
    obtain ⟨c, hc, rfl⟩ := hclosed b hb p hp
    have hstep := hf'.voteParent orders hmem'
    simp only [hvotes] at hstep
    rwa [includeParent, getBlock_eq hc, Option.bind_eq_bind, Option.bind_some,
      FinalizationInterpreter.processBlock, SignedStore.signed_reference, if_pos hmem']
  refine ⟨f₃, ?_, hinv₃, hcasts₂.trans hcasts₃ hinv₂ hinv₃⟩
  simp only [Option.bind_eq_bind, hf₂, Option.bind_some, hf₃]

theorem Exact.processBlock (h : Exact committee store f) (hb : b ∈ store.store.blocks)
    (hincludes : ∀ p ∈ b.includes, p ∈ f.transactionAggregator) :
    ∃ f', FinalizationInterpreter.processBlock committee orders store (fuel + 2) f (store.signed b) =
        some f' ∧ Exact committee store f' ∧
      f.transactionAggregator.keys ⊆ f'.transactionAggregator.keys ∧
      b.reference ∈ f'.transactionAggregator := by
  by_cases hin : b.reference ∈ f.transactionAggregator
  · refine ⟨f, ?_, h, subset_rfl, hin⟩
    rw [FinalizationInterpreter.processBlock, SignedStore.signed_reference, if_pos hin]
  obtain ⟨f', hf', hinv, hcasts⟩ :=
    h.toInv.processBlock_casts hclosed hknown orders fuel hb hin hincludes
  have hmem : ∀ r, r ∈ f'.transactionAggregator ↔ r = b.reference ∨ r ∈ f.transactionAggregator := by
    intro r
    rw [← Finmap.mem_keys, hcasts.keys]
    exact Finmap.mem_insert
  have hvotes : ∀ tx a, a ∈ (f'.votesOf b.reference tx).votes ↔ store.Votes b tx a := by
    intro tx a
    rw [hcasts.votes, votesOf_setVotes, if_pos rfl, SignedStore.votes_iff]
    refine (or_iff_left (Finset.notMem_empty a)).trans (or_congr_right ?_)
    refine exists_congr fun p => and_congr_right fun hp => ?_
    obtain ⟨c, hc, rfl⟩ := hclosed b hb p hp
    rw [h.voters c hc (hincludes _ hp)]
    refine ⟨fun hv => ⟨c, hc, rfl, hv⟩, fun hvotes => ?_⟩
    obtain ⟨d, hd, href, hv⟩ := hvotes
    exact BlockStore.eq_of_reference hd hc href ▸ hv
  refine ⟨f', hf', ⟨hinv, fun c hc hcin tx a => ?_, fun c hc tx => ?_⟩, fun r hr => ?_,
    (hmem _).mpr (.inl rfl)⟩
  · by_cases hcb : c.reference = b.reference
    · obtain rfl : c = b := BlockStore.eq_of_reference hc hb hcb
      exact hvotes tx a
    · have hold := ((hmem _).mp hcin).resolve_left hcb
      rw [votesOf, hcasts.others _ hcb, lookup_setVotes, if_neg hcb]
      exact h.voters c hc hold tx a
  · rw [hcasts.certificates, hmem]
    have hold := h.certificates c hc tx
    by_cases hcb : c.reference = b.reference
    · obtain rfl : c = b := BlockStore.eq_of_reference hc hb hcb
      have hstake := (hinv.votes c.reference tx).stake_eq (hvotes tx)
      have hcast : committee.isQuorum (f'.votesOf c.reference tx).stake = true →
          ∃ a, (∃ p ∈ (store.signed c).statements.zipIdx, ∃ x ∈ (store.signed c).ballots p,
            tx = x ∧ a = c.author) ∨ ∃ p ∈ c.includes, a ∈ (f.votesOf p tx).votes := fun hq => by
        obtain ⟨a, ha⟩ := (hinv.votes c.reference tx).exists_vote hq
        rw [hcasts.votes, votesOf_setVotes, if_pos rfl] at ha
        exact ⟨a, ha.resolve_right (Finset.notMem_empty a)⟩
      rw [SignedStore.Certifies, ← hstake]
      have hnot : c.reference ∉ f.certificatesOf tx := fun hmem => hin (hold.mp hmem).1
      exact ⟨fun hcert => ⟨.inl rfl, (hcert.resolve_left hnot).2.2⟩,
        fun hcert => .inr ⟨hcast hcert.2.2, rfl, hcert.2⟩⟩
    · rw [or_iff_left fun hcert => hcb hcert.2.1, or_iff_right hcb]
      exact hold
  · exact (hmem r).mpr (.inr hr)

theorem processRounds_exact (hlower : ∀ b ∈ store.store.blocks, ∀ p ∈ b.includes, p.round < b.round)
    (orders : InterpreterOrders) : ∃ f, processRounds committee orders store = some f ∧
      Exact committee store f ∧ ∀ b ∈ store.store.blocks, b.reference ∈ f.transactionAggregator := by
  have hnew : Exact committee store new :=
    ⟨inv_new, fun _ _ hmem => absurd hmem Finmap.notMem_empty, fun b _ tx =>
      iff_of_false (Finset.notMem_empty b.reference) fun hmem => absurd hmem.1 Finmap.notMem_empty⟩
  refine processRounds_rule orders hnew fun f b hb h hdone => ?_
  obtain ⟨fuel, hfuel⟩ : ∃ fuel, store.store.index.keys.card = fuel + 1 :=
    Nat.exists_eq_succ_of_ne_zero (Finset.card_ne_zero_of_mem
      (Finmap.mem_keys.mpr (BlockStore.mem_index_iff.mpr ⟨b, hb, rfl⟩)))
  rw [hfuel]
  refine h.processBlock hclosed hknown hb fun p hp => ?_
  obtain ⟨c, hc, rfl⟩ := hclosed b hb p hp
  exact hdone c hc (hlower b hb c.reference hp)

end FinalizationInterpreter

open FinalizationInterpreter in
/-- The interpreter returns the transactions whose certifying blocks have authors with a quorum, each
with all of its certifying blocks, in every order of its hash maps. -/
theorem finalizedTxCertifyingBlocks_exact {committee : Committee} {store : SignedStore}
    (hclosed : Closed store.store.blocks)
    (hknown : ∀ b ∈ store.store.blocks, committee.knownAuthority b.author)
    (hlower : ∀ b ∈ store.store.blocks, ∀ p ∈ b.includes, p.round < b.round)
    (orders : InterpreterOrders) :
    ∃ result, finalizedTxCertifyingBlocks committee orders store = some result ∧
      (∀ tx certificates, (tx, certificates) ∈ result ↔
        store.Finalized committee tx ∧ certificates = store.certifying committee tx) ∧
      ∀ orders', ∃ result', finalizedTxCertifyingBlocks committee orders' store = some result' ∧
        result'.Perm result := by
  have hauthor : ∀ b ∈ store.store.blocks, b.author ∈ Finset.range committee.len :=
    fun b hb => Committee.knownAuthority_iff.mp (hknown b hb)
  have hexact : ∀ orders, ∃ result, finalizedTxCertifyingBlocks committee orders store = some result ∧
      result.Nodup ∧ ∀ tx certificates, (tx, certificates) ∈ result ↔
        store.Finalized committee tx ∧ certificates = store.certifying committee tx := by
    intro orders
    obtain ⟨f, hf, h, hall⟩ := processRounds_exact hclosed hauthor hlower orders
    refine ⟨_, by rw [finalizedTxCertifyingBlocks, hf]; rfl,
      (orders.certificates.nodup_entries _).filter _, fun tx certificates => ?_⟩
    have hcertificates : f.certificatesOf tx = store.certifying committee tx := by
      ext r
      simp only [SignedStore.certifying, Finset.mem_filter]
      constructor
      · intro hr
        obtain ⟨b, hb, rfl, -⟩ := h.unmarked tx r hr
        exact ⟨Finmap.mem_keys.mpr (BlockStore.mem_index_iff.mpr ⟨b, hb, rfl⟩), b, hb, rfl,
          ((h.certificates b hb tx).mp hr).2⟩
      · rintro ⟨-, b, hb, rfl, hcert⟩
        exact (h.certificates b hb tx).mpr ⟨hall b hb, hcert⟩
    have hfinalized : tx ∈ f.finalizedTransactions ↔ store.Finalized committee tx := by
      rw [h.finalized, SignedStore.Finalized, (h.counted tx).stake_eq fun a => ?_]
      rw [h.certified]
      constructor
      · rintro ⟨r, hr, rfl⟩
        obtain ⟨b, hb, rfl, -⟩ := h.unmarked tx r hr
        exact ⟨b, hb, rfl, ((h.certificates b hb tx).mp hr).2⟩
      · rintro ⟨b, hb, rfl, hcert⟩
        exact ⟨b.reference, (h.certificates b hb tx).mpr ⟨hall b hb, hcert⟩, rfl⟩
    rw [List.mem_filter, orders.certificates.mem_entries, decide_eq_true_iff, ← hfinalized,
      ← hcertificates, and_comm]
    refine and_congr_right fun hfin => ?_
    -- A finalized transaction has a certificate, so it is in the map.
    obtain ⟨a, ha⟩ := (h.counted tx).exists_vote ((h.finalized tx).mp hfin)
    obtain ⟨r, hr, -⟩ := (h.certified tx a).mp ha
    unfold certificatesOf at hr ⊢
    cases hlookup : f.transactionCertificates.lookup tx with
    | none => simp [hlookup] at hr
    | some found => simp [eq_comm]
  obtain ⟨result, hresult, hnodup, hmem⟩ := hexact orders
  refine ⟨result, hresult, hmem, fun orders' => ?_⟩
  obtain ⟨result', hresult', hnodup', hmem'⟩ := hexact orders'
  refine ⟨result', hresult', (List.perm_ext_iff_of_nodup hnodup' hnodup).mpr fun p => ?_⟩
  exact (hmem' p.1 p.2).trans (hmem p.1 p.2).symm

theorem epochStore_exact : epochStore.Finalized TransactionAggregator.fourVoters ⟨⟨0, 1, 0⟩, 0⟩ := by
  have hlower : ∀ b ∈ epochBlocks, ∀ p ∈ b.includes, p.round < b.round := by decide +kernel
  obtain ⟨result, hresult, hmem, -⟩ := finalizedTxCertifyingBlocks_exact epochStore_closed
    epochStore_known (fun b hb => hlower b (mem_epochStore.mp hb)) sortedOrders
  rw [epochStore_result] at hresult
  cases hresult
  exact ((hmem _ _).mp List.mem_cons_self).1

end CongestionControl.Mysticeti
