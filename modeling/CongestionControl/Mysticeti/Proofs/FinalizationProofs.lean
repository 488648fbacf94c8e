import CongestionControl.Lib.Transition
import CongestionControl.Mysticeti.FinalizationInterpreter
import CongestionControl.Mysticeti.Proofs.BaseCommitterProofs
import CongestionControl.Mysticeti.Proofs.TransactionAggregatorProofs

/-!
# Finalized transactions and the end of the epoch

A finalized transaction has unmarked certifying blocks of a quorum. If a quorum has marked blocks that
are committed, a correct authority has both, and its certifying block is before the marked one.
-/

namespace CongestionControl.Mysticeti

namespace SignedStore

variable (s : SignedStore) (b : StatementBlock)

@[simp] theorem signed_reference : (s.signed b).reference = b.reference :=
  congrArg StatementBlock.reference (s.toStatementBlock_signed b)

@[simp] theorem signed_includes : (s.signed b).includes = b.includes :=
  congrArg StatementBlock.includes (s.toStatementBlock_signed b)

@[simp] theorem signed_author : (s.signed b).author = b.author :=
  congrArg StatementBlock.author (s.toStatementBlock_signed b)

end SignedStore

/-! ## What the interpreter keeps -/

namespace StakeAggregator

variable {committee : Committee} {agg agg' : StakeAggregator}

theorem Counts.isQuorum_mono (h : agg.Counts committee) (h' : agg'.Counts committee)
    (hsub : agg.votes ⊆ agg'.votes) (hq : committee.isQuorum agg.stake = true) :
    committee.isQuorum agg'.stake = true := by
  have hle : agg.stake ≤ agg'.stake := by
    rw [h.stake, h'.stake]
    exact Finset.sum_le_sum_of_subset hsub
  have hlt : committee.quorumThreshold < agg.stake := of_decide_eq_true hq
  exact decide_eq_true (hlt.trans_le hle)

end StakeAggregator

namespace FinalizationInterpreter

def certificatesOf (f : FinalizationInterpreter) (tx : TransactionLocator) : Finset BlockReference :=
  (f.transactionCertificates.lookup tx).getD ∅

def certifiersOf (f : FinalizationInterpreter) (tx : TransactionLocator) : StakeAggregator :=
  (f.certificateAggregator.lookup tx).getD .new

def votesOf (f : FinalizationInterpreter) (r : BlockReference) (tx : TransactionLocator) :
    StakeAggregator :=
  (((f.transactionAggregator.lookup r).getD ∅).lookup tx).getD .new

/-- The aggregators count known authorities, certificates are unmarked blocks of the store, and their
authors are counted. -/
structure Inv (committee : Committee) (store : SignedStore) (f : FinalizationInterpreter) : Prop where
  stored : ∀ r ∈ f.transactionAggregator, r ∈ store.store.index
  votes : ∀ r tx, (f.votesOf r tx).Counts committee
  counted : ∀ tx, (f.certifiersOf tx).Counts committee
  certified : ∀ tx a, a ∈ (f.certifiersOf tx).votes ↔ ∃ r ∈ f.certificatesOf tx, r.authority = a
  unmarked : ∀ tx, ∀ r ∈ f.certificatesOf tx,
    ∃ b ∈ store.store.blocks, b.reference = r ∧ ¬ (store.signed b).epochChanged
  finalized : ∀ tx, tx ∈ f.finalizedTransactions ↔
    committee.isQuorum (f.certifiersOf tx).stake = true

variable {committee : Committee} {orders : InterpreterOrders} {store : SignedStore}
  {f f' f'' : FinalizationInterpreter} {b : StatementBlock} {tx : TransactionLocator}
  {a : AuthorityIndex} {r : BlockReference} {agg : StakeAggregator} {isQuorum : Bool}

theorem inv_new : Inv committee store new where
  stored _ h := absurd h Finmap.notMem_empty
  votes _ _ := StakeAggregator.counts_new
  counted _ := StakeAggregator.counts_new
  certified _ _ := by simp [new, certifiersOf, certificatesOf, StakeAggregator.new]
  unmarked _ _ h := by simp [new, certificatesOf] at h
  finalized _ := by simp [new, certifiersOf, StakeAggregator.new, Committee.isQuorum]

def setVotes (f : FinalizationInterpreter) (r : BlockReference) (votes : TransactionVotes) :
    FinalizationInterpreter :=
  { f with transactionAggregator := f.transactionAggregator.insert r votes }

theorem lookup_setVotes (votes : TransactionVotes) (r' : BlockReference) :
    (f.setVotes r votes).transactionAggregator.lookup r' =
      if r' = r then some votes else f.transactionAggregator.lookup r' := by
  show (f.transactionAggregator.insert r votes).lookup r' = _
  split_ifs with h
  · rw [h, Finmap.lookup_insert]
  · rw [Finmap.lookup_insert_of_ne _ h]

theorem votesOf_setVotes (votes : TransactionVotes) (r' : BlockReference) :
    (f.setVotes r votes).votesOf r' tx =
      if r' = r then (votes.lookup tx).getD .new else f.votesOf r' tx := by
  rw [votesOf, lookup_setVotes]
  split_ifs
  · rfl
  · rfl

theorem Inv.setVotes (h : Inv committee store f) {votes : TransactionVotes}
    (hr : r ∈ store.store.index) (hvotes : ∀ tx, ((votes.lookup tx).getD .new).Counts committee) :
    Inv committee store (f.setVotes r votes) :=
  { h with
    stored := by
      intro r' hr'
      rcases Finmap.mem_insert.mp hr' with rfl | hold
      · exact hr
      · exact h.stored r' hold
    votes := by
      intro r' tx
      rw [votesOf_setVotes]
      split_ifs
      · exact hvotes tx
      · exact h.votes r' tx }

theorem Inv.clearVotes (h : Inv committee store f) (hr : r ∈ store.store.index) :
    Inv committee store (f.setVotes r ∅) :=
  h.setVotes hr fun _ => StakeAggregator.counts_new

def withCertificate (f : FinalizationInterpreter) (r : BlockReference) (tx : TransactionLocator)
    (agg : StakeAggregator) (isQuorum : Bool) : FinalizationInterpreter :=
  { f with
    transactionCertificates := f.transactionCertificates.insert tx (insert r (f.certificatesOf tx))
    certificateAggregator := f.certificateAggregator.insert tx agg
    finalizedTransactions :=
      if isQuorum then insert tx f.finalizedTransactions else f.finalizedTransactions }

theorem certificatesOf_withCertificate (tx' : TransactionLocator) :
    (f.withCertificate r tx agg isQuorum).certificatesOf tx' =
      if tx' = tx then insert r (f.certificatesOf tx) else f.certificatesOf tx' := by
  show ((f.transactionCertificates.insert tx _).lookup tx').getD ∅ = _
  split_ifs with h
  · rw [h, Finmap.lookup_insert]
    rfl
  · rw [Finmap.lookup_insert_of_ne _ h]
    rfl

theorem certifiersOf_withCertificate (tx' : TransactionLocator) :
    (f.withCertificate r tx agg isQuorum).certifiersOf tx' =
      if tx' = tx then agg else f.certifiersOf tx' := by
  show ((f.certificateAggregator.insert tx agg).lookup tx').getD .new = _
  split_ifs with h
  · rw [h, Finmap.lookup_insert]
    rfl
  · rw [Finmap.lookup_insert_of_ne _ h]
    rfl

theorem Inv.withCertificate (h : Inv committee store f) (hb : b ∈ store.store.blocks)
    (hmark : ¬ (store.signed b).epochChanged) (hagg : agg.Counts committee)
    (hvotes : ∀ x, x ∈ agg.votes ↔ x = b.author ∨ x ∈ (f.certifiersOf tx).votes) :
    Inv committee store
      (f.withCertificate b.reference tx agg (committee.isQuorum agg.stake)) where
  stored := h.stored
  votes := h.votes
  counted tx' := by
    rw [certifiersOf_withCertificate]
    split_ifs
    · exact hagg
    · exact h.counted tx'
  certified tx' a := by
    rw [certifiersOf_withCertificate, certificatesOf_withCertificate]
    split_ifs
    · rw [hvotes, Finset.exists_mem_insert, h.certified tx]
      exact or_congr_left eq_comm
    · exact h.certified tx' a
  unmarked tx' r hr := by
    rw [certificatesOf_withCertificate] at hr
    split_ifs at hr with htx
    · rcases Finset.mem_insert.mp hr with rfl | hold
      · exact ⟨b, hb, rfl, hmark⟩
      · exact h.unmarked tx r hold
    · exact h.unmarked tx' r hr
  finalized tx' := by
    have hmem : tx' ∈ (f.withCertificate b.reference tx agg
        (committee.isQuorum agg.stake)).finalizedTransactions ↔
        (tx' = tx ∧ committee.isQuorum agg.stake = true) ∨ tx' ∈ f.finalizedTransactions := by
      unfold FinalizationInterpreter.withCertificate
      split_ifs with hq <;> simp [hq]
    rw [hmem, certifiersOf_withCertificate, h.finalized]
    split_ifs with htx
    · -- A transaction that was finalized before stays so: the votes only grow.
      refine ⟨fun hq => hq.elim And.right fun hold => ?_, fun hq => .inl ⟨htx, hq⟩⟩
      rw [htx] at hold
      exact (h.counted tx).isQuorum_mono hagg (fun x hx => (hvotes x).mpr (.inr hx)) hold
    · exact or_iff_right fun hq => htx hq.1

theorem keys_insert_of_mem {m : HashMap BlockReference TransactionVotes} (h : r ∈ m)
    (votes : TransactionVotes) : (m.insert r votes).keys = m.keys := by
  ext r'
  rw [Finmap.mem_keys, Finmap.mem_insert]
  exact or_iff_right_of_imp fun he => he ▸ h

/-! ## What votes do -/

/-- The votes `S` are cast in a block. It becomes a certificate of the transactions among them that
then have a quorum. -/
structure Casts (committee : Committee) (store : SignedStore) (b : StatementBlock)
    (S : TransactionLocator → AuthorityIndex → Prop) (f f' : FinalizationInterpreter) : Prop where
  keys : f'.transactionAggregator.keys = f.transactionAggregator.keys
  others : ∀ r, r ≠ b.reference →
    f'.transactionAggregator.lookup r = f.transactionAggregator.lookup r
  votes : ∀ tx a, a ∈ (f'.votesOf b.reference tx).votes ↔
    S tx a ∨ a ∈ (f.votesOf b.reference tx).votes
  certificates : ∀ tx r, r ∈ f'.certificatesOf tx ↔ r ∈ f.certificatesOf tx ∨ (∃ a, S tx a) ∧
    r = b.reference ∧ ¬ (store.signed b).epochChanged ∧
    committee.isQuorum (f'.votesOf b.reference tx).stake = true

variable {S S' : TransactionLocator → AuthorityIndex → Prop}

theorem casts_none (f : FinalizationInterpreter) : Casts committee store b (fun _ _ => False) f f where
  keys := rfl
  others _ _ := rfl
  votes _ _ := Iff.symm (or_iff_right id)
  certificates _ _ := (or_iff_left fun h => h.1.elim fun _ => id).symm

theorem Casts.trans (h : Casts committee store b S f f') (h' : Casts committee store b S' f' f'')
    (hinv : Inv committee store f') (hinv' : Inv committee store f'') :
    Casts committee store b (fun tx a => S tx a ∨ S' tx a) f f'' where
  keys := h'.keys.trans h.keys
  others r hr := (h'.others r hr).trans (h.others r hr)
  votes tx a := by
    rw [h'.votes, h.votes]
    tauto
  certificates tx r := by
    rw [h'.certificates, h.certificates, exists_or]
    have hmono := (hinv.votes b.reference tx).isQuorum_mono (hinv'.votes b.reference tx) fun a ha =>
      (h'.votes tx a).mpr (.inr ha)
    have hsame : (¬ ∃ a, S' tx a) → committee.isQuorum (f''.votesOf b.reference tx).stake = true →
        committee.isQuorum (f'.votesOf b.reference tx).stake = true := fun hnone =>
      (hinv'.votes b.reference tx).isQuorum_mono (hinv.votes b.reference tx) fun a ha =>
        ((h'.votes tx a).mp ha).resolve_left fun hS => hnone ⟨a, hS⟩
    tauto

/-- A step of the interpreter that casts votes in a block does not fail. -/
def Steps (committee : Committee) (store : SignedStore) (b : StatementBlock)
    (S : TransactionLocator → AuthorityIndex → Prop) (f : FinalizationInterpreter)
    (result : Option FinalizationInterpreter) : Prop :=
  ∃ f', result = some f' ∧ Inv committee store f' ∧ Casts committee store b S f f'

theorem Inv.certify (h : Inv committee store f) (tx : TransactionLocator) (hb : b ∈ store.store.blocks)
    (hknown : b.author ∈ Finset.range committee.len) (hmark : ¬ (store.signed b).epochChanged) :
    ∃ f', f.certify committee (store.signed b) tx = some f' ∧ Inv committee store f' ∧
      f'.transactionAggregator = f.transactionAggregator ∧ ∀ tx', f'.certificatesOf tx' =
        if tx' = tx then insert b.reference (f.certificatesOf tx) else f.certificatesOf tx' := by
  obtain ⟨agg, hadd, hagg, hvotes⟩ := StakeAggregator.add_eq (h.counted tx) hknown
  refine ⟨f.withCertificate b.reference tx agg (committee.isQuorum agg.stake), ?_,
    h.withCertificate hb hmark hagg hvotes, rfl, certificatesOf_withCertificate⟩
  unfold certifiersOf at hadd
  simp only [FinalizationInterpreter.certify, SignedStore.signed_author, hadd,
    SignedStore.signed_reference]
  rfl

/-- A block that the interpreter is working on. -/
structure Open (committee : Committee) (store : SignedStore) (b : StatementBlock)
    (f : FinalizationInterpreter) : Prop extends Inv committee store f where
  block : b ∈ store.store.blocks
  author : b.author ∈ Finset.range committee.len
  entered : b.reference ∈ f.transactionAggregator

section

variable (h : Open committee store b f)

include h

theorem Open.of_keys (hinv : Inv committee store f')
    (hkeys : f'.transactionAggregator.keys = f.transactionAggregator.keys) :
    Open committee store b f' where
  toInv := hinv
  block := h.block
  author := h.author
  entered := by
    have := h.entered
    rw [← Finmap.mem_keys] at this ⊢
    rwa [hkeys]

theorem Open.foldlM {ι : Type} {g : FinalizationInterpreter → ι → Option FinalizationInterpreter}
    {l : List ι} {S : ι → TransactionLocator → AuthorityIndex → Prop}
    (hstep : ∀ x ∈ l, ∀ f', Open committee store b f' → (∀ r, r ≠ b.reference →
      f'.transactionAggregator.lookup r = f.transactionAggregator.lookup r) →
      Steps committee store b (S x) f' (g f' x)) :
    Steps committee store b (fun tx a => ∃ x ∈ l, S x tx a) f (l.foldlM g f) := by
  induction l generalizing f with
  | nil => exact ⟨f, rfl, h.toInv, by simpa using casts_none f⟩
  | cons x l ih =>
    obtain ⟨f₁, hf₁, hinv₁, hcasts₁⟩ := hstep x List.mem_cons_self f h fun _ _ => rfl
    obtain ⟨f₂, hf₂, hinv₂, hcasts₂⟩ := ih (h.of_keys hinv₁ hcasts₁.keys)
      fun y hy f' hopen hothers => hstep y (List.mem_cons_of_mem x hy) f' hopen fun r hr =>
        (hothers r hr).trans (hcasts₁.others r hr)
    refine ⟨f₂, by rw [List.foldlM_cons, hf₁]; exact hf₂, hinv₂, ?_⟩
    simpa using hcasts₁.trans hcasts₂ hinv₁ hinv₂

theorem Open.vote (tx : TransactionLocator) (ha : a ∈ Finset.range committee.len) :
    Steps committee store b (fun tx' a' => tx' = tx ∧ a' = a) f
      (f.vote committee (store.signed b) tx a) := by
  obtain ⟨votes, hvotes⟩ := Finmap.mem_iff.mp h.entered
  have hof : ∀ tx', f.votesOf b.reference tx' = (votes.lookup tx').getD .new := fun tx' => by
    rw [votesOf, hvotes]
    rfl
  obtain ⟨agg, hadd, hagg, hmem⟩ := StakeAggregator.add_eq (h.votes b.reference tx) ha
  have hnew : ∀ tx', ((votes.insert tx agg).lookup tx').getD .new =
      if tx' = tx then agg else f.votesOf b.reference tx' := by
    intro tx'
    split_ifs with htx
    · rw [htx, Finmap.lookup_insert]
      rfl
    · rw [Finmap.lookup_insert_of_ne _ htx, hof]
  have hinv : Inv committee store (f.setVotes b.reference (votes.insert tx agg)) := by
    refine h.toInv.setVotes (h.stored _ h.entered) fun tx' => ?_
    rw [hnew]
    split_ifs
    · exact hagg
    · exact h.votes b.reference tx'
  have hcasts : ∀ f' : FinalizationInterpreter, f'.transactionAggregator =
      f.transactionAggregator.insert b.reference (votes.insert tx agg) →
      (∀ tx' r, r ∈ f'.certificatesOf tx' ↔ r ∈ f.certificatesOf tx' ∨ tx' = tx ∧ r = b.reference ∧
        ¬ (store.signed b).epochChanged ∧ committee.isQuorum agg.stake = true) →
      Casts committee store b (fun tx' a' => tx' = tx ∧ a' = a) f f' := by
    intro f' htable hcertificates
    have hvotes' : ∀ tx', f'.votesOf b.reference tx' =
        if tx' = tx then agg else f.votesOf b.reference tx' := fun tx' => by
      rw [← hnew, votesOf, htable, Finmap.lookup_insert]
      rfl
    refine ⟨htable ▸ keys_insert_of_mem h.entered _, fun r hr => ?_, fun tx' a' => ?_,
      fun tx' r => ?_⟩
    · rw [htable, Finmap.lookup_insert_of_ne _ hr]
    · rw [hvotes']
      split_ifs with htx
      · rw [hmem, htx, and_iff_right rfl]
      · exact (or_iff_right fun hx => htx hx.1).symm
    · rw [hcertificates, hvotes']
      split_ifs with htx <;> simp [htx]
  unfold FinalizationInterpreter.vote
  rw [SignedStore.signed_reference, hvotes]
  show Steps committee store b _ f ((((votes.lookup tx).getD .new).add a committee).bind _)
  rw [← hof, hadd]
  show Steps committee store b _ f (if _ then _ else _)
  split_ifs with hq
  · obtain ⟨f', hf', hinv', htable, hcertificates⟩ := hinv.certify tx h.block h.author hq.2
    refine ⟨f', hf', hinv', hcasts f' htable fun tx' r => ?_⟩
    rw [hcertificates]
    split_ifs with htx
    · rw [Finset.mem_insert, htx, or_comm]
      exact or_congr_right ⟨fun hr => ⟨rfl, hr, hq.2, hq.1⟩, fun hr => hr.2.1⟩
    · exact (or_iff_left fun hr => htx hr.1).symm
  · exact ⟨_, rfl, hinv, hcasts _ rfl fun tx' r =>
      (or_iff_left fun hr => hq ⟨hr.2.2.2, hr.2.2.1⟩).symm⟩

theorem Open.voteStatement (p : BaseStatement × Nat) :
    Steps committee store b (fun tx a => ∃ x ∈ (store.signed b).ballots p, tx = x ∧ a = b.author) f
      (voteStatement committee (store.signed b) f p) := by
  have hballots : FinalizationInterpreter.voteStatement committee (store.signed b) f p =
      ((store.signed b).ballots p).foldlM (fun f tx =>
        f.vote committee (store.signed b) tx (store.signed b).author) f := by
    rcases p with ⟨⟨⟩ | ⟨_, _ | _⟩ | _, _⟩ <;> first | rfl | exact (bind_pure _).symm
  rw [hballots, SignedStore.signed_author]
  exact h.foldlM fun tx _ f hf _ => hf.vote tx h.author

theorem Open.voteParent (orders : InterpreterOrders) {parent : BlockReference}
    (hparent : parent ∈ f.transactionAggregator) :
    Steps committee store b (fun tx a => a ∈ (f.votesOf parent tx).votes) f
      (voteParent committee orders (store.signed b) f parent) := by
  obtain ⟨votes, hvotes⟩ := Finmap.mem_iff.mp hparent
  have hof : ∀ tx, f.votesOf parent tx = (votes.lookup tx).getD .new := fun tx => by
    rw [votesOf, hvotes]
    rfl
  have hstored := h.stored parent hparent
  have hopen := h.of_keys (h.toInv.clearVotes hstored) (keys_insert_of_mem hparent ∅)
  have hloop := hopen.foldlM (l := (orders.votes parent).entries votes)
    (g := voteAll committee (store.signed b)) fun p hp f' hf' _ =>
      hf'.foldlM fun voter hvoter f'' hf'' _ => hf''.vote p.1 (a := voter) <| by
        have hagg := h.votes parent p.1
        rw [hof, (orders.votes parent).mem_entries.mp hp] at hagg
        exact hagg.known (IterOrder.sorted.mem_toList.mp hvoter)
  have hS : (fun tx a => ∃ p ∈ (orders.votes parent).entries votes,
      ∃ voter ∈ IterOrder.sorted.toList p.2.votes, tx = p.1 ∧ a = voter) =
      fun tx a => a ∈ (f.votesOf parent tx).votes := by
    funext tx a
    rw [hof, eq_iff_iff]
    constructor
    · rintro ⟨p, hp, voter, hvoter, rfl, rfl⟩
      rw [(orders.votes parent).mem_entries.mp hp]
      exact IterOrder.sorted.mem_toList.mp hvoter
    · intro ha
      cases hlook : votes.lookup tx with
      | none => simp [hlook, StakeAggregator.new] at ha
      | some agg =>
        rw [hlook] at ha
        exact ⟨(tx, agg), (orders.votes parent).mem_entries.mpr hlook, a,
          IterOrder.sorted.mem_toList.mpr ha, rfl, rfl⟩
  rw [hS] at hloop
  obtain ⟨f₁, hf₁, hinv₁, hcasts₁⟩ := hloop
  have hmem : parent ∈ f₁.transactionAggregator := by
    rw [← Finmap.mem_keys, hcasts₁.keys, Finmap.mem_keys]
    exact Finmap.mem_insert.mpr (.inl rfl)
  have hinv := hinv₁.setVotes hstored fun tx => hof tx ▸ h.votes parent tx
  -- A block that includes itself has its own votes back in the end.
  have hsame : ∀ tx a, a ∈ (f₁.votesOf b.reference tx).votes ↔ 
      a ∈ ((f₁.setVotes parent votes).votesOf b.reference tx).votes := by
    intro tx a
    rw [votesOf_setVotes]
    split_ifs with hself
    · rw [hcasts₁.votes, votesOf_setVotes, if_pos hself, hof]
      exact or_iff_left (Finset.notMem_empty a)
    · rfl
  refine ⟨_, ?_, hinv, ?_, fun r hr => ?_, fun tx a => ?_, fun tx r => ?_⟩
  · unfold setVotes at hf₁
    simp only [FinalizationInterpreter.voteParent, hvotes, Option.bind_eq_bind, Option.bind_some, hf₁]
    rfl
  · exact ((keys_insert_of_mem hmem votes).trans hcasts₁.keys).trans (keys_insert_of_mem hparent ∅)
  · rw [lookup_setVotes, hcasts₁.others r hr, lookup_setVotes]
    split_ifs with hself
    · rw [hself, hvotes]
    · rfl
  · rw [← hsame, hcasts₁.votes, votesOf_setVotes]
    split_ifs with hself
    · rw [hself, or_self]
      exact or_iff_left (Finset.notMem_empty a)
    · rfl
  · have hstake : (f₁.votesOf b.reference tx).stake =
        ((f₁.setVotes parent votes).votesOf b.reference tx).stake := by
      rw [(hinv₁.votes _ tx).stake, (hinv.votes _ tx).stake, Finset.ext (hsame tx)]
    rw [← hstake]
    exact hcasts₁.certificates tx r

end

/-! ## Whole runs -/

def remaining (store : SignedStore) (f : FinalizationInterpreter) : Finset BlockReference :=
  store.store.index.keys \ f.transactionAggregator.keys

theorem card_remaining_le (store : SignedStore)
    (h : f.transactionAggregator.keys ⊆ f'.transactionAggregator.keys) :
    (remaining store f').card ≤ (remaining store f).card :=
  Finset.card_le_card (Finset.sdiff_subset_sdiff subset_rfl h)

theorem getBlock_eq (hb : b ∈ store.store.blocks) :
    store.getBlock b.reference = some (store.signed b) := by
  have hlook : store.store.index.lookup b.reference = some b := hb
  rw [SignedStore.getBlock, BlockStore.getBlock, hlook]
  rfl

/-- A call for a block does not fail, and the block is in the table then. Blocks are only added. -/
def Processes (committee : Committee) (store : SignedStore) (b : StatementBlock)
    (f : FinalizationInterpreter) (result : Option FinalizationInterpreter) : Prop :=
  ∃ f', result = some f' ∧ Inv committee store f' ∧
    f.transactionAggregator.keys ⊆ f'.transactionAggregator.keys ∧
    b.reference ∈ f'.transactionAggregator

theorem Inv.enter (h : Inv committee store f) (hb : b ∈ store.store.blocks)
    (hauthor : b.author ∈ Finset.range committee.len) (hin : b.reference ∉ f.transactionAggregator) :
    ∃ f₁ : FinalizationInterpreter,
      f₁ = { f with transactionAggregator := f.transactionAggregator.insert b.reference ∅ } ∧
      Open committee store b f₁ ∧
      f.transactionAggregator.keys ⊆ f₁.transactionAggregator.keys ∧
      (remaining store f₁).card < (remaining store f).card := by
  have hindex : b.reference ∈ store.store.index := BlockStore.mem_index_iff.mpr ⟨b, hb, rfl⟩
  have hentered : b.reference ∈ f.transactionAggregator.insert b.reference ∅ :=
    Finmap.mem_insert.mpr (.inl rfl)
  have hsub : f.transactionAggregator.keys ⊆ (f.transactionAggregator.insert b.reference ∅).keys := by
    intro r hr
    exact Finmap.mem_insert.mpr (.inr hr)
  refine ⟨_, rfl, ⟨h.clearVotes hindex, hb, hauthor, hentered⟩, hsub, ?_⟩
  have hmem : b.reference ∈ remaining store f :=
    Finset.mem_sdiff.mpr ⟨Finmap.mem_keys.mpr hindex, fun h => hin (Finmap.mem_keys.mp h)⟩
  apply Finset.card_lt_card
  refine (Finset.ssubset_iff_of_subset (Finset.sdiff_subset_sdiff subset_rfl hsub)).mpr
    ⟨b.reference, hmem, fun h => ?_⟩
  exact (Finset.mem_sdiff.mp h).2 (Finmap.mem_keys.mpr hentered)

theorem Open.includeParent (h : Open committee store b f) {parent : StatementBlock}
    {process : FinalizationInterpreter → SignedBlock → Option FinalizationInterpreter}
    (hparent : parent ∈ store.store.blocks)
    (hprocess : Processes committee store parent f (process f (store.signed parent))) :
    ∃ f', includeParent committee orders store process (store.signed b) f parent.reference = some f' ∧
      Open committee store b f' ∧
      f.transactionAggregator.keys ⊆ f'.transactionAggregator.keys := by
  obtain ⟨f₁, hf₁, hinv₁, hsub₁, hentered₁⟩ := hprocess
  have hopen₁ : Open committee store b f₁ :=
    ⟨hinv₁, h.block, h.author, Finmap.mem_keys.mp (hsub₁ (Finmap.mem_keys.mpr h.entered))⟩
  obtain ⟨f₂, hf₂, hinv₂, hcasts₂⟩ := hopen₁.voteParent orders hentered₁
  refine ⟨f₂, ?_, hopen₁.of_keys hinv₂ hcasts₂.keys, hsub₁.trans hcasts₂.keys.ge⟩
  simp only [FinalizationInterpreter.includeParent, getBlock_eq hparent, Option.bind_eq_bind,
    Option.bind_some, hf₁, hf₂]

/-- The rule for the loop over the rounds: when a block is processed, the blocks of lower rounds are in
the table. -/
theorem processRounds_rule (orders : InterpreterOrders) {J : FinalizationInterpreter → Prop} (hnew : J new)
    (hstep : ∀ f, ∀ b ∈ store.store.blocks, J f →
      (∀ c ∈ store.store.blocks, c.round < b.round → c.reference ∈ f.transactionAggregator) →
      ∃ f', processBlock committee orders store (store.store.index.keys.card + 1) f (store.signed b) =
        some f' ∧ J f' ∧ f.transactionAggregator.keys ⊆ f'.transactionAggregator.keys ∧
        b.reference ∈ f'.transactionAggregator) :
    ∃ f, processRounds committee orders store = some f ∧ J f ∧
      ∀ b ∈ store.store.blocks, b.reference ∈ f.transactionAggregator := by
  have hround : ∀ (round : RoundNumber) (f : FinalizationInterpreter), J f →
      (∀ c ∈ store.store.blocks, c.round < round → c.reference ∈ f.transactionAggregator) →
      ∃ f', (store.getBlocksByRound orders.blocks round).foldlM
        (processBlock committee orders store (store.store.index.keys.card + 1)) f = some f' ∧ J f' ∧
        ∀ c ∈ store.store.blocks, c.round < round + 1 → c.reference ∈ f'.transactionAggregator := by
    intro round f hJ hlower
    have hloop := Transition.foldlM_rest (l := store.getBlocksByRound orders.blocks round)
      (f := processBlock committee orders store (store.store.index.keys.card + 1))
      (I := fun rest f => J f ∧
        (∀ block ∈ rest, ∃ b ∈ store.store.blocks, b.round = round ∧ store.signed b = block) ∧
        ∀ c ∈ store.store.blocks, c.round < round ∨ c.round = round ∧ store.signed c ∉ rest →
          c.reference ∈ f.transactionAggregator) ?_ ⟨hJ, fun block hblock => ?_, fun c hc hcase => ?_⟩
    · obtain ⟨f', hf', hJ', -, hdone⟩ := hloop
      exact ⟨f', hf', hJ', fun c hc hlt => hdone c hc <|
        (Nat.lt_succ_iff_lt_or_eq.mp hlt).imp_right fun heq => ⟨heq, List.not_mem_nil⟩⟩
    · rintro block rest f ⟨hJ, hrest, hdone⟩
      obtain ⟨b, hb, rfl, rfl⟩ := hrest block List.mem_cons_self
      obtain ⟨f', hf', hJ', hsub, hmem⟩ := hstep f b hb hJ fun c hc hlt => hdone c hc (.inl hlt)
      refine ⟨f', hf', hJ', fun x hx => hrest x (List.mem_cons_of_mem _ hx), fun c hc hcase => ?_⟩
      by_cases hcb : c = b
      · exact hcb ▸ hmem
      · refine Finmap.mem_keys.mp (hsub (Finmap.mem_keys.mpr (hdone c hc (hcase.imp_right ?_))))
        refine And.imp_right fun hnot hcons => (List.mem_cons.mp hcons).elim (fun heq => hcb ?_) hnot
        rw [← store.toStatementBlock_signed c, heq, store.toStatementBlock_signed]
    · obtain ⟨b, hb, rfl⟩ := List.mem_map.mp hblock
      obtain ⟨hb, hr⟩ := BlockStore.mem_getBlocksByRound.mp hb
      exact ⟨b, hb, hr, rfl⟩
    · refine hcase.elim (hlower c hc) fun h => absurd ?_ h.2
      exact List.mem_map_of_mem (BlockStore.mem_getBlocksByRound.mpr ⟨hc, h.1⟩)
  have hrounds : ∀ n, ∃ f, (List.range n).foldlM (fun f round =>
      (store.getBlocksByRound orders.blocks round).foldlM
        (processBlock committee orders store (store.store.index.keys.card + 1)) f) new = some f ∧ J f ∧
      ∀ c ∈ store.store.blocks, c.round < n → c.reference ∈ f.transactionAggregator := by
    intro n
    induction n with
    | zero => exact ⟨new, rfl, hnew, fun _ _ hlt => absurd hlt (Nat.not_lt_zero _)⟩
    | succ n ih =>
      obtain ⟨f, hf, hJ, hdone⟩ := ih
      obtain ⟨f', hf', hJ', hdone'⟩ := hround n f hJ hdone
      refine ⟨f', ?_, hJ', hdone'⟩
      rw [List.range_succ, List.foldlM_append, hf]
      simpa using hf'
  obtain ⟨f, hf, hJ, hdone⟩ := hrounds (store.store.highestRound + 1)
  exact ⟨f, hf, hJ, fun b hb => hdone b hb (Nat.lt_succ_of_le (BlockStore.round_le_highestRound hb))⟩

variable (hclosed : Closed store.store.blocks)
  (hknown : ∀ b ∈ store.store.blocks, b.author ∈ Finset.range committee.len)

include hclosed hknown

/-- Induction on the fuel: every call that goes on leaves one block less to the calls inside. -/
theorem Inv.processBlock (orders : InterpreterOrders) {fuel : Nat} (h : Inv committee store f)
    (hb : b ∈ store.store.blocks) (hfuel : (remaining store f).card < fuel) :
    Processes committee store b f (processBlock committee orders store fuel f (store.signed b)) := by
  induction fuel generalizing f b with
  | zero => exact absurd hfuel (Nat.not_lt_zero _)
  | succ fuel ih =>
    rw [FinalizationInterpreter.processBlock, SignedStore.signed_reference]
    by_cases hin : b.reference ∈ f.transactionAggregator
    · rw [if_pos hin]
      exact ⟨f, rfl, h, subset_rfl, hin⟩
    · rw [if_neg hin]
      obtain ⟨f₁, hf₁, hopen₁, hsub₁, hless⟩ := h.enter hb (hknown b hb) hin
      obtain ⟨f₂, hf₂, hinv₂, hcasts₂⟩ :=
        hopen₁.foldlM (l := (store.signed b).statements.zipIdx) fun p _ f hf _ => hf.voteStatement p
      have hloop := Transition.foldlM_rest (l := b.includes) (b := f₂)
        (f := FinalizationInterpreter.includeParent committee orders store
          (FinalizationInterpreter.processBlock committee orders store fuel) (store.signed b))
        (I := fun rest f' => (∀ p ∈ rest, p ∈ b.includes) ∧ Open committee store b f' ∧
          f₁.transactionAggregator.keys ⊆ f'.transactionAggregator.keys) ?_
        ⟨fun p hp => hp, hopen₁.of_keys hinv₂ hcasts₂.keys, hcasts₂.keys.ge⟩
      · obtain ⟨f₃, hf₃, -, hopen₃, hsub₃⟩ := hloop
        refine ⟨f₃, ?_, hopen₃.toInv, hsub₁.trans hsub₃, hopen₃.entered⟩
        rw [SignedStore.signed_includes, ← hf₁]
        simp only [Option.bind_eq_bind, hf₂, Option.bind_some, hf₃]
      · rintro p rest f₃ ⟨hrest, hopen₃, hsub₃⟩
        obtain ⟨parent, hparent, rfl⟩ := hclosed b hb p (hrest p List.mem_cons_self)
        have hcard := card_remaining_le store hsub₃
        obtain ⟨f₄, hf₄, hopen₄, hsub₄⟩ :=
          hopen₃.includeParent hparent (ih hopen₃.toInv hparent (by omega))
        exact ⟨f₄, hf₄, fun q hq => hrest q (List.mem_cons_of_mem _ hq), hopen₄, hsub₃.trans hsub₄⟩

omit hclosed hknown

theorem Inv.quorum (h : Inv committee store f) (htotal : committee.totalStake < 2 ^ 63)
    (htx : tx ∈ f.finalizedTransactions) :
    committee.HasQuorum fun a => ∃ b ∈ store.store.blocks, b.author = a ∧
      b.reference ∈ f.certificatesOf tx ∧ ¬ (store.signed b).epochChanged := by
  have hquorum := ((h.counted tx).isQuorum_iff htotal).mp ((h.finalized tx).mp htx)
  refine hquorum.mono fun a ha => ?_
  obtain ⟨r, hr, hra⟩ := (h.certified tx a).mp ha
  obtain ⟨b, hb, rfl, hmark⟩ := h.unmarked tx r hr
  exact ⟨b, hb, hra, hr, hmark⟩

end FinalizationInterpreter

/-! ## The end of the epoch -/

variable {b : StatementBlock}

/-- The earlier blocks of a correct authority are in every closed set with a later one. Induction
along the chain of its blocks: each first includes the one before. -/
theorem SignedStore.BehavesAsCore.mem_of_earlier {store : SignedStore} {a : AuthorityIndex}
    (h : store.BehavesAsCore a) {committed : Set StatementBlock}
    (hsub : committed ⊆ store.store.blocks) (hclosed : Closed committed) {c : StatementBlock}
    (hb : b ∈ committed) (hba : b.author = a) (hc : c ∈ store.store.blocks) (hca : c.author = a)
    (hround : c.round < b.round) : c ∈ committed := by
  induction hn : b.round using Nat.strong_induction_on generalizing b with
  | _ n ih =>
    obtain ⟨prev, hprev, hpa, hlt, hhead, hbetween⟩ :=
      h.previous b (hsub hb) hba (Nat.ne_zero_of_lt hround)
    obtain ⟨prev', hprev', href⟩ := hclosed b hb prev.reference (List.mem_of_mem_head? hhead)
    obtain rfl : prev' = prev := BlockStore.eq_of_reference (hsub hprev') hprev href
    rcases (hbetween c hc hca hround).lt_or_eq with hbefore | hsame
    · exact ih prev'.round (hn ▸ hlt) hprev' hpa hbefore rfl
    · rwa [h.oneBlock c hc prev' hprev hca hpa hsame]

open FinalizationInterpreter in
/-- Every finalized transaction has a certifying block that is committed when the epoch closes. -/
theorem finalized_committed {committee : Committee} (orders : InterpreterOrders)
    {store : SignedStore} (htotal : committee.totalStake < 2 ^ 63)
    (hclosed : Closed store.store.blocks)
    (hknown : ∀ b ∈ store.store.blocks, committee.knownAuthority b.author)
    {faulty : Finset AuthorityIndex}
    (hfaulty : committee.isValid (committee.getTotalStake faulty) = false)
    (hcorrect : ∀ a, committee.knownAuthority a → a ∉ faulty → store.BehavesAsCore a)
    {committed : Set StatementBlock} (hsub : committed ⊆ store.store.blocks)
    (hcommitted : Closed committed)
    (hmarked : committee.HasQuorum fun a =>
      ∃ b ∈ committed, b.author = a ∧ (store.signed b).epochChanged) :
    ∃ result, finalizedTxCertifyingBlocks committee orders store = some result ∧
      ∀ p ∈ result, ∃ b ∈ committed, b.reference ∈ p.2 := by
  have hauthor : ∀ b ∈ store.store.blocks, b.author ∈ Finset.range committee.len :=
    fun b hb => Committee.knownAuthority_iff.mp (hknown b hb)
  obtain ⟨f, hf, hinv, -⟩ := processRounds_rule orders inv_new fun f b hb hinv _ =>
    hinv.processBlock hclosed hauthor orders hb
      (Nat.lt_succ_of_le (Finset.card_le_card Finset.sdiff_subset))
  refine ⟨_, by rw [finalizedTxCertifyingBlocks, hf]; rfl, fun p hp => ?_⟩
  obtain ⟨hentry, hfin⟩ := List.mem_filter.mp hp
  have hcerts : f.certificatesOf p.1 = p.2 := by
    rw [certificatesOf, orders.certificates.mem_entries.mp hentry]
    rfl
  have hless : ∀ authorities : Finset AuthorityIndex, (∀ a ∈ authorities, a ∈ faulty) →
      committee.isValid (committee.getTotalStake authorities) = false := by
    intro authorities hall
    have hle : committee.getTotalStake authorities ≤ committee.getTotalStake faulty :=
      Finset.sum_le_sum_of_subset hall
    rw [← Bool.not_eq_true, Committee.isValid_iff] at hfaulty ⊢
    exact fun hlt => hfaulty (hlt.trans_le hle)
  obtain ⟨a, ha, ⟨x, hx, hxa, hcert, hunmarked⟩, ⟨y, hy, hya, hmark⟩, hnot⟩ :=
    (hinv.quorum htotal (of_decide_eq_true hfin)).exists_correct hmarked hless
  have hcore := hcorrect a (Committee.knownAuthority_iff.mpr ha) hnot
  -- The certifying block is not marked, so it is before the marked one.
  have hbefore : x.round < y.round := by
    by_contra hle
    exact hunmarked (hcore.marker y (hsub hy) x hx hya hxa (Nat.le_of_not_lt hle) hmark)
  exact ⟨x, hcore.mem_of_earlier hsub hcommitted hy hya hx hxa hbefore, hcerts ▸ hcert⟩

/-- Five rounds of four authorities; every block includes all blocks of the round before, the
author's own first. -/
def epochBlock (a r : Nat) : StatementBlock :=
  ⟨⟨a, r, 0⟩, if r = 0 then [] else
    (a :: (List.range 4).filter (· ≠ a)).map fun a' => ⟨a', r - 1, 0⟩⟩

def epochBlocks : List StatementBlock :=
  (List.range 5).flatMap fun r => (List.range 4).map fun a => epochBlock a r

/-- Authority 0 shares a transaction in round 1, all authorities vote for it in round 2 and have seen
the votes in round 3. The blocks of round 4 are marked. -/
def epochStore : SignedStore where
  store := .ofList epochBlocks
  signed b :=
    { b with
      statements :=
        if b.reference = ⟨0, 1, 0⟩ then [.share ⟨[]⟩]
        else if b.round = 2 then [.vote ⟨⟨0, 1, 0⟩, 0⟩ .accept] else []
      metaCreationTimeNs := 0
      epochMarker := 4 ≤ b.round
      signature := [] }
  toStatementBlock_signed _ := rfl

theorem mem_epochStore : b ∈ epochStore.store.blocks ↔ b ∈ epochBlocks :=
  BlockStore.mem_blocks_ofList (by decide +kernel)

def sortedOrders : InterpreterOrders := ⟨.sorted, fun _ => .sorted, .sorted⟩

theorem epochStore_result : FinalizationInterpreter.finalizedTxCertifyingBlocks
    TransactionAggregator.fourVoters sortedOrders epochStore =
    some [(⟨⟨0, 1, 0⟩, 0⟩, {⟨0, 3, 0⟩, ⟨1, 3, 0⟩, ⟨2, 3, 0⟩, ⟨3, 3, 0⟩})] := by decide +kernel

theorem epochStore_behavesAsCore (a : AuthorityIndex) : epochStore.BehavesAsCore a where
  oneBlock b hb b' hb' ha ha' hround := by
    have h : ∀ b ∈ epochBlocks, ∀ b' ∈ epochBlocks, b.author = b'.author → b.round = b'.round →
        b = b' := by decide +kernel
    exact h b (mem_epochStore.mp hb) b' (mem_epochStore.mp hb') (ha.trans ha'.symm) hround
  previous b hb ha hround := by
    have h : ∀ b ∈ epochBlocks, b.round ≠ 0 → ∃ prev ∈ epochBlocks, prev.author = b.author ∧
        prev.round < b.round ∧ b.includes.head? = some prev.reference ∧
        ∀ c ∈ epochBlocks, c.author = b.author → c.round < b.round → c.round ≤ prev.round := by
      decide +kernel
    obtain ⟨prev, hprev, hpa, hlt, hhead, hbetween⟩ := h b (mem_epochStore.mp hb) hround
    exact ⟨prev, mem_epochStore.mpr hprev, hpa.trans ha, hlt, hhead,
      fun c hc hca => hbetween c (mem_epochStore.mp hc) (hca.trans ha.symm)⟩
  marker b hb c hc _ _ hround hmark := by
    have hb4 : 4 ≤ b.round := of_decide_eq_true hmark
    exact decide_eq_true (hb4.trans hround)

theorem epochBlocks_included : ∀ b ∈ epochBlocks, ∀ i ∈ b.includes,
    ∃ b' ∈ epochBlocks, b'.reference ≠ ⟨3, 4, 0⟩ ∧ b'.reference = i := by decide +kernel

theorem epochStore_closed : Closed epochStore.store.blocks := by
  intro b hb i hi
  obtain ⟨b', hb', -, href⟩ := epochBlocks_included b (mem_epochStore.mp hb) i hi
  exact ⟨b', mem_epochStore.mpr hb', href⟩

theorem epochStore_known : ∀ b ∈ epochStore.store.blocks,
    TransactionAggregator.fourVoters.knownAuthority b.author := by
  have h : ∀ b ∈ epochBlocks, TransactionAggregator.fourVoters.knownAuthority b.author := by
    decide +kernel
  exact fun b hb => h b (mem_epochStore.mp hb)

def epochCommitted : Set StatementBlock := {b | b ∈ epochBlocks ∧ b.reference ≠ ⟨3, 4, 0⟩}

theorem epochStore_finalized_committed :
    ∃ result, FinalizationInterpreter.finalizedTxCertifyingBlocks TransactionAggregator.fourVoters
        sortedOrders epochStore = some result ∧
      ∀ p ∈ result, ∃ b ∈ epochCommitted, b.reference ∈ p.2 := by
  have hcommitted : Closed epochCommitted := by
    rintro b ⟨hb, -⟩ i hi
    obtain ⟨b', hb', hne, href⟩ := epochBlocks_included b hb i hi
    exact ⟨b', ⟨hb', hne⟩, href⟩
  have hfaulty : TransactionAggregator.fourVoters.isValid
      (TransactionAggregator.fourVoters.getTotalStake {3}) = false := by decide
  refine finalized_committed sortedOrders (by decide) epochStore_closed epochStore_known hfaulty
    (fun a _ _ => epochStore_behavesAsCore a) (fun b hb => mem_epochStore.mpr hb.1) hcommitted ?_
  refine ⟨{0, 1, 2}, by decide, fun a ha => ⟨epochBlock a 4, ?_, rfl, rfl⟩, by decide⟩
  have h : ∀ a ∈ ({0, 1, 2} : Finset Nat), epochBlock a 4 ∈ epochBlocks ∧ a ≠ 3 := by decide +kernel
  obtain ⟨hmem, hne⟩ := h a ha
  exact ⟨hmem, fun href => hne (congrArg BlockReference.authority href)⟩

end CongestionControl.Mysticeti
