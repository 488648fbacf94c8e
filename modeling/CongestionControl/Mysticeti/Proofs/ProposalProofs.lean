import CongestionControl.Mysticeti.Proofs.CoreProofs
import CongestionControl.Mysticeti.Proofs.ThresholdClockProofs

/-!
# The blocks that a node proposes are valid

All stored blocks of other authorities from the round of the last own block on are pending, each behind
those that it includes. So the part of the pending list in front of the first include of too high a
round has a quorum of the round before, and the new block includes all of these.
-/

namespace CongestionControl.Mysticeti

/-! ## What is stored and what is pending -/

structure Grounded (committee : Committee) (s : Set StatementBlock) : Prop where
  unique : ∀ b ∈ s, ∀ b' ∈ s, b.reference = b'.reference → b = b'
  closed : Closed s
  valid : ∀ b ∈ s, b.round = 0 ∧ b.includes = [] ∨ Verified committee b

variable {committee : Committee} {s : Set StatementBlock} {b : StatementBlock}

theorem Grounded.lower (h : Grounded committee s) (hb : b ∈ s) :
    ∀ i ∈ b.includes, i.round < b.round := by
  rcases h.valid b hb with ⟨-, hnil⟩ | hverified
  · rw [hnil]
    exact nofun
  · exact hverified.lower

theorem Grounded.insert (h : Grounded committee s) (hfresh : ∀ c ∈ s, c.reference ≠ b.reference)
    (hstored : ∀ i ∈ b.includes, ∃ c ∈ s, c.reference = i)
    (hvalid : b.round = 0 ∧ b.includes = [] ∨ Verified committee b) :
    Grounded committee (insert b s) where
  unique := by
    rintro c (rfl | hc) d (rfl | hd) hcd
    · rfl
    · exact absurd hcd.symm (hfresh d hd)
    · exact absurd hcd (hfresh c hc)
    · exact h.unique c hc d hd hcd
  closed := by
    rintro c (rfl | hc) i hi
    · obtain ⟨d, hd, hdi⟩ := hstored i hi
      exact ⟨d, .inr hd, hdi⟩
    · obtain ⟨d, hd, hdi⟩ := h.closed c hc i hi
      exact ⟨d, .inr hd, hdi⟩
  valid := by
    rintro c (rfl | hc)
    · exact hvalid
    · exact h.valid c hc

/-- The stored blocks and the includes that are pending: of the blocks of other authorities, all from a
round on. -/
structure PendingInv (committee : Committee) (own : AuthorityIndex) (s : Set StatementBlock)
    (t : ThresholdClockAggregator) (low : RoundNumber) (refs : List BlockReference) : Prop where
  grounded : Grounded committee s
  clock : ClockInv committee s t
  known : ∀ r ∈ refs, r.authority ≠ own ∧ r.authority ∈ Finset.range committee.len
  stored : ∀ r ∈ refs, ∃ b ∈ s, b.reference = r
  waiting : ∀ b ∈ s, b.author ≠ own → low ≤ b.round → b.reference ∈ refs
  ordered : ∀ l₁ b l₂, refs = l₁ ++ b.reference :: l₂ → b ∈ s → ∀ i ∈ b.includes,
    i.authority ≠ own → low ≤ i.round → i ∈ l₁

structure ProposalInv (committee : Committee) (own : AuthorityIndex) (s : Set StatementBlock)
    (t : ThresholdClockAggregator) (last : StatementBlock) (refs : List BlockReference) : Prop
    extends PendingInv committee own s t last.round refs where
  last_mem : last ∈ s
  last_author : last.author = own
  own_le : ∀ b ∈ s, b.author = own → b.round ≤ last.round ∧ (b.round = last.round → b = last)

section Insert

variable {committee : Committee} {own : AuthorityIndex} {s : Set StatementBlock}
  {t t' : ThresholdClockAggregator} {low low' : RoundNumber} {last b : StatementBlock}
  {refs taken kept : List BlockReference}

theorem pendingInv_empty : PendingInv committee own ∅ (.new 0) low [] where
  grounded := ⟨nofun, nofun, nofun⟩
  clock := clockInv_new
  known := nofun
  stored := nofun
  waiting := nofun
  ordered := nofun

section

variable (htotal : committee.totalStake < 2 ^ 63)

include htotal

theorem PendingInv.insertOther (h : PendingInv committee own s t low refs)
    (hfresh : ∀ c ∈ s, c.reference ≠ b.reference)
    (hstored : ∀ i ∈ b.includes, ∃ c ∈ s, c.reference = i)
    (hvalid : b.round = 0 ∧ b.includes = [] ∨ Verified committee b) (hauthor : b.author ≠ own)
    (hknown : b.author ∈ Finset.range committee.len)
    (hadd : t.addBlock b.reference committee = some t') :
    PendingInv committee own (insert b s) t' low (refs ++ [b.reference]) where
  grounded := h.grounded.insert hfresh hstored hvalid
  clock := h.clock.addBlock htotal hadd
  known := by
    intro r hr
    rcases List.mem_append.mp hr with hr | hr
    · exact h.known r hr
    · rw [List.mem_singleton.mp hr]
      exact ⟨hauthor, hknown⟩
  stored := by
    intro r hr
    rcases List.mem_append.mp hr with hr | hr
    · obtain ⟨c, hc, hcr⟩ := h.stored r hr
      exact ⟨c, .inr hc, hcr⟩
    · exact ⟨b, .inl rfl, (List.mem_singleton.mp hr).symm⟩
  waiting := by
    rintro c (rfl | hc) hown hround
    · exact List.mem_append_right _ List.mem_cons_self
    · exact List.mem_append_left _ (h.waiting c hc hown hround)
  ordered := by
    intro l₁ c l₂ heq hc i hi hown hround
    rcases List.eq_nil_or_concat l₂ with rfl | ⟨l₂, x, rfl⟩
    · -- The new block: what it includes is stored, and hence pending.
      obtain ⟨rfl, hlast⟩ := List.append_inj' heq rfl
      have href : b.reference = c.reference := (List.cons.inj hlast).1
      rcases hc with rfl | hc
      · obtain ⟨d, hd, rfl⟩ := hstored i hi
        exact h.waiting d hd hown hround
      · exact absurd href.symm (hfresh c hc)
    · rw [List.concat_eq_append, ← List.cons_append, ← List.append_assoc] at heq
      have hrefs : refs = l₁ ++ c.reference :: l₂ := (List.append_inj' heq rfl).1
      rcases hc with rfl | hc
      · have hmem : c.reference ∈ refs := hrefs ▸ List.mem_append_right l₁ List.mem_cons_self
        obtain ⟨d, hd, hdr⟩ := h.stored c.reference hmem
        exact absurd hdr (hfresh d hd)
      · exact h.ordered l₁ c l₂ hrefs hc i hi hown hround

theorem PendingInv.insertOwn (h : PendingInv committee own s t low (taken ++ kept))
    (hfresh : ∀ c ∈ s, c.reference ≠ b.reference)
    (hstored : ∀ i ∈ b.includes, ∃ c ∈ s, c.reference = i)
    (hvalid : b.round = 0 ∧ b.includes = [] ∨ Verified committee b) (hauthor : b.author = own)
    (hlow : low ≤ low') (htaken : ∀ r ∈ taken, r.round < low')
    (hadd : t.addBlock b.reference committee = some t') :
    PendingInv committee own (insert b s) t' low' kept where
  grounded := h.grounded.insert hfresh hstored hvalid
  clock := h.clock.addBlock htotal hadd
  known r hr := h.known r (List.mem_append_right _ hr)
  stored := by
    intro r hr
    obtain ⟨c, hc, hcr⟩ := h.stored r (List.mem_append_right _ hr)
    exact ⟨c, .inr hc, hcr⟩
  waiting := by
    rintro c (rfl | hc) hown hround
    · exact absurd hauthor hown
    · rcases List.mem_append.mp (h.waiting c hc hown (hlow.trans hround)) with hmem | hmem
      · exact absurd (htaken _ hmem) (Nat.not_lt.mpr hround)
      · exact hmem
  ordered := by
    intro l₁ c l₂ heq hc i hi hown hround
    have hrefs : taken ++ kept = (taken ++ l₁) ++ c.reference :: l₂ := by
      rw [heq, List.append_assoc]
    rcases hc with rfl | hc
    · have hmem : c.reference ∈ taken ++ kept := hrefs ▸ List.mem_append_right _ List.mem_cons_self
      exact absurd hauthor (h.known c.reference hmem).1
    · rcases List.mem_append.mp (h.ordered _ c l₂ hrefs hc i hi hown (hlow.trans hround)) with
        hmem | hmem
      · exact absurd (htaken _ hmem) (Nat.not_lt.mpr hround)
      · exact hmem

theorem ProposalInv.insertOther (h : ProposalInv committee own s t last refs)
    (hfresh : ∀ c ∈ s, c.reference ≠ b.reference)
    (hstored : ∀ i ∈ b.includes, ∃ c ∈ s, c.reference = i) (hvalid : Verified committee b)
    (hauthor : b.author ≠ own) (hadd : t.addBlock b.reference committee = some t') :
    ProposalInv committee own (insert b s) t' last (refs ++ [b.reference]) where
  toPendingInv :=
    h.toPendingInv.insertOther htotal hfresh hstored (.inr hvalid) hauthor hvalid.author hadd
  last_mem := .inr h.last_mem
  last_author := h.last_author
  own_le := by
    rintro c (rfl | hc) hown
    · exact absurd hown hauthor
    · exact h.own_le c hc hown

end

end Insert

/-! ## A new block -/

namespace ProposalInv

variable {committee : Committee} {own : AuthorityIndex} {s : Set StatementBlock}
  {t t' : ThresholdClockAggregator} {last b : StatementBlock}
  {refs taken kept : List BlockReference}

structure Cut (round : RoundNumber) (refs taken kept : List BlockReference) : Prop where
  append : refs = taken ++ kept
  taken : ∀ r ∈ taken, r.round < round
  kept : ∀ r ∈ kept.head?, round ≤ r.round

/-- A stored block of the round before the clock is the last own block or it is taken, if the block
is one of those that brought the clock to its round. -/
theorem mem_taken_or_last (h : ProposalInv committee own s t last refs)
    (hlast : last.round < t.round) {c : StatementBlock}
    (hc : c ∈ s) (hround : c.round + 1 = t.round)
    (htaken : c.author ≠ own → c.reference ∈ refs → c.reference ∈ taken) :
    c.reference = last.reference ∨ c.reference ∈ taken := by
  have hle : last.round ≤ c.round := Nat.le_of_lt_succ (hlast.trans_eq hround.symm)
  by_cases hauthor : c.author = own
  · obtain ⟨hcle, hclast⟩ := h.own_le c hc hauthor
    exact .inl (congrArg _ (hclast (Nat.le_antisymm hcle hle)))
  · exact .inr (htaken hauthor (h.waiting c hc hauthor hle))

/-- The last own block and the taken blocks have a quorum of the round before the clock. -/
theorem quorum_taken (h : ProposalInv committee own s t last refs)
    (hcut : Cut t.round refs taken kept) (hlast : last.round < t.round) :
    committee.HasQuorum fun a =>
      ∃ r, (r = last.reference ∨ r ∈ taken) ∧ r.authority = a ∧ r.round + 1 = t.round := by
  cases hkept : kept with
  | nil =>
    -- Everything is taken, so no block of the round of the clock is stored.
    have hrefs : refs = taken := by rw [hcut.append, hkept, List.append_nil]
    rcases h.clock.reason with hzero | ⟨c, hc, hround⟩ | hquorum
    · exact absurd (hlast.trans_eq hzero) (Nat.not_lt_zero _)
    · have hauthor : c.author ≠ own := fun hauthor =>
        Nat.not_lt.mpr (h.own_le c hc hauthor).1 (hround ▸ hlast)
      have hmem := h.waiting c hc hauthor (hround ▸ Nat.le_of_lt hlast)
      exact absurd hround (Nat.ne_of_lt (hcut.taken _ (hrefs ▸ hmem)))
    · refine hquorum.mono fun a ⟨c, hc, hca, hround⟩ => ⟨c.reference, ?_, hca, hround⟩
      exact h.mem_taken_or_last hlast hc hround fun _ hmem => hrefs ▸ hmem
  | cons r kept' =>
    -- The first include that is kept is a block of the round of the clock with a quorum.
    have hrefs : refs = taken ++ r :: kept' := by rw [hcut.append, hkept]
    obtain ⟨c, hc, rfl⟩ := h.stored r (hrefs ▸ List.mem_append_right _ List.mem_cons_self)
    have hround : c.round = t.round :=
      Nat.le_antisymm (h.clock.top c hc) (hcut.kept c.reference (by rw [hkept]; rfl))
    rcases h.grounded.valid c hc with ⟨hzero, -⟩ | hverified
    · exact absurd (hlast.trans_eq (hround.symm.trans hzero)) (Nat.not_lt_zero _)
    · refine hverified.quorum.mono fun a ⟨i, hi, hir, hia⟩ => ?_
      obtain ⟨d, hd, rfl⟩ := h.grounded.closed c hc i hi
      have hdround : d.round + 1 = t.round := hir.trans hround
      refine ⟨d.reference, h.mem_taken_or_last hlast hd hdround fun hauthor _ => ?_, hia, hdround⟩
      refine h.ordered taken c kept' hrefs hc d.reference hi hauthor ?_
      exact Nat.le_of_lt_succ (hlast.trans_eq hdround.symm)

def Referenced (s : Set StatementBlock) (last : StatementBlock) (taken : List BlockReference)
    (r : BlockReference) : Prop :=
  r ∈ last.includes ∨ ∃ c ∈ s, c.reference ∈ taken ∧ r ∈ c.includes

structure Proposed (own : AuthorityIndex) (s : Set StatementBlock) (t : ThresholdClockAggregator)
    (last : StatementBlock) (taken : List BlockReference) (b : StatementBlock) : Prop where
  author : b.author = own
  round : b.round = t.round
  includes : ∀ r, r ∈ b.includes ↔
    r = last.reference ∨ r ∈ taken ∧ ¬ Referenced s last taken r

section

variable (h : ProposalInv committee own s t last refs)

include h

theorem round_lt_of_referenced (hcut : Cut t.round refs taken kept) (hlast : last.round < t.round)
    {r : BlockReference} (hr : Referenced s last taken r) : r.round + 1 < t.round := by
  rcases hr with hr | ⟨c, hc, hct, hr⟩
  · exact (Nat.succ_le_of_lt (h.grounded.lower h.last_mem r hr)).trans_lt hlast
  · exact (Nat.succ_le_of_lt (h.grounded.lower hc r hr)).trans_lt (hcut.taken _ hct)

theorem verified_proposed (hknown : own ∈ Finset.range committee.len)
    (hcut : Cut t.round refs taken kept) (hlast : last.round < t.round)
    (hb : Proposed own s t last taken b) : Verified committee b where
  author := hb.author ▸ hknown
  round := by
    rw [hb.round]
    exact Nat.ne_zero_of_lt hlast
  known := by
    intro i hi
    rcases (hb.includes i).mp hi with rfl | ⟨hi, -⟩
    · change last.author ∈ _
      exact h.last_author ▸ hknown
    · exact (h.known i (hcut.append ▸ List.mem_append_left _ hi)).2
  lower := by
    intro i hi
    rw [hb.round]
    rcases (hb.includes i).mp hi with rfl | ⟨hi, -⟩
    · exact hlast
    · exact hcut.taken i hi
  quorum := by
    refine (h.quorum_taken hcut hlast).mono fun a ⟨r, hr, hra, hround⟩ => ⟨r, ?_, ?_, hra⟩
    · refine (hb.includes r).mpr (hr.imp_right fun hr => ⟨hr, fun href => ?_⟩)
      exact (h.round_lt_of_referenced hcut hlast href).ne hround
    · exact hround.trans hb.round.symm

theorem fresh_proposed (hlast : last.round < t.round) (hb : Proposed own s t last taken b) :
    ∀ c ∈ s, c.reference ≠ b.reference := by
  intro c hc href
  have hauthor : c.author = own := (congrArg BlockReference.authority href).trans hb.author
  have hround : c.round = t.round := (congrArg BlockReference.round href).trans hb.round
  exact Nat.not_lt.mpr (h.own_le c hc hauthor).1 (hround ▸ hlast)

theorem stored_proposed (hcut : Cut t.round refs taken kept) (hb : Proposed own s t last taken b) :
    ∀ i ∈ b.includes, ∃ c ∈ s, c.reference = i := by
  intro i hi
  rcases (hb.includes i).mp hi with rfl | ⟨hi, -⟩
  · exact ⟨last, h.last_mem, rfl⟩
  · exact h.stored i (hcut.append ▸ List.mem_append_left _ hi)

end

theorem insertOwn (htotal : committee.totalStake < 2 ^ 63)
    (h : ProposalInv committee own s t last refs) (hvalid : Verified committee b)
    (hcut : Cut t.round refs taken kept) (hlast : last.round < t.round)
    (hb : Proposed own s t last taken b) (hadd : t.addBlock b.reference committee = some t') :
    ProposalInv committee own (insert b s) t' b kept where
  toPendingInv := by
    have hpending : PendingInv committee own s t last.round (taken ++ kept) :=
      hcut.append ▸ h.toPendingInv
    refine hpending.insertOwn htotal (h.fresh_proposed hlast hb) (h.stored_proposed hcut hb)
      (.inr hvalid) hb.author ?_ ?_ hadd
    · exact Nat.le_of_lt (hlast.trans_eq hb.round.symm)
    · exact fun r hr => (hcut.taken r hr).trans_eq hb.round.symm
  last_mem := .inl rfl
  last_author := hb.author
  own_le := by
    rintro c (rfl | hc) hown
    · exact ⟨Nat.le_refl _, fun _ => rfl⟩
    · have hlt : c.round < b.round := (h.own_le c hc hown).1.trans_lt (hlast.trans_eq hb.round.symm)
      exact ⟨Nat.le_of_lt hlt, fun heq => absurd heq hlt.ne⟩

/-- What was taken is an ancestor of the new block, also if it is not among its includes. -/
theorem ancestor_of_taken (h : ProposalInv committee own s t last refs)
    (hcut : Cut t.round refs taken kept) (hb : Proposed own s t last taken b) :
    ∀ r ∈ taken, ∃ c ∈ s, c.reference = r ∧ Ancestor s b c := by
  -- Induction on how far the round is below the clock: a block that references a taken block and is
  -- taken itself is of a higher round.
  have hbelow : ∀ n, ∀ r ∈ taken, t.round - r.round < n →
      ∃ c ∈ s, c.reference = r ∧ Ancestor s b c := by
    intro n
    induction n with
    | zero => exact fun _ _ hn => absurd hn (Nat.not_lt_zero _)
    | succ n ih =>
      intro r hr hn
      obtain ⟨c, hc, rfl⟩ := h.stored r (hcut.append ▸ List.mem_append_left _ hr)
      refine ⟨c, hc, rfl, ?_⟩
      by_cases href : Referenced s last taken c.reference
      · rcases href with href | ⟨d, hd, hdt, href⟩
        · have hlastinc : last.reference ∈ b.includes := (hb.includes _).mpr (.inl rfl)
          exact .tail (.single ⟨h.last_mem, hlastinc⟩) ⟨hc, href⟩
        · have hlt : c.round < d.round := h.grounded.lower hd _ href
          have hdn : t.round - d.round < n := by
            have hsub := Nat.sub_lt_sub_left (hcut.taken _ hr) hlt
            exact hsub.trans_le (Nat.le_of_lt_succ hn)
          obtain ⟨d', hd', hdd, hanc⟩ := ih d.reference hdt hdn
          obtain rfl := h.grounded.unique d' hd' d hd hdd
          exact hanc.tail ⟨hc, href⟩
      · exact .single ⟨hc, (hb.includes _).mpr (.inr ⟨hr, href⟩)⟩
  exact fun r hr => hbelow _ r hr (Nat.lt_succ_self _)

end ProposalInv

/-! ## Runs of a core -/

namespace Core

variable {H : Type} {cfg : CoreConfig H} {env : H → H → Prop} {c c' : Core H}

theorem cut_pending :
    ProposalInv.Cut c.thresholdClock.round (includeRefs c.pending) (includeRefs c.taken)
      (includeRefs c.kept) where
  append := by rw [← includeRefs_append, ← pending_eq]
  taken _ := round_lt_of_mem_taken
  kept := by
    intro r hr
    rcases kept_eq_nil_or with hkept | ⟨position, r', rest, hkept, hround⟩
    · rw [hkept] at hr
      exact nomatch hr
    · rw [hkept] at hr
      obtain rfl : r' = r := Option.some.inj hr
      exact hround

theorem proposed_newBlock (cfg : CoreConfig H) (c : Core H) (timeNs : Nat) :
    ProposalInv.Proposed cfg.authority c.blockStore.blocks c.thresholdClock
      c.lastOwnBlock.block.toStatementBlock (includeRefs c.taken)
      (c.newBlock cfg timeNs).toStatementBlock where
  author := rfl
  round := rfl
  includes r := by
    rw [ProposalInv.Referenced, ← mem_referencesInBlock]
    exact mem_newIncludes

structure RunInv (cfg : CoreConfig H) (proposed : List SignedBlock) (c : Core H) : Prop where
  proposal : ProposalInv cfg.committee cfg.authority c.blockStore.blocks c.thresholdClock
    c.lastOwnBlock.block.toStatementBlock (includeRefs c.pending)
  last : c.lastOwnBlock.block =
    proposed.headD (SignedBlock.newGenesis cfg.crypto cfg.authority)
  proposed : ∀ b ∈ proposed, b.toStatementBlock ∈ c.blockStore.blocks ∧ b.author = cfg.authority

variable {proposed : List SignedBlock}

theorem RunInv.of_eq (h : RunInv cfg proposed c) (hstore : c'.blockStore = c.blockStore)
    (hclock : c'.thresholdClock = c.thresholdClock) (hlast : c'.lastOwnBlock = c.lastOwnBlock)
    (hrefs : includeRefs c'.pending = includeRefs c.pending) : RunInv cfg proposed c' := by
  refine ⟨?_, ?_, ?_⟩
  · rw [hstore, hclock, hlast, hrefs]
    exact h.proposal
  · rw [hlast]
    exact h.last
  · rw [hstore]
    exact h.proposed

theorem RunInv.addBlocks (htotal : cfg.committee.totalStake < 2 ^ 63) {fuel : Nat}
    {blocks processed : List SignedBlock} (htable : TableInv cfg c) (h : RunInv cfg proposed c)
    (hacceptable : ∀ b ∈ blocks, Acceptable cfg b)
    (hcall : c.addBlocks cfg fuel blocks = some (c', processed)) : RunInv cfg proposed c' := by
  obtain ⟨c₁, c₂, hprocesses, hfold, hhandler⟩ := addBlocks_eq_some htable hacceptable hcall
  have hfields := foldlM_noteProcessed_fields hfold
  have hstore : c₂.blockStore = c₁.blockStore := by
    rw [hfields]
    rfl
  have hlast : c₂.lastOwnBlock = c.lastOwnBlock := by rw [hfields, hprocesses.fields]
  have hinv : ProposalInv cfg.committee cfg.authority c₁.blockStore.blocks c₂.thresholdClock
      c.lastOwnBlock.block.toStatementBlock (includeRefs c₂.pending) := by
    refine foldlM_noteProcessed_induct
      (P := fun s c₂ => ProposalInv cfg.committee cfg.authority s.blocks c₂.thresholdClock
        c.lastOwnBlock.block.toStatementBlock (includeRefs c₂.pending))
      hprocesses.inserts hfold ?_ ?_
    · intro s c₃ c₄ b hb hfresh hstored hnote hinv
      obtain ⟨position, log, thresholdClock, -, hadd, rfl⟩ := noteProcessed_eq_some hnote
      obtain ⟨x, ⟨hverify, hauthor⟩, hx⟩ := hprocesses.acceptable b hb
      have hverified : Verified cfg.committee b.toStatementBlock :=
        hx ▸ ((SignedBlock.verify_iff htotal).mp hverify).2.2.2
      rw [BlockStore.blocks_insertBlock hfresh]
      rw [includeRefs_append]
      refine hinv.insertOther htotal (fun y hy hyr => ?_) (fun i hi => ?_) hverified (hx ▸ hauthor) hadd
      · exact hfresh (BlockStore.mem_index_iff.mpr ⟨y, hy, hyr⟩)
      · exact BlockStore.mem_index_iff.mp (hstored i hi)
    · rw [hprocesses.fields]
      exact h.proposal
  have hnoted : RunInv cfg proposed c₂ := by
    refine ⟨?_, hlast ▸ h.last, fun b hb => ⟨?_, (h.proposed b hb).2⟩⟩
    · rw [hstore, hlast]
      exact hinv
    · rw [hstore]
      exact hprocesses.inserts.subset_blocks (h.proposed b hb).1
  obtain ⟨blockHandler, statements, position, log, -, -, rfl⟩ := runBlockHandler_eq_some hhandler
  refine hnoted.of_eq rfl rfl rfl ?_
  rw [includeRefs_append]
  exact List.append_nil _

theorem RunInv.propose (htotal : cfg.committee.totalStake < 2 ^ 63) {timeNs : Nat}
    {block : SignedBlock} (h : RunInv cfg proposed c)
    (hcall : c.tryNewBlock cfg timeNs = some (some block, c')) :
    RunInv cfg (block :: proposed) c' ∧ Verified cfg.committee block.toStatementBlock := by
  obtain ⟨thresholdClock, blockHandler, position, log, hround, rfl, hadd, -, -, rfl⟩ :=
    tryNewBlock_eq_some hcall
  have hnew := proposed_newBlock cfg c timeNs
  have hverified := h.proposal.verified_proposed (known_of_addBlock (Nat.le_refl _) hadd) cut_pending
    hround hnew
  have hblocks : (c.blockStore.insertBlock (c.newBlock cfg timeNs).toStatementBlock).blocks =
      insert (c.newBlock cfg timeNs).toStatementBlock c.blockStore.blocks := by
    refine BlockStore.blocks_insertBlock fun hmem => ?_
    obtain ⟨b, hb, hbr⟩ := BlockStore.mem_index_iff.mp hmem
    exact h.proposal.fresh_proposed hround hnew b hb hbr
  refine ⟨⟨?_, rfl, ?_⟩, hverified⟩
  · change ProposalInv _ _ (c.blockStore.insertBlock _).blocks _ _ _
    rw [hblocks]
    exact h.proposal.insertOwn htotal hverified cut_pending hround hnew hadd
  · change ∀ b ∈ _, SignedBlock.toStatementBlock b ∈ (c.blockStore.insertBlock _).blocks ∧ _
    rw [hblocks]
    refine List.forall_mem_cons.mpr ⟨⟨.inl rfl, rfl⟩, fun b hb => ?_⟩
    exact ⟨.inr (h.proposed b hb).1, (h.proposed b hb).2⟩

structure GenesisInv (cfg : CoreConfig H) (c : Core H) : Prop where
  pending : PendingInv cfg.committee cfg.authority c.blockStore.blocks c.thresholdClock 0
    (includeRefs c.pending)
  others : ∀ b ∈ c.blockStore.blocks, b.author ≠ cfg.authority

theorem genesisInv_beforeGenesis (h : H) (own : OwnBlockData) :
    GenesisInv cfg (beforeGenesis cfg h .empty .new own) where
  pending := by
    have hempty : BlockStore.empty.blocks = ∅ := Set.eq_empty_iff_forall_notMem.mpr nofun
    change PendingInv _ _ BlockStore.empty.blocks _ _ _
    rw [hempty]
    exact pendingInv_empty
  others := nofun

section

variable (htotal : cfg.committee.totalStake < 2 ^ 63)

include htotal

theorem GenesisInv.store {a : AuthorityIndex} (h : GenesisInv cfg c) (ha : a ≠ cfg.authority)
    (hlen : a ∈ Finset.range cfg.committee.len)
    (hindex : (SignedBlock.newGenesis cfg.crypto a).reference ∉ c.blockStore.index)
    (hnote : (c.storeBlock (SignedBlock.newGenesis cfg.crypto a)).noteProcessed cfg
      (SignedBlock.newGenesis cfg.crypto a) = some c') : GenesisInv cfg c' := by
  obtain ⟨position, log, thresholdClock, -, hadd, rfl⟩ := noteProcessed_eq_some hnote
  have hblocks := BlockStore.blocks_insertBlock
    hindex
  refine ⟨?_, ?_⟩
  · change PendingInv _ _ (c.blockStore.insertBlock _).blocks _ _
      (includeRefs (c.pending ++ [(position, .includeBlock _)]))
    rw [hblocks, includeRefs_append]
    refine h.pending.insertOther htotal (fun x hx hxr => ?_) nofun (.inl ⟨rfl, rfl⟩) ha hlen hadd
    exact hindex (BlockStore.mem_index_iff.mpr ⟨x, hx, hxr⟩)
  · change ∀ b ∈ (c.blockStore.insertBlock _).blocks, _
    rw [hblocks]
    rintro b (rfl | hb)
    · exact ha
    · exact h.others b hb

theorem RunInv.open {h : H} (hopen : Core.open cfg h .empty = some c) : RunInv cfg [] c := by
  obtain ⟨c₁, hgenesis, rfl⟩ := open_empty hopen
  obtain ⟨c₂, thresholdClock, position, log, hfold, hadd, -, rfl⟩ := initGenesis_eq_some hgenesis
  have hinv : GenesisInv cfg c₂ := by
    refine foldlM_genesis_induct (List.nodup_range.filter _) ?_ hfold ?_ (genesisInv_beforeGenesis h _)
    · exact fun _ _ _ hb => nomatch hb
    · intro c c' a ha hindex hnote hinv
      obtain ⟨hrange, hne⟩ := List.mem_filter.mp ha
      exact hinv.store htotal (of_decide_eq_true hne)
        (Finset.mem_range.mpr (List.mem_range.mp hrange)) hindex hnote
  have hfresh : ∀ b ∈ c₂.blockStore.blocks,
      b.reference ≠ (SignedBlock.newGenesis cfg.crypto cfg.authority).reference :=
    fun b hb hbr => hinv.others b hb (congrArg BlockReference.authority hbr)
  have hblocks :
      (c₂.blockStore.insertBlock
        (SignedBlock.newGenesis cfg.crypto cfg.authority).toStatementBlock).blocks =
      insert (SignedBlock.newGenesis cfg.crypto cfg.authority).toStatementBlock
        c₂.blockStore.blocks := by
    refine BlockStore.blocks_insertBlock fun hmem => ?_
    obtain ⟨b, hb, hbr⟩ := BlockStore.mem_index_iff.mp hmem
    exact hfresh b hb hbr
  refine ⟨⟨?_, ?_, rfl, ?_⟩, rfl, nofun⟩
  · change PendingInv _ _ (c₂.blockStore.insertBlock _).blocks _ _ _
    rw [hblocks]
    have hpending : PendingInv cfg.committee cfg.authority c₂.blockStore.blocks c₂.thresholdClock 0
        ([] ++ includeRefs c₂.pending) := hinv.pending
    exact hpending.insertOwn htotal hfresh nofun (.inl ⟨rfl, rfl⟩) rfl (Nat.le_refl _) nofun hadd
  · change _ ∈ (c₂.blockStore.insertBlock _).blocks
    rw [hblocks]
    exact .inl rfl
  · change ∀ b ∈ (c₂.blockStore.insertBlock _).blocks, _
    rw [hblocks]
    rintro b (rfl | hb) hauthor
    · exact ⟨Nat.le_refl _, fun _ => rfl⟩
    · exact absurd hauthor (hinv.others b hb)

theorem RunInv.step {block : Option SignedBlock} (htable : TableInv cfg c)
    (h : RunInv cfg proposed c) (hstep : Core.Step cfg env c block c') :
    RunInv cfg (block.toList ++ proposed) c' := by
  cases hstep with
  | addBlocks acceptable call => exact h.addBlocks htotal htable acceptable call
  | tryNewBlock call =>
    cases block with
    | none => exact tryNewBlock_eq_none call ▸ h
    | some block => exact (h.propose htotal call).1
  | commitLeaders call =>
    obtain ⟨lastCommitLeader, -, rfl⟩ := commitLeaders_eq_some call
    exact h.of_eq rfl rfl rfl rfl
  | handleCommittedSubdag call =>
    obtain ⟨epochManager, _, _, _, log', -, -, rfl⟩ := handleCommittedSubdag_eq_some call
    exact h.of_eq rfl rfl rfl rfl
  | external => exact h.of_eq rfl rfl rfl rfl

theorem runInv_of_run (hrun : Core.Run cfg env proposed c) : RunInv cfg proposed c := by
  induction hrun with
  | «open» call => exact RunInv.open htotal call
  | step run step ih => exact ih.step htotal (tableInv_of_run run) step

end

/-- A block that a node proposes passes the check of the other nodes. Its first include is the block
that the node proposed before, the rounds increase, and what is taken from the pending list is in the
causal history of the block. -/
theorem proposals_valid (htotal : cfg.committee.totalStake < 2 ^ 63)
    (hrun : Core.Run cfg env proposed c) {timeNs : Nat} {block : SignedBlock}
    (hcall : c.tryNewBlock cfg timeNs = some (some block, c')) :
    thresholdClockValidNonGenesis block.toStatementBlock cfg.committee = some true ∧
    block.includes.head? =
      some (proposed.headD (SignedBlock.newGenesis cfg.crypto cfg.authority)).reference ∧
    (∀ b ∈ proposed, b.round < block.round) ∧
    ∃ taken, c.pending = taken ++ c'.pending ∧ ∀ r ∈ includeRefs taken,
      ∃ b ∈ c.blockStore.blocks, b.reference = r ∧
        Ancestor c.blockStore.blocks block.toStatementBlock b := by
  have hinv := runInv_of_run htotal hrun
  have hverified := (hinv.propose htotal hcall).2
  obtain ⟨thresholdClock, blockHandler, position, log, hround, rfl, -, -, -, rfl⟩ :=
    tryNewBlock_eq_some hcall
  refine ⟨?_, ?_, fun b hb => ?_, c.taken, pending_eq, ?_⟩
  · exact (thresholdClock_computes htotal hverified.round hverified.known
      hverified.lower).eq_true_iff.mpr hverified.quorum
  · rw [← hinv.last]
    rfl
  · obtain ⟨hmem, hauthor⟩ := hinv.proposed b hb
    exact (hinv.proposal.own_le _ hmem hauthor).1.trans_lt hround
  · exact hinv.proposal.ancestor_of_taken cut_pending (proposed_newBlock cfg c timeNs)

def fourNodes : CoreConfig Unit where
  crypto := ⟨fun _ => 0, fun _ _ => [], fun _ _ _ => true⟩
  committee := .fourEqual
  authority := 0
  handler := ⟨fun _ _ _ => some ((), []), fun _ _ => some (), fun _ => [], fun _ _ => some ()⟩
  numberOfLeaders := 1
  enablePipelining := true
  roundsInEpoch := 100
  order := .sorted
  size := fun _ => 0

theorem first_proposal_valid : ∃ c block c',
    Core.Run fourNodes (fun _ _ => False) [] c ∧
    c.tryNewBlock fourNodes 0 = some (some block, c') ∧
    thresholdClockValidNonGenesis block.toStatementBlock fourNodes.committee = some true := by
  have hproposal : ((Core.open fourNodes () .empty).bind fun c =>
      (c.tryNewBlock fourNodes 0).bind Prod.fst).isSome = true := by
    decide +kernel
  obtain ⟨block, hblock⟩ := Option.isSome_iff_exists.mp hproposal
  obtain ⟨c, hopen, hblock⟩ := Option.bind_eq_some_iff.mp hblock
  obtain ⟨⟨_, c'⟩, hcall, rfl⟩ := Option.bind_eq_some_iff.mp hblock
  have hrun : Core.Run fourNodes (fun _ _ => False) [] c := .open hopen
  exact ⟨c, block, c', hrun, hcall, (proposals_valid (by decide) hrun hcall).1⟩

end Core

end CongestionControl.Mysticeti
