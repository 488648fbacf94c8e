import CongestionControl.Mysticeti.Proofs.ThresholdClockProofs
import Mathlib.Order.Lattice.Nat

/-!
# The closed form of the threshold clock

The clock has the largest round of the blocks it has counted, or the one after it if its authorities
hold a quorum. The exception is a jump to a block whose author is a quorum alone: the clock then stays
one round behind until another block of that round or a later one arrives.
-/

namespace CongestionControl.Mysticeti

def seenAt (l : List BlockReference) (round : RoundNumber) : Finset AuthorityIndex :=
  (l.toFinset.filter (·.round = round)).image (·.authority)

def Committee.quorumAt (committee : Committee) (l : List BlockReference) (round : RoundNumber) :
    Bool :=
  committee.isQuorum (committee.getTotalStake (seenAt l round))

/-- The maximum of 0, the largest round, and one plus the largest round with a quorum. -/
def Committee.closedForm (committee : Committee) (l : List BlockReference) : RoundNumber :=
  max (l.toFinset.sup (·.round))
    ((l.toFinset.filter fun r => committee.quorumAt l r.round).sup (·.round + 1))

variable {committee : Committee} {t t' : ThresholdClockAggregator} {r : BlockReference}
  {l : List BlockReference} {n : RoundNumber} {a : AuthorityIndex}

theorem mem_seenAt : a ∈ seenAt l n ↔ ∃ x ∈ l, x.round = n ∧ x.authority = a := by
  unfold seenAt
  simp only [Finset.mem_image, Finset.mem_filter, List.mem_toFinset, and_assoc]

theorem seenAt_append_ne (h : r.round ≠ n) : seenAt (l ++ [r]) n = seenAt l n := by
  ext a
  rw [mem_seenAt, mem_seenAt]
  constructor
  · rintro ⟨x, hx, hround, hauthor⟩
    rcases List.mem_append.mp hx with hx | hx
    · exact ⟨x, hx, hround, hauthor⟩
    · obtain rfl := List.mem_singleton.mp hx
      exact absurd hround h
  · rintro ⟨x, hx, hx'⟩
    exact ⟨x, List.mem_append_left _ hx, hx'⟩

theorem seenAt_append_self : seenAt (l ++ [r]) r.round = insert r.authority (seenAt l r.round) := by
  ext a
  rw [mem_seenAt, Finset.mem_insert, mem_seenAt]
  constructor
  · rintro ⟨x, hx, hround, hauthor⟩
    rcases List.mem_append.mp hx with hx | hx
    · exact .inr ⟨x, hx, hround, hauthor⟩
    · obtain rfl := List.mem_singleton.mp hx
      exact .inl hauthor.symm
  · rintro (rfl | ⟨x, hx, hx'⟩)
    · exact ⟨r, List.mem_append_right _ (List.mem_singleton_self r), rfl, rfl⟩
    · exact ⟨x, List.mem_append_left _ hx, hx'⟩

theorem seenAt_eq_empty (h : ∀ x ∈ l, x.round ≠ n) : seenAt l n = ∅ := by
  refine Finset.eq_empty_of_forall_notMem fun a ha => ?_
  obtain ⟨x, hx, hround, -⟩ := mem_seenAt.mp ha
  exact h x hx hround

theorem Committee.isQuorum_le {amount amount' : Stake} (h : committee.isQuorum amount = true)
    (hle : amount ≤ amount') : committee.isQuorum amount' = true :=
  decide_eq_true ((of_decide_eq_true h).trans_le hle)

theorem getTotalStake_mono {s s' : Finset AuthorityIndex} (h : s ⊆ s') :
    committee.getTotalStake s ≤ committee.getTotalStake s' :=
  Finset.sum_le_sum_of_subset h

theorem exists_of_quorumAt (h : committee.quorumAt l n = true) : ∃ x ∈ l, x.round = n := by
  by_contra hnot
  push Not at hnot
  rw [Committee.quorumAt, seenAt_eq_empty hnot] at h
  exact absurd (of_decide_eq_true h) (Nat.not_lt_zero _)

theorem closedForm_of_quorum (htop : ∀ x ∈ l, x.round ≤ n) (hquorum : committee.quorumAt l n = true) :
    committee.closedForm l = n + 1 := by
  obtain ⟨x, hx, hround⟩ := exists_of_quorumAt hquorum
  apply Nat.le_antisymm
  · refine max_le (Finset.sup_le fun y hy => ?_) (Finset.sup_le fun y hy => ?_)
    · exact (htop y (List.mem_toFinset.mp hy)).trans (Nat.le_succ n)
    · exact Nat.succ_le_succ (htop y (List.mem_toFinset.mp (Finset.mem_filter.mp hy).1))
  · have hmem : x ∈ l.toFinset.filter fun r => committee.quorumAt l r.round = true :=
      Finset.mem_filter.mpr ⟨List.mem_toFinset.mpr hx, hround.symm ▸ hquorum⟩
    have hle := Finset.le_sup (f := fun x : BlockReference => x.round + 1) hmem
    rw [hround] at hle
    exact hle.trans (le_max_right _ _)

theorem closedForm_of_not_quorum (htop : ∀ x ∈ l, x.round ≤ n)
    (hreach : n = 0 ∨ ∃ x ∈ l, x.round = n) (hquorum : committee.quorumAt l n = false) :
    committee.closedForm l = n := by
  apply Nat.le_antisymm
  · refine max_le (Finset.sup_le fun x hx => ?_) (Finset.sup_le fun x hx => ?_)
    · exact htop x (List.mem_toFinset.mp hx)
    · obtain ⟨hx, hxquorum⟩ := Finset.mem_filter.mp hx
      refine Nat.lt_of_le_of_ne (htop x (List.mem_toFinset.mp hx)) fun hround => ?_
      rw [hround, hquorum] at hxquorum
      cases hxquorum
  · rcases hreach with rfl | ⟨x, hx, rfl⟩
    · exact Nat.zero_le _
    · exact (Finset.le_sup (List.mem_toFinset.mpr hx)).trans (le_max_left _ _)

/-- A block is the only one of the largest round, its author is a quorum alone, and the clock jumps to
it: the rounds before it are not complete, or the clock lags already. -/
inductive Lags (committee : Committee) : List BlockReference → Prop
  | jump {before after : List BlockReference} {r : BlockReference} :
      (∀ x ∈ before, x.round < r.round) → (∀ x ∈ after, x.round < r.round) →
      committee.isQuorum (committee.stake r.authority) = true →
      committee.closedForm before < r.round → Lags committee (before ++ r :: after)
  | again {before after : List BlockReference} {r : BlockReference} :
      (∀ x ∈ before, x.round < r.round) → (∀ x ∈ after, x.round < r.round) →
      committee.isQuorum (committee.stake r.authority) = true →
      Lags committee before → Lags committee (before ++ r :: after)

theorem lags_iff : Lags committee l ↔ ∃ before r after, l = before ++ r :: after ∧
    (∀ x ∈ before, x.round < r.round) ∧ (∀ x ∈ after, x.round < r.round) ∧
    committee.isQuorum (committee.stake r.authority) = true ∧
    (committee.closedForm before < r.round ∨ Lags committee before) := by
  constructor
  · intro h
    cases h with
    | @jump before after r hbefore hafter hquorum hclosed =>
      exact ⟨before, r, after, rfl, hbefore, hafter, hquorum, .inl hclosed⟩
    | @again before after r hbefore hafter hquorum hlags =>
      exact ⟨before, r, after, rfl, hbefore, hafter, hquorum, .inr hlags⟩
  · rintro ⟨before, r, after, rfl, hbefore, hafter, hquorum, hclosed | hlags⟩
    · exact .jump hbefore hafter hquorum hclosed
    · exact .again hbefore hafter hquorum hlags

theorem lags_append_iff : Lags committee (l ++ [r]) ↔
    ((∀ x ∈ l, x.round < r.round) ∧ committee.isQuorum (committee.stake r.authority) = true ∧
      (committee.closedForm l < r.round ∨ Lags committee l)) ∨
    (Lags committee l ∧ ∃ x ∈ l, r.round < x.round) := by
  constructor
  · intro h
    obtain ⟨before, x, after, hl, hbefore, hafter, hquorum, hlags⟩ := lags_iff.mp h
    rcases List.eq_nil_or_concat after with rfl | ⟨after, y, rfl⟩
    · obtain ⟨rfl, hr⟩ := List.append_inj' hl rfl
      obtain rfl : r = x := List.singleton_inj.mp hr
      exact .inl ⟨hbefore, hquorum, hlags⟩
    · rw [List.concat_eq_append, ← List.cons_append, ← List.append_assoc] at hl
      obtain ⟨rfl, hr⟩ := List.append_inj' hl rfl
      obtain rfl : r = y := List.singleton_inj.mp hr
      rw [List.concat_eq_append] at hafter
      refine .inr ⟨lags_iff.mpr ⟨before, x, after, rfl, hbefore, ?_, hquorum, hlags⟩, x, ?_, ?_⟩
      · exact fun z hz => hafter z (List.mem_append_left _ hz)
      · exact List.mem_append_right _ List.mem_cons_self
      · exact hafter r (List.mem_append_right _ (List.mem_singleton_self r))
  · rintro (⟨hbefore, hquorum, hlags⟩ | ⟨hlags, y, hy, hlt⟩)
    · exact lags_iff.mpr ⟨l, r, [], rfl, hbefore, nofun, hquorum, hlags⟩
    · obtain ⟨before, x, after, rfl, hbefore, hafter, hquorum, hrest⟩ := lags_iff.mp hlags
      have hrx : r.round < x.round := by
        rcases List.mem_append.mp hy with hy | hy
        · exact hlt.trans (hbefore y hy)
        · rcases List.mem_cons.mp hy with rfl | hy
          · exact hlt
          · exact hlt.trans (hafter y hy)
      refine lags_iff.mpr ⟨before, x, after ++ [r], ?_, hbefore, ?_, hquorum, hrest⟩
      · rw [List.append_assoc, List.cons_append]
      · intro z hz
        rcases List.mem_append.mp hz with hz | hz
        · exact hafter z hz
        · rwa [List.mem_singleton.mp hz]

theorem Lags.quorumAt (h : Lags committee l) (htop : ∀ x ∈ l, x.round ≤ n)
    (hreach : n = 0 ∨ ∃ x ∈ l, x.round = n) : committee.quorumAt l n = true := by
  obtain ⟨before, x, after, rfl, hbefore, hafter, hquorum, -⟩ := lags_iff.mp h
  have hx : x ∈ before ++ x :: after := List.mem_append_right _ List.mem_cons_self
  have hround : x.round = n := by
    refine Nat.le_antisymm (htop x hx) ?_
    rcases hreach with rfl | ⟨y, hy, rfl⟩
    · exact Nat.zero_le _
    · rcases List.mem_append.mp hy with hy | hy
      · exact Nat.le_of_lt (hbefore y hy)
      · rcases List.mem_cons.mp hy with rfl | hy
        · exact Nat.le_refl _
        · exact Nat.le_of_lt (hafter y hy)
  refine Committee.isQuorum_le hquorum ?_
  exact getTotalStake_mono (Finset.singleton_subset_iff.mpr (mem_seenAt.mpr ⟨x, hx, hround, rfl⟩))

inductive Phase (committee : Committee) (l : List BlockReference) (round : RoundNumber) : Prop
  | collecting (top : ∀ x ∈ l, x.round ≤ round) (reach : round = 0 ∨ ∃ x ∈ l, x.round = round)
      (quorum : committee.quorumAt l round = false)
  | advanced {n : RoundNumber} (round_eq : round = n + 1) (top : ∀ x ∈ l, x.round ≤ n)
      (quorum : committee.quorumAt l n = true) (notLags : ¬ Lags committee l)
  | lagging (top : ∀ x ∈ l, x.round ≤ round) (quorum : committee.quorumAt l round = true)
      (lags : Lags committee l)

structure ClockState (committee : Committee) (l : List BlockReference)
    (t : ThresholdClockAggregator) : Prop where
  counts : t.aggregator.Counts committee
  votes : t.aggregator.votes = seenAt l t.round
  phase : Phase committee l t.round

namespace Phase

variable {round : RoundNumber}

section

variable (h : Phase committee l round)

include h

theorem top : ∀ x ∈ l, x.round ≤ round := by
  cases h with
  | collecting top => exact top
  | advanced round_eq top => exact fun x hx => round_eq ▸ (top x hx).trans (Nat.le_succ _)
  | lagging top => exact top

theorem closedForm_eq (hlags : ¬ Lags committee l) :
    committee.closedForm l = round := by
  cases h with
  | collecting top reach quorum => exact closedForm_of_not_quorum top reach quorum
  | advanced round_eq top quorum => exact (closedForm_of_quorum top quorum).trans round_eq.symm
  | lagging _ _ lags => exact absurd lags hlags

theorem closedForm_eq_succ (hlags : Lags committee l) :
    committee.closedForm l = round + 1 := by
  cases h with
  | collecting top reach quorum =>
    have hquorum := hlags.quorumAt top reach
    rw [quorum] at hquorum
    cases hquorum
  | advanced _ _ _ notLags => exact absurd hlags notLags
  | lagging top quorum => exact closedForm_of_quorum top quorum

theorem old (hless : r.round < round) :
    Phase committee (l ++ [r]) round := by
  have htop : ∀ x ∈ l ++ [r], x.round ≤ round :=
    List.forall_mem_append.mpr ⟨h.top, List.forall_mem_singleton.mpr (Nat.le_of_lt hless)⟩
  have hsame : committee.quorumAt (l ++ [r]) round = committee.quorumAt l round := by
    unfold Committee.quorumAt
    rw [seenAt_append_ne hless.ne]
  cases h with
  | collecting top reach quorum =>
    refine .collecting htop (reach.imp_right ?_) (hsame.trans quorum)
    exact fun ⟨x, hx, hround⟩ => ⟨x, List.mem_append_left _ hx, hround⟩
  | @advanced n round_eq top quorum notLags =>
    have hle : r.round ≤ n := Nat.le_of_lt_succ (hless.trans_eq round_eq)
    obtain ⟨x, hx, hround⟩ := exists_of_quorumAt quorum
    refine .advanced round_eq ?_ ?_ fun hlags => ?_
    · exact List.forall_mem_append.mpr ⟨top, List.forall_mem_singleton.mpr hle⟩
    · refine Committee.isQuorum_le quorum (getTotalStake_mono fun a ha => ?_)
      obtain ⟨y, hy, hy'⟩ := mem_seenAt.mp ha
      exact mem_seenAt.mpr ⟨y, List.mem_append_left _ hy, hy'⟩
    · rcases lags_append_iff.mp hlags with ⟨hall, -⟩ | ⟨hlags, -⟩
      · exact absurd (hround ▸ hall x hx) (Nat.not_lt.mpr hle)
      · exact notLags hlags
  | lagging top quorum lags =>
    obtain ⟨x, hx, hround⟩ := exists_of_quorumAt quorum
    refine .lagging htop (hsame.trans quorum) (lags_append_iff.mpr (.inr ⟨lags, x, hx, ?_⟩))
    exact hless.trans_eq hround.symm

theorem jump (hgreater : round < r.round) :
    Phase committee (l ++ [r]) r.round := by
  have hbefore : ∀ x ∈ l, x.round < r.round := fun x hx => (h.top x hx).trans_lt hgreater
  have htop : ∀ x ∈ l ++ [r], x.round ≤ r.round := List.forall_mem_append.mpr
    ⟨fun x hx => Nat.le_of_lt (hbefore x hx), List.forall_mem_singleton.mpr (Nat.le_refl _)⟩
  have hseen : seenAt (l ++ [r]) r.round = {r.authority} := by
    rw [seenAt_append_self, seenAt_eq_empty fun x hx => (hbefore x hx).ne]
    rfl
  have hquorum : committee.quorumAt (l ++ [r]) r.round =
      committee.isQuorum (committee.stake r.authority) := by
    unfold Committee.quorumAt Committee.getTotalStake
    rw [hseen, Finset.sum_singleton]
  cases hr : committee.isQuorum (committee.stake r.authority) with
  | true =>
    refine .lagging htop (hquorum.trans hr) (lags_append_iff.mpr (.inl ⟨hbefore, hr, ?_⟩))
    by_cases hlags : Lags committee l
    · exact .inr hlags
    · exact .inl ((h.closedForm_eq hlags).trans_lt hgreater)
  | false =>
    refine .collecting htop (.inr ⟨r, ?_, rfl⟩) (hquorum.trans hr)
    exact List.mem_append_right _ (List.mem_singleton_self r)

end

theorem advance (h : Phase committee l r.round)
    (hquorum : committee.quorumAt (l ++ [r]) r.round = true) :
    Phase committee (l ++ [r]) (r.round + 1) := by
  refine .advanced rfl ?_ hquorum fun hlags => ?_
  · exact List.forall_mem_append.mpr ⟨h.top, List.forall_mem_singleton.mpr (Nat.le_refl _)⟩
  · rcases lags_append_iff.mp hlags with ⟨hall, -, hclosed | hlags⟩ | ⟨-, x, hx, hlt⟩
    · by_cases hlags : Lags committee l
      · exact absurd ((h.closedForm_eq_succ hlags).symm.trans_lt hclosed) (Nat.not_succ_lt_self)
      · exact absurd ((h.closedForm_eq hlags).symm.trans_lt hclosed) (Nat.lt_irrefl _)
    · -- The clock lags at the round of the block, which is then not the first of it.
      cases h with
      | collecting top reach quorum =>
        have hquorum := hlags.quorumAt top reach
        rw [quorum] at hquorum
        cases hquorum
      | advanced _ _ _ notLags => exact notLags hlags
      | lagging _ quorum =>
        obtain ⟨x, hx, hround⟩ := exists_of_quorumAt quorum
        exact (hall x hx).ne hround
    · exact absurd (h.top x hx) (Nat.not_le.mpr hlt)

end Phase

theorem clockState_new : ClockState committee [] (.new 0) where
  counts := StakeAggregator.counts_new
  votes := rfl
  phase := .collecting nofun (.inl rfl) rfl

theorem ClockState.addBlock (h : ClockState committee l t)
    (hadd : t.addBlock r committee = some t') : ClockState committee (l ++ [r]) t' := by
  cases ticks_of_addBlock h.counts hadd with
  | old less => exact ⟨h.counts, by rw [seenAt_append_ne less.ne, h.votes], h.phase.old less⟩
  | @jump agg greater counts votes =>
    refine ⟨counts, ?_, h.phase.jump greater⟩
    have hempty : seenAt l r.round = ∅ :=
      seenAt_eq_empty fun x hx => ((h.phase.top x hx).trans_lt greater).ne
    ext a
    show a ∈ agg.votes ↔ a ∈ seenAt (l ++ [r]) r.round
    rw [votes, seenAt_append_self, hempty, Finset.mem_insert, or_iff_left (Finset.notMem_empty a)]
  | @vote agg equal counts votes quorum =>
    have hvotes : agg.votes = seenAt (l ++ [r]) t.round := by
      ext a
      rw [votes, h.votes, ← equal, seenAt_append_self, Finset.mem_insert]
    have hquorum : committee.quorumAt (l ++ [r]) t.round = false := by
      unfold Committee.quorumAt Committee.getTotalStake
      rw [← hvotes, ← counts.stake]
      exact quorum
    refine ⟨counts, hvotes, .collecting ?_ (.inr ⟨r, ?_, equal⟩) hquorum⟩
    · exact List.forall_mem_append.mpr ⟨h.phase.top, List.forall_mem_singleton.mpr equal.le⟩
    · exact List.mem_append_right _ (List.mem_singleton_self r)
  | @advance agg equal counts votes quorum =>
    have hvotes : agg.votes = seenAt (l ++ [r]) r.round := by
      ext a
      rw [votes, h.votes, ← equal, seenAt_append_self, Finset.mem_insert]
    have hquorum : committee.quorumAt (l ++ [r]) r.round = true := by
      unfold Committee.quorumAt Committee.getTotalStake
      rw [← hvotes, ← counts.stake]
      exact quorum
    have hphase : Phase committee l r.round := equal ▸ h.phase
    refine ⟨StakeAggregator.counts_new, ?_, hphase.advance hquorum⟩
    refine (seenAt_eq_empty ?_).symm
    refine List.forall_mem_append.mpr ⟨fun x hx => ?_, List.forall_mem_singleton.mpr ?_⟩
    · exact (Nat.lt_succ_of_le (hphase.top x hx)).ne
    · exact (Nat.lt_succ_self _).ne

theorem clockState_addAll (hall : ThresholdClockAggregator.addAll committee (.new 0) l = some t) :
    ClockState committee l t := by
  induction l using List.reverseRecOn generalizing t with
  | nil =>
    cases hall
    exact clockState_new
  | append_singleton l r ih =>
    unfold ThresholdClockAggregator.addAll at hall
    rw [List.foldlM_append] at hall
    obtain ⟨t₁, hall, hlast⟩ := Option.bind_eq_some_iff.mp hall
    obtain ⟨t₂, hadd, hnil⟩ := Option.bind_eq_some_iff.mp hlast
    cases hnil
    exact (ih hall).addBlock hadd

/-- After any blocks of known authorities, the clock has the round of the closed form unless it lags
after a jump to a block whose author is a quorum alone. -/
theorem getRound_eq_closedForm_iff
    (hknown : ∀ r ∈ l, committee.knownAuthority r.authority = true) :
    ∃ t, ThresholdClockAggregator.addAll committee (.new 0) l = some t ∧
      (t.getRound = committee.closedForm l ↔ ¬ Lags committee l) := by
  have hcounts : (ThresholdClockAggregator.new 0).aggregator.Counts committee :=
    StakeAggregator.counts_new
  obtain ⟨t, hall⟩ :=
    exists_addAll hcounts fun r hr => Committee.knownAuthority_iff.mp (hknown r hr)
  refine ⟨t, hall, ?_⟩
  have hphase := (clockState_addAll hall).phase
  by_cases hlags : Lags committee l
  · refine iff_of_false (fun heq => ?_) (not_not.mpr hlags)
    have hsucc : committee.closedForm l = t.round + 1 := hphase.closedForm_eq_succ hlags
    exact (Nat.lt_succ_self _).ne (heq.trans hsucc)
  · exact iff_of_true (hphase.closedForm_eq hlags).symm hlags

theorem not_lags (h : ∀ a, committee.isQuorum (committee.stake a) = false) : ¬ Lags committee l := by
  intro hlags
  obtain ⟨_, r, _, -, -, -, hquorum, -⟩ := lags_iff.mp hlags
  rw [h] at hquorum
  cases hquorum

theorem equalClock_closedForm : ∃ t, ThresholdClockAggregator.addAll .fourEqual (.new 0)
      [⟨0, 1, 0⟩, ⟨1, 0, 0⟩, ⟨1, 1, 0⟩, ⟨2, 1, 0⟩] = some t ∧
    t.getRound = Committee.fourEqual.closedForm [⟨0, 1, 0⟩, ⟨1, 0, 0⟩, ⟨1, 1, 0⟩, ⟨2, 1, 0⟩] ∧
    t.getRound = 2 := by
  obtain ⟨t, hall, hiff⟩ := @getRound_eq_closedForm_iff .fourEqual
    [⟨0, 1, 0⟩, ⟨1, 0, 0⟩, ⟨1, 1, 0⟩, ⟨2, 1, 0⟩] (by decide)
  have hlone : ∀ a, Committee.fourEqual.isQuorum (Committee.fourEqual.stake a) = false := by
    intro a
    refine decide_eq_false (Nat.not_lt.mpr ?_)
    have hle : Committee.fourEqual.stake a ≤ 1 := by
      unfold Committee.stake Committee.getStake
      cases ha : Committee.fourEqual.authorities[a]? with
      | none => exact Nat.zero_le 1
      | some stake =>
        have hmem : stake ∈ [1, 1, 1, 1] := List.mem_of_getElem? ha
        simp only [List.mem_cons, List.not_mem_nil, or_false, or_self] at hmem
        exact hmem.le
    exact hle.trans (by decide)
  have hclosed := hiff.mpr (not_lags hlone)
  exact ⟨t, hall, hclosed, hclosed.trans (by decide)⟩

/-- The only authority of a committee is a quorum. The clock that is given its block of round 1 stays
at round 1. -/
theorem soleAuthority_clock_lags : ∃ (committee : Committee) (t : ThresholdClockAggregator),
    committee.totalStake < 2 ^ 63 ∧ committee.knownAuthority 0 = true ∧
    ThresholdClockAggregator.addAll committee (.new 0) [⟨0, 1, 0⟩] = some t ∧
    t.getRound = 1 ∧ committee.closedForm [⟨0, 1, 0⟩] = 2 :=
  ⟨⟨[1], by decide, by decide, by decide, by decide⟩, ⟨⟨{0}, 1⟩, 1⟩, by decide, by decide, by decide,
    rfl, by decide⟩

end CongestionControl.Mysticeti
