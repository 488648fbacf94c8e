import CongestionControl.Mysticeti.Dag
import CongestionControl.Mysticeti.Proofs.CommitteeProofs

/-!
# The threshold clock

What the clock does with a block, why it is at its round, and how far it gets with a part of the
blocks: it is never ahead of the clock that has counted all of them.
-/

namespace CongestionControl.Mysticeti

variable {committee : Committee} {t t' u u' : ThresholdClockAggregator} {r : BlockReference}
  {l l' : List BlockReference}

theorem StakeAggregator.add_eq_some {agg agg' : StakeAggregator} {a : AuthorityIndex} {quorum : Bool}
    (hcounts : agg.Counts committee) (h : agg.add a committee = some (agg', quorum)) :
    a ∈ Finset.range committee.len ∧ agg'.Counts committee ∧ quorum = committee.isQuorum agg'.stake ∧
      ∀ x, x ∈ agg'.votes ↔ x = a ∨ x ∈ agg.votes := by
  have ha : a ∈ Finset.range committee.len := by
    obtain ⟨stake, hstake, -⟩ := Option.map_eq_some_iff.mp h
    exact Finset.mem_range.mpr (List.getElem?_eq_some_iff.mp hstake).1
  obtain ⟨agg₁, hadd, hcounts₁, hvotes⟩ := StakeAggregator.add_eq hcounts ha
  rw [hadd] at h
  cases h
  exact ⟨ha, hcounts₁, rfl, hvotes⟩

inductive Ticks (committee : Committee) (t : ThresholdClockAggregator) (r : BlockReference) :
    ThresholdClockAggregator → Prop
  | old (less : r.round < t.round) : Ticks committee t r t
  | jump {agg : StakeAggregator} (greater : t.round < r.round) (counts : agg.Counts committee)
      (votes : ∀ a, a ∈ agg.votes ↔ a = r.authority) : Ticks committee t r ⟨agg, r.round⟩
  | vote {agg : StakeAggregator} (equal : r.round = t.round) (counts : agg.Counts committee)
      (votes : ∀ a, a ∈ agg.votes ↔ a = r.authority ∨ a ∈ t.aggregator.votes)
      (quorum : committee.isQuorum agg.stake = false) : Ticks committee t r ⟨agg, t.round⟩
  | advance {agg : StakeAggregator} (equal : r.round = t.round) (counts : agg.Counts committee)
      (votes : ∀ a, a ∈ agg.votes ↔ a = r.authority ∨ a ∈ t.aggregator.votes)
      (quorum : committee.isQuorum agg.stake = true) : Ticks committee t r ⟨.new, r.round + 1⟩

theorem ticks_of_addBlock (hcounts : t.aggregator.Counts committee)
    (h : t.addBlock r committee = some t') : Ticks committee t r t' := by
  obtain ⟨t₁, hcount, rfl⟩ := Option.map_eq_some_iff.mp h
  -- The clock has caught up with the block already.
  have hnot : Ticks committee t r t₁ → ¬ t₁.round < r.round := by
    intro hticks
    cases hticks with
    | old less => exact Nat.lt_asymm less
    | jump => exact Nat.lt_irrefl _
    | vote equal => exact equal.le.not_gt
    | advance => exact (Nat.le_succ _).not_gt
  have hticks : Ticks committee t r t₁ := by
    unfold ThresholdClockAggregator.countBlock at hcount
    split_ifs at hcount with hless hgreater
    · cases hcount
      exact .old hless
    · obtain ⟨⟨agg, quorum⟩, hadd, rfl⟩ := Option.map_eq_some_iff.mp hcount
      obtain ⟨-, hcounts', -, hvotes⟩ := StakeAggregator.add_eq_some StakeAggregator.counts_new hadd
      refine .jump hgreater hcounts' fun a => (hvotes a).trans (or_iff_left ?_)
      exact Finset.notMem_empty a
    · have hequal : r.round = t.round := Nat.le_antisymm (Nat.not_lt.mp hgreater) (Nat.not_lt.mp hless)
      obtain ⟨⟨agg, quorum⟩, hadd, rfl⟩ := Option.map_eq_some_iff.mp hcount
      obtain ⟨-, hcounts', rfl, hvotes⟩ := StakeAggregator.add_eq_some hcounts hadd
      cases hquorum : committee.isQuorum agg.stake with
      | true => exact .advance hequal hcounts' hvotes hquorum
      | false => exact .vote hequal hcounts' hvotes hquorum
  rw [if_neg (hnot hticks)]
  exact hticks

theorem known_of_addBlock (hle : t.round ≤ r.round) (h : t.addBlock r committee = some t') :
    r.authority ∈ Finset.range committee.len := by
  have hknown : ∀ {agg : StakeAggregator} {x : StakeAggregator × Bool},
      agg.add r.authority committee = some x → r.authority ∈ Finset.range committee.len := by
    intro agg x hadd
    obtain ⟨stake, hstake, -⟩ := Option.map_eq_some_iff.mp hadd
    exact Finset.mem_range.mpr (List.getElem?_eq_some_iff.mp hstake).1
  obtain ⟨t₁, hcount, -⟩ := Option.map_eq_some_iff.mp h
  unfold ThresholdClockAggregator.countBlock at hcount
  rw [if_neg (Nat.not_lt.mpr hle)] at hcount
  split_ifs at hcount with hgreater
  · obtain ⟨x, hadd, -⟩ := Option.map_eq_some_iff.mp hcount
    exact hknown hadd
  · obtain ⟨x, hadd, -⟩ := Option.map_eq_some_iff.mp hcount
    exact hknown hadd

/-- Why a clock that has counted the blocks of a set is at its round. -/
structure ClockInv (committee : Committee) (s : Set StatementBlock) (t : ThresholdClockAggregator) :
    Prop where
  counts : t.aggregator.Counts committee
  votes : ∀ a ∈ t.aggregator.votes, ∃ b ∈ s, b.author = a ∧ b.round = t.round
  top : ∀ b ∈ s, b.round ≤ t.round
  reason : t.round = 0 ∨ (∃ b ∈ s, b.round = t.round) ∨
    committee.HasQuorum fun a => ∃ b ∈ s, b.author = a ∧ b.round + 1 = t.round

theorem clockInv_new : ClockInv committee ∅ (.new 0) where
  counts := StakeAggregator.counts_new
  votes a ha := absurd ha (Finset.notMem_empty a)
  top := nofun
  reason := .inl rfl

theorem ClockInv.addBlock (htotal : committee.totalStake < 2 ^ 63) {s : Set StatementBlock}
    {b : StatementBlock} (h : ClockInv committee s t)
    (hadd : t.addBlock b.reference committee = some t') : ClockInv committee (insert b s) t' := by
  cases ticks_of_addBlock h.counts hadd with
  | old less =>
    refine ⟨h.counts, fun a ha => ?_, fun c hc => ?_, ?_⟩
    · obtain ⟨c, hc, hca⟩ := h.votes a ha
      exact ⟨c, .inr hc, hca⟩
    · rcases hc with rfl | hc
      · exact Nat.le_of_lt less
      · exact h.top c hc
    · refine h.reason.imp_right (Or.imp (fun ⟨c, hc, hr⟩ => ⟨c, .inr hc, hr⟩) fun hquorum => ?_)
      exact hquorum.mono fun a ⟨c, hc, hca⟩ => ⟨c, .inr hc, hca⟩
  | jump greater counts votes =>
    refine ⟨counts, fun a ha => ?_, fun c hc => ?_, .inr (.inl ⟨b, .inl rfl, rfl⟩)⟩
    · exact ⟨b, .inl rfl, ((votes a).mp ha).symm, rfl⟩
    · rcases hc with rfl | hc
      · exact Nat.le_refl _
      · exact (h.top c hc).trans (Nat.le_of_lt greater)
  | vote equal counts votes _ =>
    refine ⟨counts, fun a ha => ?_, fun c hc => ?_, .inr (.inl ⟨b, .inl rfl, equal⟩)⟩
    · rcases (votes a).mp ha with rfl | ha
      · exact ⟨b, .inl rfl, rfl, equal⟩
      · obtain ⟨c, hc, hca⟩ := h.votes a ha
        exact ⟨c, .inr hc, hca⟩
    · rcases hc with rfl | hc
      · exact equal.le
      · exact h.top c hc
  | advance equal counts votes quorum =>
    refine ⟨StakeAggregator.counts_new, fun a ha => absurd ha (Finset.notMem_empty a),
      fun c hc => ?_, .inr (.inr ?_)⟩
    · rcases hc with rfl | hc
      · exact Nat.le_succ _
      · exact (h.top c hc).trans (equal.ge.trans (Nat.le_succ _))
    · refine ((counts.isQuorum_iff htotal).mp quorum).mono fun a ha => ?_
      rcases (votes a).mp ha with rfl | ha
      · exact ⟨b, .inl rfl, rfl, rfl⟩
      · obtain ⟨c, hc, hca, hcr⟩ := h.votes a ha
        exact ⟨c, .inr hc, hca, congrArg (· + 1) (hcr.trans equal.symm)⟩

def ThresholdClockAggregator.addAll (committee : Committee) (t : ThresholdClockAggregator)
    (l : List BlockReference) : Option ThresholdClockAggregator :=
  l.foldlM (fun t reference => t.addBlock reference committee) t

section

variable (hcounts : t.aggregator.Counts committee)

include hcounts

theorem counts_of_addBlock (h : t.addBlock r committee = some t') :
    t'.aggregator.Counts committee := by
  cases ticks_of_addBlock hcounts h with
  | old => exact hcounts
  | jump _ counts => exact counts
  | vote _ counts => exact counts
  | advance => exact StakeAggregator.counts_new

theorem exists_addBlock (hknown : r.authority ∈ Finset.range committee.len) :
    ∃ t', t.addBlock r committee = some t' := by
  unfold ThresholdClockAggregator.addBlock ThresholdClockAggregator.countBlock
  split_ifs with hless hgreater
  · exact ⟨_, rfl⟩
  · obtain ⟨agg, hadd, -⟩ := StakeAggregator.add_eq StakeAggregator.counts_new hknown
    rw [hadd]
    exact ⟨_, rfl⟩
  · obtain ⟨agg, hadd, -⟩ := StakeAggregator.add_eq hcounts hknown
    rw [hadd]
    exact ⟨_, rfl⟩

theorem exists_addAll (hknown : ∀ r ∈ l, r.authority ∈ Finset.range committee.len) :
    ∃ t', t.addAll committee l = some t' := by
  induction l generalizing t with
  | nil => exact ⟨t, rfl⟩
  | cons r l ih =>
    obtain ⟨t₁, hadd⟩ := exists_addBlock hcounts (hknown r List.mem_cons_self)
    obtain ⟨t', hall⟩ :=
      ih (counts_of_addBlock hcounts hadd) fun r hr => hknown r (List.mem_cons_of_mem _ hr)
    exact ⟨t', Option.bind_eq_some_iff.mpr ⟨t₁, hadd, hall⟩⟩

end

theorem isQuorum_mono {agg agg' : StakeAggregator} (hcounts : agg.Counts committee)
    (hcounts' : agg'.Counts committee) (hsub : agg'.votes ⊆ agg.votes)
    (h : committee.isQuorum agg'.stake = true) : committee.isQuorum agg.stake = true := by
  refine decide_eq_true ((of_decide_eq_true h).trans_le ?_)
  rw [hcounts.stake, hcounts'.stake]
  exact Finset.sum_le_sum_of_subset hsub

structure Behind (committee : Committee) (t' t : ThresholdClockAggregator) : Prop where
  counts' : t'.aggregator.Counts committee
  counts : t.aggregator.Counts committee
  round : t'.round ≤ t.round
  votes : t'.round = t.round → t'.aggregator.votes ⊆ t.aggregator.votes

theorem Behind.skip (h : Behind committee t' t) (hadd : t.addBlock r committee = some u) :
    Behind committee t' u := by
  refine ⟨h.counts', counts_of_addBlock h.counts hadd, ?_, ?_⟩
  · cases ticks_of_addBlock h.counts hadd with
    | old => exact h.round
    | jump greater => exact h.round.trans (Nat.le_of_lt greater)
    | vote => exact h.round
    | advance equal => exact h.round.trans (equal.ge.trans (Nat.le_succ _))
  · cases ticks_of_addBlock h.counts hadd with
    | old => exact h.votes
    | jump greater => exact fun heq => absurd heq (h.round.trans_lt greater).ne
    | vote _ _ votes => exact fun heq a ha => (votes a).mpr (.inr (h.votes heq ha))
    | advance equal =>
      exact fun heq => absurd heq (h.round.trans_lt (equal.ge.trans_lt (Nat.lt_succ_self _))).ne

theorem Behind.addBlock (h : Behind committee t' t) (hadd' : t'.addBlock r committee = some u')
    (hadd : t.addBlock r committee = some u) : Behind committee u' u := by
  have hc' := counts_of_addBlock h.counts' hadd'
  have hc := counts_of_addBlock h.counts hadd
  cases ticks_of_addBlock h.counts' hadd' with
  | old => exact h.skip hadd
  | jump greater' counts' votes' =>
    cases ticks_of_addBlock h.counts hadd with
    | old less => exact ⟨hc', hc, Nat.le_of_lt less, fun heq => absurd heq less.ne⟩
    | jump greater counts votes =>
      exact ⟨hc', hc, Nat.le_refl _, fun _ a ha => (votes a).mpr ((votes' a).mp ha)⟩
    | vote equal counts votes =>
      exact ⟨hc', hc, equal.le, fun _ a ha => (votes a).mpr (.inl ((votes' a).mp ha))⟩
    | advance => exact ⟨hc', hc, Nat.le_succ _, fun heq => absurd heq (Nat.lt_succ_self _).ne⟩
  | vote equal' counts' votes' =>
    cases ticks_of_addBlock h.counts hadd with
    | old less => exact ⟨hc', hc, h.round, fun heq => absurd (equal'.trans heq) less.ne⟩
    | jump greater => exact absurd (equal'.le.trans h.round) (Nat.not_le.mpr greater)
    | vote equal counts votes =>
      refine ⟨hc', hc, h.round, fun heq a ha => (votes a).mpr (((votes' a).mp ha).imp_right ?_)⟩
      exact fun ha => h.votes heq ha
    | advance equal => exact ⟨hc', hc, equal'.ge.trans (Nat.le_succ _), fun heq =>
        absurd (equal'.trans heq) (Nat.lt_succ_self _).ne⟩
  | advance equal' counts' votes' quorum' =>
    have hempty : ∀ s : Finset AuthorityIndex, StakeAggregator.new.votes ⊆ s := Finset.empty_subset
    cases ticks_of_addBlock h.counts hadd with
    | old less => exact ⟨hc', hc, less, fun _ => hempty _⟩
    | jump greater => exact absurd (equal'.le.trans h.round) (Nat.not_le.mpr greater)
    | vote equal counts votes quorum =>
      -- The clock that is ahead has counted the same votes, so it has the quorum too.
      have hsub : ∀ a, a ∈ _ → a ∈ _ := fun a ha =>
        (votes a).mpr (((votes' a).mp ha).imp_right fun ha => h.votes (equal'.symm.trans equal) ha)
      exact absurd (isQuorum_mono counts counts' hsub quorum') (Bool.eq_false_iff.mp quorum)
    | advance => exact ⟨hc', hc, Nat.le_refl _, fun _ => hempty _⟩

theorem Behind.addAll (h : Behind committee t' t) (hsub : l'.Sublist l)
    (hall' : t'.addAll committee l' = some u') (hall : t.addAll committee l = some u) :
    Behind committee u' u := by
  induction hsub generalizing t t' with
  | slnil =>
    cases hall
    cases hall'
    exact h
  | cons r _ ih =>
    obtain ⟨t₁, hadd, hall⟩ := Option.bind_eq_some_iff.mp hall
    exact ih (h.skip hadd) hall' hall
  | cons_cons r _ ih =>
    obtain ⟨t₁, hadd, hall⟩ := Option.bind_eq_some_iff.mp hall
    obtain ⟨t₁', hadd', hall'⟩ := Option.bind_eq_some_iff.mp hall'
    exact ih (h.addBlock hadd' hadd) hall' hall

/-- The clock has counted the blocks of a list. If the authorities of its round hold a quorum, it is
one authority alone, whose block the clock jumped to. -/
structure Counted (committee : Committee) (l : List BlockReference) (t : ThresholdClockAggregator) :
    Prop where
  counts : t.aggregator.Counts committee
  top : ∀ r ∈ l, r.round ≤ t.round
  voted : ∀ r ∈ l, r.round = t.round → r.authority ∈ t.aggregator.votes
  silent : committee.isQuorum t.aggregator.stake = false ∨
    ∀ r ∈ l, ∀ r' ∈ l, r.round = t.round → r'.round = t.round → r.authority = r'.authority

theorem Counted.addBlock (h : Counted committee l t) (hadd : t.addBlock r committee = some t') :
    Counted committee (l ++ [r]) t' := by
  have hforall : ∀ {p : BlockReference → Prop}, (∀ x ∈ l ++ [r], p x) ↔ (∀ x ∈ l, p x) ∧ p r := by
    intro p
    rw [List.forall_mem_append, List.forall_mem_singleton]
  have hc := counts_of_addBlock h.counts hadd
  cases ticks_of_addBlock h.counts hadd with
  | old less =>
    refine ⟨hc, hforall.mpr ⟨h.top, Nat.le_of_lt less⟩,
      hforall.mpr ⟨h.voted, fun heq => absurd heq less.ne⟩, h.silent.imp_right fun hsame => ?_⟩
    refine hforall.mpr ⟨fun x hx => hforall.mpr ⟨hsame x hx, ?_⟩, ?_⟩
    · exact fun _ heq => absurd heq less.ne
    · exact fun _ _ heq => absurd heq less.ne
  | jump greater counts votes =>
    have hlt : ∀ x ∈ l, x.round ≠ r.round := fun x hx => ((h.top x hx).trans_lt greater).ne
    refine ⟨hc, hforall.mpr ⟨fun x hx => (h.top x hx).trans (Nat.le_of_lt greater), Nat.le_refl _⟩,
      hforall.mpr ⟨fun x hx heq => absurd heq (hlt x hx), fun _ => (votes _).mpr rfl⟩, .inr ?_⟩
    refine hforall.mpr ⟨fun x hx _ _ heq => absurd heq (hlt x hx), hforall.mpr ⟨?_, fun _ _ => rfl⟩⟩
    exact fun x hx _ heq => absurd heq (hlt x hx)
  | vote equal counts votes quorum =>
    refine ⟨hc, hforall.mpr ⟨h.top, equal.le⟩, hforall.mpr ⟨fun x hx heq => ?_, fun _ => ?_⟩, .inl quorum⟩
    · exact (votes _).mpr (.inr (h.voted x hx heq))
    · exact (votes _).mpr (.inl rfl)
  | advance equal =>
    have hlt : ∀ x ∈ l ++ [r], x.round < r.round + 1 :=
      hforall.mpr ⟨fun x hx => Nat.lt_succ_of_le ((h.top x hx).trans equal.ge), Nat.lt_succ_self _⟩
    exact ⟨hc, fun x hx => Nat.le_of_lt (hlt x hx), fun x hx heq => absurd heq (hlt x hx).ne, .inl rfl⟩

theorem counted_addAll (hall : ThresholdClockAggregator.addAll committee (.new 0) l = some t) :
    Counted committee l t := by
  have hfrom : ∀ (l' done : List BlockReference) (t₀ : ThresholdClockAggregator),
      Counted committee done t₀ → t₀.addAll committee l' = some t → Counted committee (done ++ l') t := by
    intro l'
    induction l' with
    | nil =>
      intro done t₀ h hall
      cases hall
      rw [List.append_nil]
      exact h
    | cons r l' ih =>
      intro done t₀ h hall
      obtain ⟨t₁, hadd, hall⟩ := Option.bind_eq_some_iff.mp hall
      rw [← List.singleton_append, ← List.append_assoc]
      exact ih _ t₁ (h.addBlock hadd) hall
  exact hfrom l [] (.new 0) ⟨StakeAggregator.counts_new, nofun, nofun, .inl rfl⟩ hall

/-- A quorum of at least two authorities moves the clock to the next round. -/
theorem Counted.lt_of_quorum (h : Counted committee l t) {s : Finset AuthorityIndex}
    {round : RoundNumber} (hs : ∀ a ∈ s, ∃ r ∈ l, r.authority = a ∧ r.round = round)
    (hquorum : committee.isQuorum (committee.getTotalStake s) = true) (htwo : 1 < s.card) :
    round < t.round := by
  obtain ⟨a, ha, b, hb, hne⟩ := Finset.one_lt_card.mp htwo
  obtain ⟨r, hr, rfl, hround⟩ := hs a ha
  obtain ⟨r', hr', rfl, hround'⟩ := hs b hb
  refine Nat.lt_of_le_of_ne (hround ▸ h.top r hr) fun heq => ?_
  subst heq
  rcases h.silent with hsilent | hsame
  · have hsub : s ⊆ t.aggregator.votes := by
      intro a ha
      obtain ⟨x, hx, rfl, hxr⟩ := hs a ha
      exact h.voted x hx hxr
    have hle : committee.getTotalStake s ≤ t.aggregator.stake := by
      rw [h.counts.stake]
      exact Finset.sum_le_sum_of_subset hsub
    exact (of_decide_eq_false hsilent) ((of_decide_eq_true hquorum).trans_le hle)
  · exact hne (hsame r hr r' hr' hround hround')

end CongestionControl.Mysticeti
