import CongestionControl.Mysticeti.Proofs.BaseCommitterProofs

/-!
# When a direct skip is sound

Blames are counted in the round after the leader, votes in the round before the decision round. With
waves of length three these are the same round; in a longer wave a leader can be blamed by all others
and still be certified.
-/

namespace CongestionControl.Mysticeti

/-! ## A DAG with one supporter -/

section Lone

variable (committee : Committee) (leader : AuthorityIndex) (leaderRound : RoundNumber)

def loneIncludes (a : AuthorityIndex) (round : RoundNumber) : List BlockReference :=
  ((List.range committee.len).filter fun c => ¬ (c = leader ∧ round = leaderRound + 1 ∧ a ≠ leader)
    ).map fun c => ⟨c, round - 1, 0⟩

def loneBlock (a : AuthorityIndex) : RoundNumber → StatementBlock
  | 0 => .newGenesis a
  | round + 1 => ⟨⟨a, round + 1, 0⟩, loneIncludes committee leader leaderRound a (round + 1)⟩

def loneBlocks (rounds : Nat) : List StatementBlock :=
  (List.range rounds).flatMap fun r =>
    (List.range committee.len).map fun a => loneBlock committee leader leaderRound a r

variable {committee leader leaderRound} {a c : AuthorityIndex} {r : RoundNumber} {n : Nat}

theorem loneBlock_reference : (loneBlock committee leader leaderRound a r).reference = ⟨a, r, 0⟩ := by
  cases r <;> rfl

theorem mem_loneBlocks {b : StatementBlock} :
    b ∈ loneBlocks committee leader leaderRound n ↔
      ∃ r < n, ∃ a < committee.len, loneBlock committee leader leaderRound a r = b := by
  simp [loneBlocks]

theorem mem_loneIncludes {i : BlockReference} :
    i ∈ loneIncludes committee leader leaderRound a r ↔ ∃ c < committee.len,
      ¬ (c = leader ∧ r = leaderRound + 1 ∧ a ≠ leader) ∧ i = ⟨c, r - 1, 0⟩ := by
  simp only [loneIncludes, List.mem_map, List.mem_filter, List.mem_range, decide_eq_true_iff]
  constructor
  · rintro ⟨c, ⟨hc, hnot⟩, rfl⟩
    exact ⟨c, hc, hnot, rfl⟩
  · rintro ⟨c, hc, hnot, rfl⟩
    exact ⟨c, ⟨hc, hnot⟩, rfl⟩

theorem hasQuorum_others_iff (htotal : committee.totalStake < 2 ^ 63) (hleader : leader < committee.len) :
    (committee.HasQuorum fun c => c < committee.len ∧ c ≠ leader) ↔
      committee.isQuorum (committee.totalStake - committee.stake leader) = true := by
  have hmem : leader ∈ Finset.range committee.len := Finset.mem_range.mpr hleader
  have hothers : ∀ c ∈ Finset.range committee.len,
      c ∈ (Finset.range committee.len).erase leader ↔ c < committee.len ∧ c ≠ leader := by
    intro c _
    rw [Finset.mem_erase, Finset.mem_range, and_comm]
  have hsum := Finset.add_sum_erase _ committee.stake hmem
  rw [committee.sum_stake] at hsum
  unfold Committee.HasQuorum Quorum.Holds
  rw [Quorum.exceeds_iff_of_mem (Finset.erase_subset _ _) hothers, Committee.isQuorum_iff htotal,
    committee.sum_stake, ← hsum, Nat.add_sub_cancel_left]

theorem verified_loneBlock (htotal : committee.totalStake < 2 ^ 63)
    (hquorum : committee.isQuorum (committee.totalStake - committee.stake leader) = true)
    (hleader : leader < committee.len) (ha : a < committee.len) :
    Verified committee (loneBlock committee leader leaderRound a (r + 1)) where
  author := Finset.mem_range.mpr ha
  round := Nat.succ_ne_zero r
  known i hi := by
    obtain ⟨c, hc, -, rfl⟩ := mem_loneIncludes.mp hi
    exact Finset.mem_range.mpr hc
  lower i hi := by
    obtain ⟨c, -, -, rfl⟩ := mem_loneIncludes.mp hi
    exact Nat.lt_succ_self r
  quorum := by
    refine ((hasQuorum_others_iff htotal hleader).mpr hquorum).mono fun c hc => ?_
    exact ⟨⟨c, r, 0⟩, mem_loneIncludes.mpr ⟨c, hc.1, fun h => hc.2 h.1, rfl⟩, rfl, rfl⟩

def loneDag (htotal : committee.totalStake < 2 ^ 63)
    (hquorum : committee.isQuorum (committee.totalStake - committee.stake leader) = true)
    (hleader : leader < committee.len) (leaderRound : RoundNumber) (n : Nat) :
    ConsensusDag committee :=
  .ofList (loneBlocks committee leader leaderRound n)
    (by
      intro b hb b' hb' h
      obtain ⟨r, -, a, -, rfl⟩ := mem_loneBlocks.mp hb
      obtain ⟨r', -, a', -, rfl⟩ := mem_loneBlocks.mp hb'
      simp only [StatementBlock.authorRound, StatementBlock.author, StatementBlock.round,
        loneBlock_reference, Prod.mk.injEq] at h
      rw [h.1, h.2])
    (by
      intro b hb
      obtain ⟨r, -, a, ha, rfl⟩ := mem_loneBlocks.mp hb
      rcases r with - | r
      · exact .inl ⟨a, Committee.knownAuthority_iff.mpr (Finset.mem_range.mpr ha), rfl⟩
      · exact .inr ((verify_iff htotal).mpr (verified_loneBlock htotal hquorum hleader ha)))

def loneView (htotal : committee.totalStake < 2 ^ 63)
    (hquorum : committee.isQuorum (committee.totalStake - committee.stake leader) = true)
    (hleader : leader < committee.len) (leaderRound : RoundNumber) (n : Nat) :
    View (loneDag htotal hquorum hleader leaderRound n) :=
  .ofList (loneBlocks committee leader leaderRound n) (fun _ hb => hb) (by
    intro b hb i hi
    obtain ⟨r, hr, a, -, rfl⟩ := mem_loneBlocks.mp hb
    rcases r with - | r
    · cases hi
    · obtain ⟨c, hc, -, rfl⟩ := mem_loneIncludes.mp hi
      exact ⟨_, mem_loneBlocks.mpr ⟨r, Nat.lt_of_succ_lt hr, c, hc, rfl⟩, loneBlock_reference⟩)

/-- The search finds a supported block if some included block has it and the others have it or
nothing. -/
theorem searchIncludes_found {committer : BaseCommitter} {target : Slot}
    {search : StatementBlock → Option (Option BlockReference)} {x : BlockReference}
    {is : List BlockReference}
    (h : ∀ i ∈ is, ¬ i.round < target.2 ∧ (i.authority, i.round) ≠ target ∧
      ∃ b, committer.blockStore.getBlock i = some b ∧
        (search b = some none ∨ search b = some (some x)))
    (hex : ∃ i ∈ is, ∃ b, committer.blockStore.getBlock i = some b ∧ search b = some (some x)) :
    committer.searchIncludes target search is = some (some x) := by
  induction is with
  | nil =>
    obtain ⟨i, hi, -⟩ := hex
    cases hi
  | cons i is ih =>
    obtain ⟨hlow, hslot, b, hb, hsearch⟩ := h i List.mem_cons_self
    rw [BaseCommitter.searchIncludes, if_neg hlow, if_neg hslot, hb]
    change (search b).bind _ = _
    rcases hsearch with hnone | hfound
    · rw [hnone]
      refine ih (fun j hj => h j (List.mem_cons_of_mem i hj)) ?_
      obtain ⟨j, hj, b', hb', hfound⟩ := hex
      rcases List.mem_cons.mp hj with rfl | hj
      · rw [hb] at hb'
        cases hb'
        rw [hnone] at hfound
        cases hfound
      · exact ⟨j, hj, b', hb', hfound⟩
    · rw [hfound]
      rfl

variable {htotal : committee.totalStake < 2 ^ 63}
  {hquorum : committee.isQuorum (committee.totalStake - committee.stake leader) = true}
  {hleader : leader < committee.len} {options : BaseCommitterOptions}

theorem mem_loneView (hr : r < n) (ha : a < committee.len) :
    loneBlock committee leader leaderRound a r ∈
      (loneView htotal hquorum hleader leaderRound n).known :=
  View.mem_ofList.mpr (mem_loneBlocks.mpr ⟨r, hr, a, ha, rfl⟩)

theorem getBlock_loneView (hr : r < n) (ha : a < committee.len) :
    (loneView htotal hquorum hleader leaderRound n).store.getBlock ⟨a, r, 0⟩ =
      some (loneBlock committee leader leaderRound a r) :=
  BlockStore.getBlock_eq_some_iff.mpr ⟨mem_loneView hr ha, loneBlock_reference⟩

theorem blamed_loneView (hn : leaderRound + 1 < n) :
    committee.Blamed (loneView htotal hquorum hleader leaderRound n).known
      (leader, leaderRound) := by
  refine ((hasQuorum_others_iff htotal hleader).mpr hquorum).mono fun a ha => ?_
  refine ⟨_, mem_loneView hn ha.1, rfl, fun i hi => ?_, rfl⟩
  obtain ⟨c, -, hnot, rfl⟩ := mem_loneIncludes.mp hi
  exact fun hc => hnot ⟨hc, rfl, ha.2⟩

theorem findSupport_first (hn : leaderRound + 1 < n) (ha : a < committee.len) :
    ((loneView htotal hquorum hleader leaderRound n).committer options).findSupport
        (leader, leaderRound) (leaderRound + 2)
        (loneBlock committee leader leaderRound a (leaderRound + 1)) =
      some (if a = leader then some ⟨leader, leaderRound, 0⟩ else none) := by
  rw [View.findSupport_next _ htotal (mem_loneView hn ha) rfl]
  congr 1
  split_ifs with hal
  · have hmem : (⟨leader, leaderRound, 0⟩ : BlockReference) ∈
        loneIncludes committee leader leaderRound a (leaderRound + 1) :=
      mem_loneIncludes.mpr ⟨leader, hleader, fun h => h.2.2 hal, rfl⟩
    cases hfind : (loneBlock committee leader leaderRound a (leaderRound + 1)).includes.find?
        fun i => (i.authority, i.round) = (leader, leaderRound) with
    | none => exact absurd rfl (of_decide_eq_false (Bool.eq_false_of_not_eq_true
        (List.find?_eq_none.mp hfind _ hmem)))
    | some i =>
      have hslot := List.find?_some hfind
      obtain ⟨c, -, -, rfl⟩ := mem_loneIncludes.mp (List.mem_of_find?_eq_some hfind)
      obtain rfl : c = leader := congrArg Prod.fst (of_decide_eq_true hslot)
      rfl
  · refine List.find?_eq_none.mpr fun i hi hslot => ?_
    obtain ⟨c, -, hnot, rfl⟩ := mem_loneIncludes.mp hi
    exact hnot ⟨congrArg Prod.fst (of_decide_eq_true hslot), rfl, hal⟩

/-- If the leader's block supports the leader block and the other blocks of the round support it or
nothing, every block of the next round supports it. -/
theorem findSupport_step (hr : leaderRound < r) (hn : r + 1 < n)
    (hsearch : ∀ c < committee.len, ∃ o : Option BlockReference,
      ((loneView htotal hquorum hleader leaderRound n).committer options).findSupport
        (leader, leaderRound) (r + 1) (loneBlock committee leader leaderRound c r) = some o ∧
      (c ≠ leader ∧ o = none ∨ o = some ⟨leader, leaderRound, 0⟩)) :
    ((loneView htotal hquorum hleader leaderRound n).committer options).findSupport
        (leader, leaderRound) (r + 2) (loneBlock committee leader leaderRound a (r + 1)) =
      some (some ⟨leader, leaderRound, 0⟩) := by
  have hlow : ¬ (loneBlock committee leader leaderRound a (r + 1)).round < leaderRound :=
    Nat.not_lt_of_le (Nat.le_succ_of_le (Nat.le_of_lt hr))
  have hget : ∀ c < committee.len,
      (loneView htotal hquorum hleader leaderRound n).store.getBlock ⟨c, r, 0⟩ =
        some (loneBlock committee leader leaderRound c r) :=
    fun c hc => getBlock_loneView (Nat.lt_of_succ_lt hn) hc
  rw [BaseCommitter.findSupport, if_neg hlow]
  refine searchIncludes_found (fun i hi => ?_) ?_
  · obtain ⟨c, hc, -, rfl⟩ := mem_loneIncludes.mp hi
    refine ⟨Nat.not_lt_of_le (Nat.le_of_lt hr), fun h => ?_, _, hget c hc, ?_⟩
    · exact Nat.ne_of_gt hr (congrArg Prod.snd h)
    · obtain ⟨o, ho, hor⟩ := hsearch c hc
      rcases hor with ⟨-, rfl⟩ | rfl
      · exact .inl ho
      · exact .inr ho
  · obtain ⟨o, ho, hor⟩ := hsearch leader hleader
    refine ⟨⟨leader, r, 0⟩, mem_loneIncludes.mpr ⟨leader, hleader, fun h => ?_, rfl⟩, _,
      hget leader hleader, ?_⟩
    · exact Nat.ne_of_gt hr (Nat.succ.inj h.2.1)
    · rcases hor with ⟨hne, -⟩ | rfl
      · exact absurd rfl hne
      · exact ho

theorem findSupport_later (k : Nat) (hn : leaderRound + 1 + k + 1 < n) :
    ((loneView htotal hquorum hleader leaderRound n).committer options).findSupport
        (leader, leaderRound) (leaderRound + 1 + k + 2)
        (loneBlock committee leader leaderRound a (leaderRound + 1 + k + 1)) =
      some (some ⟨leader, leaderRound, 0⟩) := by
  induction k generalizing a with
  | zero =>
    refine findSupport_step (Nat.lt_succ_self _) hn fun c hc => ?_
    refine ⟨_, findSupport_first (Nat.lt_of_succ_lt hn) hc, ?_⟩
    split_ifs with hcl
    · exact .inr rfl
    · exact .inl ⟨hcl, rfl⟩
  | succ k ih =>
    have hr : leaderRound < leaderRound + 1 + (k + 1) :=
      Nat.lt_of_lt_of_le (Nat.lt_succ_self _) (Nat.le_add_right _ _)
    exact findSupport_step hr hn fun c _ => ⟨_, ih (Nat.lt_of_succ_lt hn), .inr rfl⟩

theorem isCertificate_loneView (k : Nat) (hn : leaderRound + 1 + k + 2 < n) :
    ((loneView htotal hquorum hleader leaderRound n).committer options).isCertificate
        (loneBlock committee leader leaderRound a (leaderRound + 1 + k + 2))
        (loneBlock committee leader leaderRound leader leaderRound) = some true := by
  have htest : ∀ i ∈ (loneBlock committee leader leaderRound a (leaderRound + 1 + k + 2)).includes,
      Computes (((loneView htotal hquorum hleader leaderRound n).committer options).isVoteReference
        (loneBlock committee leader leaderRound leader leaderRound) i) True := by
    intro i hi
    obtain ⟨c, hc, -, rfl⟩ := mem_loneIncludes.mp hi
    have hslot : (loneBlock committee leader leaderRound leader leaderRound).authorRound =
        (leader, leaderRound) := by
      simp only [StatementBlock.authorRound, StatementBlock.author, StatementBlock.round,
        loneBlock_reference]
    have hround : (loneBlock committee leader leaderRound c (leaderRound + 1 + k + 1)).round =
        leaderRound + 1 + k + 1 := rfl
    unfold BaseCommitter.isVoteReference
    rw [View.committer_blockStore]
    change Computes (Option.bind (BlockStore.getBlock _ ⟨c, leaderRound + 1 + k + 1, 0⟩) _) _
    rw [getBlock_loneView (Nat.lt_of_succ_lt hn) hc]
    change Computes (BaseCommitter.isVote _ _ _) _
    unfold BaseCommitter.isVote
    rw [hslot, hround, findSupport_later k (Nat.lt_of_succ_lt hn), loneBlock_reference]
    exact .some_iff (by simp)
  have hknown : ∀ i ∈ (loneBlock committee leader leaderRound a (leaderRound + 1 + k + 2)).includes,
      True → i.authority ∈ Finset.range committee.len := by
    intro i hi _
    obtain ⟨c, hc, -, rfl⟩ := mem_loneIncludes.mp hi
    exact Finset.mem_range.mpr hc
  refine (StakeAggregator.reachesQuorum_computes htotal htest hknown).eq_true_iff.mpr ?_
  refine ((hasQuorum_others_iff htotal hleader).mpr hquorum).mono fun c hc => ?_
  exact ⟨_, mem_loneIncludes.mpr ⟨c, hc.1, fun h => hc.2 h.1, rfl⟩, trivial, rfl⟩

end Lone

/-! ## Soundness -/

section Soundness

variable {committee : Committee} {dag : ConsensusDag committee} {leader : AuthorityIndex}
  {options : BaseCommitterOptions} {r : RoundNumber}

theorem isQuorum_of_blamed (htotal : committee.totalStake < 2 ^ 63) (hleader : leader < committee.len)
    (view : View dag) (h : committee.Blamed view.known (leader, r)) :
    committee.isQuorum (committee.totalStake - committee.stake leader) = true := by
  obtain ⟨-, -, v, hv, hround, hblames, -⟩ := Quorum.Exceeds.exists_member h
  have hverified := ConsensusDag.verified_of_round htotal (view.subset hv)
    (hround ▸ Nat.succ_ne_zero r)
  refine (hasQuorum_others_iff htotal hleader).mp (hverified.quorum.mono ?_)
  rintro c ⟨i, hi, -, rfl⟩
  exact ⟨Finset.mem_range.mp (hverified.known i hi), hblames i hi⟩

/-- With waves of length three, the blames and the votes are of one round. -/
theorem isCertificate_of_blamed (htotal : committee.totalStake < 2 ^ 63) {view larger : View dag}
    {b c : StatementBlock} (hblamed : committee.Blamed view.known b.authorRound)
    (hc : c ∈ larger.known) (hround : c.round = b.round + 2) :
    (larger.committer options).isCertificate c b = some false :=
  (larger.isCertificate_computes htotal hc hround).eq_false_iff.mpr
    (ConsensusDag.not_certifies_of_blamed view.subset hblamed)

theorem View.leaderRound_committer (view : View dag) (wave : Nat) :
    (view.committer options).leaderRound wave = wave * options.waveLength + options.roundOffset := rfl

theorem decisionRound_of_three (view : View dag) (hwave : options.waveLength = 3) (wave : Nat) :
    (view.committer options).decisionRound wave = (view.committer options).leaderRound wave + 2 := by
  have harith (w o : Nat) : w * 3 + 3 - 1 + o = w * 3 + o + 2 := by omega
  unfold BaseCommitter.decisionRound BaseCommitter.leaderRound
  rw [View.committer_options, hwave]
  exact harith wave options.roundOffset

theorem decisionRound_of_longer (view : View dag) {k : Nat} (hwave : options.waveLength = k + 4)
    (wave : Nat) :
    (view.committer options).decisionRound wave =
      (view.committer options).leaderRound wave + 1 + k + 2 := by
  have harith (w o : Nat) : w * (k + 4) + (k + 4) - 1 + o = w * (k + 4) + o + 1 + k + 2 := by omega
  unfold BaseCommitter.decisionRound BaseCommitter.leaderRound
  rw [View.committer_options, hwave]
  exact harith wave options.roundOffset

end Soundness

/-- Enough blames exclude every certificate, in all DAGs, if and only if waves have length three or
the authorities other than the leader are not a quorum (then there are never enough blames). -/
theorem directSkip_sound_iff (committee : Committee) (htotal : committee.totalStake < 2 ^ 63)
    (options : BaseCommitterOptions) (wave : Nat) (leader : AuthorityIndex)
    (hleader : committee.knownAuthority leader = true) :
    (∀ (dag : ConsensusDag committee) (view larger : View dag), view.known ⊆ larger.known →
      (view.committer options).enoughLeaderBlame ((view.committer options).leaderRound wave + 1)
        leader = some true →
      ∀ b ∈ larger.known, b.authorRound = (leader, (view.committer options).leaderRound wave) →
      ∀ c ∈ larger.known, c.round = (larger.committer options).decisionRound wave →
        (larger.committer options).isCertificate c b = some false) ↔
      options.waveLength = 3 ∨
        committee.isQuorum (committee.totalStake - committee.stake leader) = false := by
  have hlt : leader < committee.len :=
    Finset.mem_range.mp (Committee.knownAuthority_iff.mp hleader)
  constructor
  · intro h
    by_contra hnot
    obtain ⟨hne, hquorum⟩ := not_or.mp hnot
    have hquorum := Bool.eq_true_of_not_eq_false hquorum
    obtain ⟨k, hk⟩ : ∃ k, options.waveLength = k + 4 :=
      Nat.exists_eq_add_of_le' (Nat.lt_of_le_of_ne options.minimum (Ne.symm hne))
    -- The DAG ends with the decision round.
    obtain ⟨L, hL⟩ : ∃ L, L = wave * options.waveLength + options.roundOffset := ⟨_, rfl⟩
    have hn : L + 1 < L + 1 + k + 3 := by omega
    have hfalse := h _ (loneView htotal hquorum hlt L (L + 1 + k + 3))
      (loneView htotal hquorum hlt L (L + 1 + k + 3)) Set.Subset.rfl ?_
      (loneBlock committee leader L leader L) (mem_loneView (Nat.lt_of_succ_lt hn) hlt) ?_
      (loneBlock committee leader L leader (L + 1 + k + 2)) (mem_loneView (Nat.lt_succ_self _) hlt) ?_
    · rw [isCertificate_loneView k (Nat.lt_succ_self _)] at hfalse
      cases hfalse
    · rw [View.leaderRound_committer, ← hL]
      exact (View.enoughLeaderBlame_computes _ htotal (leader, L)).eq_true_iff.mpr
        (blamed_loneView hn)
    · rw [View.leaderRound_committer, ← hL, StatementBlock.authorRound, StatementBlock.author,
        StatementBlock.round, loneBlock_reference]
    · rw [decisionRound_of_longer _ hk, View.leaderRound_committer, ← hL]
      rfl
  · intro hcond dag view larger _ hblame b _ hslot c hc hround
    have hblamed : committee.Blamed view.known
        (leader, (view.committer options).leaderRound wave) :=
      (view.enoughLeaderBlame_computes htotal _).eq_true_iff.mp hblame
    rcases hcond with hwave | hquorum
    · have hbr : b.round = (larger.committer options).leaderRound wave := congrArg Prod.snd hslot
      rw [decisionRound_of_three _ hwave, ← hbr] at hround
      exact isCertificate_of_blamed htotal (hslot ▸ hblamed) hc hround
    · exact absurd (isQuorum_of_blamed htotal hlt view hblamed) (by simp [hquorum])

def quartet : Committee := .fourEqual

def waveOptions (waveLength : Nat) (h : minimumWaveLength ≤ waveLength) : BaseCommitterOptions :=
  ⟨waveLength, 0, 0, h⟩

/-- Eight rounds in which only the leader of round 4 includes its block in round 5. -/
def quartetDag : ConsensusDag quartet :=
  loneDag (by decide) (by decide : quartet.isQuorum (4 - quartet.stake 0) = true) (by decide) 4 8

def quartetView : View quartetDag := loneView (by decide) (by decide) (by decide) 4 8

/-- With waves of length four the leader of round 4 is skipped, and a block of the decision round
certifies its block. -/
theorem quartet_skipped_and_certified :
    let committer := quartetView.committer (waveOptions 4 (by decide))
    committer.electLeader 4 = some 0 ∧ committer.leaderRound 1 = 4 ∧ committer.decisionRound 1 = 7 ∧
      committer.enoughLeaderBlame 5 0 = some true ∧
      committer.tryDirectDecide 0 4 = some (.skip 0 4) ∧
      loneBlock quartet 0 4 0 4 ∈ quartetView.known ∧ loneBlock quartet 0 4 1 7 ∈ quartetView.known ∧
      committer.isCertificate (loneBlock quartet 0 4 1 7) (loneBlock quartet 0 4 0 4) =
        some true := by
  intro committer
  have hblame : committer.enoughLeaderBlame 5 0 = some true :=
    (quartetView.enoughLeaderBlame_computes (by decide) (0, 4)).eq_true_iff.mpr
      (blamed_loneView (by decide))
  refine ⟨by decide, by decide, by decide, hblame, ?_, mem_loneView (by decide) (by decide),
    mem_loneView (by decide) (by decide), isCertificate_loneView 0 (by decide)⟩
  rw [BaseCommitter.tryDirectDecide, hblame]
  rfl

theorem quartet_sound :
    (waveOptions 3 (by decide)).waveLength = 3 ∧ quartet.isQuorum (4 - quartet.stake 0) = true ∧
    ∀ (dag : ConsensusDag quartet) (view larger : View dag), view.known ⊆ larger.known →
      (view.committer (waveOptions 3 (by decide))).enoughLeaderBlame 1 0 = some true →
      ∀ b ∈ larger.known, b.authorRound = (0, 0) → ∀ c ∈ larger.known, c.round = 2 →
        (larger.committer (waveOptions 3 (by decide))).isCertificate c b = some false :=
  ⟨rfl, by decide, (directSkip_sound_iff quartet (by decide) (waveOptions 3 (by decide)) 0 0
    (by decide)).mpr (.inl rfl)⟩

end CongestionControl.Mysticeti
