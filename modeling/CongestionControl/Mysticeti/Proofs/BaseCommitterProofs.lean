import CongestionControl.Mysticeti.BaseCommitter
import CongestionControl.Mysticeti.Proofs.BlockStoreProofs
import CongestionControl.Mysticeti.Proofs.CommitRuleProofs

/-!
# The base committer computes the commit rule

Over a view of the DAG, and with waves of length three, the functions of the committer do not panic
and their results are those of the commit rule.
-/

namespace CongestionControl.Mysticeti

namespace View

variable {committee : Committee} {dag : ConsensusDag committee} (view : View dag)
  {b v x y : StatementBlock} {test : StatementBlock → Option Bool} {P : StatementBlock → Prop}

abbrev known : Set StatementBlock := view.store.blocks

theorem linked_iff (hx : x ∈ view.known) :
    view.store.linked view.order x y = true ↔ Relation.ReflTransGen dag.Link x y := by
  rw [BlockStore.linked_iff_oneDown]
  constructor
  · exact Relation.ReflTransGen.mono (fun _ _ hlink => ⟨view.subset hlink.1, hlink.2⟩) _ _
  · intro hpath
    induction hpath with
    | refl => exact .refl
    | tail hpath hlink ih =>
      exact ih.tail ⟨ConsensusDag.link_mem view.subset view.closed hx (hpath.tail hlink), hlink.2⟩

variable (options : BaseCommitterOptions)

def committer : BaseCommitter := ⟨committee, view.store, view.order, options⟩

@[simp] theorem committer_blockStore : (view.committer options).blockStore = view.store := rfl

@[simp] theorem committer_order : (view.committer options).order = view.order := rfl

@[simp] theorem committer_options : (view.committer options).options = options := rfl

variable {options} {target : Slot}

section

variable (htotal : committee.totalStake < 2 ^ 63)

include htotal

theorem findSupport_low (hv : v ∈ view.known) (hround : v.round ≤ target.2) (fuel : Nat) :
    (view.committer options).findSupport target (fuel + 1) v = some none := by
  have hsearch : ∀ (search : StatementBlock → Option (Option BlockReference))
      (is : List BlockReference), (∀ i ∈ is, i.round < target.2) →
      (view.committer options).searchIncludes target search is = some none := by
    intro search is his
    induction is with
    | nil => rfl
    | cons i is ih =>
      rw [BaseCommitter.searchIncludes, if_pos (his i List.mem_cons_self)]
      exact ih fun j hj => his j (List.mem_cons_of_mem i hj)
  rw [BaseCommitter.findSupport]
  split_ifs
  · rfl
  · refine hsearch _ _ fun i hi => ?_
    exact Nat.lt_of_lt_of_le (ConsensusDag.include_known htotal (view.subset hv) hi).2 hround

theorem findSupport_next (hv : v ∈ view.known) (hround : v.round = target.2 + 1) (fuel : Nat) :
    (view.committer options).findSupport target (fuel + 2) v =
      some (v.includes.find? fun i => (i.authority, i.round) = target) := by
  have hsearch : ∀ is : List BlockReference, (∀ i ∈ is, i ∈ v.includes) →
      (view.committer options).searchIncludes target
        ((view.committer options).findSupport target (fuel + 1)) is =
      some (is.find? fun i => (i.authority, i.round) = target) := by
    intro is his
    induction is with
    | nil => rfl
    | cons i is ih =>
      have hi := his i List.mem_cons_self
      have ih := ih fun j hj => his j (List.mem_cons_of_mem i hj)
      have hle : i.round ≤ target.2 := by
        have hlt := (ConsensusDag.include_known htotal (view.subset hv) hi).2
        rw [hround] at hlt
        exact Nat.le_of_lt_succ hlt
      rw [BaseCommitter.searchIncludes, List.find?_cons]
      by_cases hslot : (i.authority, i.round) = target
      · have hnlt : ¬ i.round < target.2 := by
          rw [← hslot]
          exact Nat.lt_irrefl _
        rw [if_neg hnlt, if_pos hslot, decide_eq_true hslot]
      · rw [decide_eq_false hslot]
        split_ifs
        · exact ih
        · obtain ⟨y, hy, rfl⟩ := view.closed v hv i hi
          have hget : view.store.getBlock y.reference = some y :=
            BlockStore.getBlock_eq_some_iff.mpr ⟨hy, rfl⟩
          rw [committer_blockStore, hget]
          change ((view.committer options).findSupport target (fuel + 1) y).bind _ = _
          rw [view.findSupport_low htotal hy hle]
          exact ih
  have hnlt : ¬ v.round < target.2 := by
    rw [hround]
    exact Nat.not_lt_of_le (Nat.le_succ _)
  rw [BaseCommitter.findSupport, if_neg hnlt]
  exact hsearch v.includes fun i hi => hi

theorem isVote_computes (hv : v ∈ view.known) (hround : v.round < b.round + 2) :
    Computes ((view.committer options).isVote v b) (Votes v b) := by
  unfold BaseCommitter.isVote
  rcases Nat.lt_or_ge v.round (b.round + 1) with hlt | hge
  · have hlow : v.round ≤ b.authorRound.2 := Nat.le_of_lt_succ hlt
    rw [view.findSupport_low htotal hv hlow]
    refine .some_iff (iff_of_false (by simp) fun h => ?_)
    exact absurd h.1 (Nat.ne_of_lt hlt)
  · have hnext : v.round = b.authorRound.2 + 1 := Nat.le_antisymm (Nat.le_of_lt_succ hround) hge
    have hfuel : v.round + 1 = b.authorRound.2 + 2 := congrArg (· + 1) hnext
    rw [hfuel, view.findSupport_next htotal hv hnext]
    refine .some_iff (decide_eq_true_iff.trans ?_)
    exact (and_iff_right hnext).symm

theorem isVoteReference_computes (hx : x ∈ view.known) (hround : x.round = b.round + 2)
    {i : BlockReference} (hi : i ∈ x.includes) :
    Computes ((view.committer options).isVoteReference b i)
      (∃ v ∈ dag.blocks, v.reference = i ∧ Votes v b) := by
  obtain ⟨v, hv, rfl⟩ := view.closed x hx i hi
  have hlt := (ConsensusDag.include_known htotal (view.subset hx) hi).2
  rw [hround] at hlt
  have hget : view.store.getBlock v.reference = some v :=
    BlockStore.getBlock_eq_some_iff.mpr ⟨hv, rfl⟩
  unfold BaseCommitter.isVoteReference
  rw [committer_blockStore, hget]
  refine (view.isVote_computes htotal hv hlt).congr ⟨fun h => ⟨v, view.subset hv, rfl, h⟩, ?_⟩
  rintro ⟨v', hv', hr, h⟩
  exact dag.unique v' hv' v (view.subset hv) hr ▸ h

/-- A block of the decision round is a certificate if a quorum of the blocks that it includes votes
for the leader block. -/
theorem isCertificate_computes (hx : x ∈ view.known) (hround : x.round = b.round + 2) :
    Computes ((view.committer options).isCertificate x b) (dag.Certifies x b) := by
  have h : Computes ((view.committer options).isCertificate x b) (committee.HasQuorum fun a =>
      ∃ i ∈ x.includes, (∃ v ∈ dag.blocks, v.reference = i ∧ Votes v b) ∧ i.authority = a) :=
    StakeAggregator.reachesQuorum_computes htotal
      (fun i hi => view.isVoteReference_computes htotal hx hround hi)
      (fun i hi _ => (ConsensusDag.include_known htotal (view.subset hx) hi).1)
  refine h.congr ((iff_of_eq (congrArg _ (funext fun a => propext ?_))).trans
    (and_iff_right hround).symm)
  constructor
  · rintro ⟨i, hi, ⟨v, hv, rfl, hvotes⟩, ha⟩
    exact ⟨v, hv, hi, hvotes, ha⟩
  · rintro ⟨v, hv, hi, hvotes, ha⟩
    exact ⟨v.reference, hi, ⟨v, hv, rfl, hvotes⟩, ha⟩

theorem reachesQuorum_round {r : RoundNumber}
    (htest : ∀ v ∈ view.known, v.round = r → Computes (test v) (P v)) :
    Computes (StakeAggregator.reachesQuorum committee test StatementBlock.author .new
        (view.store.getBlocksByRound view.order r))
      (committee.HasQuorum fun a => ∃ v ∈ view.known, v.round = r ∧ P v ∧ v.author = a) := by
  have h : Computes (StakeAggregator.reachesQuorum committee test StatementBlock.author .new
        (view.store.getBlocksByRound view.order r)) (committee.HasQuorum fun a =>
          ∃ v ∈ view.store.getBlocksByRound view.order r, P v ∧ v.author = a) := by
    refine StakeAggregator.reachesQuorum_computes htotal (fun v hv => ?_) fun v hv _ => ?_
    · obtain ⟨hv, hr⟩ := BlockStore.mem_getBlocksByRound.mp hv
      exact htest v hv hr
    · exact ConsensusDag.author_known htotal (view.subset (BlockStore.mem_getBlocksByRound.mp hv).1)
  simpa only [BlockStore.mem_getBlocksByRound, and_assoc] using h

theorem enoughLeaderBlame_computes (s : Slot) :
    Computes ((view.committer options).enoughLeaderBlame (s.2 + 1) s.1)
      (committee.Blamed view.known s) := by
  refine view.reachesQuorum_round htotal fun v _ _ => .some_iff ?_
  simp [BaseCommitter.isBlame, Blames]

theorem enoughLeaderSupport_computes (b : StatementBlock) :
    Computes ((view.committer options).enoughLeaderSupport (b.round + 2) b)
      (dag.Supported view.known b) := by
  refine (view.reachesQuorum_round htotal fun c hc hr =>
    view.isCertificate_computes htotal hc hr).congr ?_
  refine iff_of_eq (congrArg _ (funext fun a => propext (exists_congr fun c => ?_)))
  exact and_congr_right fun _ => and_iff_right_of_imp fun h => h.1.1

end

def toStatus (p : Slot × Anchored.Verdict StatementBlock) : LeaderStatus :=
  match p.2 with
  | .commit b => .commit b
  | .skip => .skip p.1.1 p.1.2
  | .undecided => .undecided p.1.1 p.1.2

theorem eq_nil_or_singleton {l : List StatementBlock} (hnodup : l.Nodup)
    (h : ∀ b ∈ l, ∀ b' ∈ l, b = b') : l = [] ∨ ∃ b, l = [b] := by
  match l, hnodup with
  | [], _ => exact .inl rfl
  | [b], _ => exact .inr ⟨b, rfl⟩
  | b :: b' :: l, hnodup =>
    have heq : b = b' := h b List.mem_cons_self b' (List.mem_cons_of_mem b List.mem_cons_self)
    exact absurd (heq ▸ List.mem_cons_self) (List.nodup_cons.mp hnodup).1

theorem decisionRound_eq (hwave : options.waveLength = 3) {s : Slot}
    (hleader : (view.committer options).electLeader s.2 = some s.1) :
    (view.committer options).decisionRound ((view.committer options).waveNumber s.2) = s.2 + 2 := by
  unfold BaseCommitter.electLeader at hleader
  split_ifs at hleader with hround
  unfold BaseCommitter.leaderRound at hround
  unfold BaseCommitter.decisionRound
  have harith (w o r : Nat) (h : w * 3 + o = r) : w * 3 + 3 - 1 + o = r + 2 := by omega
  rw [committer_options, hwave] at hround ⊢
  exact harith _ _ _ (not_not.mp hround)

variable {s : Slot}

/-- The leader blocks at a slot that pass a test, if at most one can pass. -/
theorem filterM_leaderBlocks (htest : ∀ b ∈ view.known, b.authorRound = s → Computes (test b) (P b))
    (huniq : ∀ b ∈ dag.blocks, ∀ b' ∈ dag.blocks, b.authorRound = b'.authorRound → P b → P b' →
      b = b') :
    ∃ l, (view.store.getBlocksAtAuthorityRound view.order s.1 s.2).filterM test = some l ∧
      ((l = [] ∧ ∀ b ∈ view.known, b.authorRound = s → ¬ P b) ∨
        ∃ b, l = [b] ∧ b ∈ view.known ∧ b.authorRound = s ∧ P b) := by
  have htest' : ∀ b ∈ view.store.getBlocksAtAuthorityRound view.order s.1 s.2,
      Computes (test b) (P b) := by
    intro b hb
    obtain ⟨hb, hslot⟩ := BlockStore.mem_getBlocksAtAuthorityRound.mp hb
    exact htest b hb hslot
  obtain ⟨q, hq, hP⟩ := Computes.filterM htest'
  have hmem : ∀ b, b ∈ (view.store.getBlocksAtAuthorityRound view.order s.1 s.2).filter q ↔
      b ∈ view.known ∧ b.authorRound = s ∧ P b := by
    intro b
    rw [List.mem_filter, and_congr_right fun hb => hP b hb,
      BlockStore.mem_getBlocksAtAuthorityRound, and_assoc]
  have hone := eq_nil_or_singleton (BlockStore.nodup_getBlocksAtAuthorityRound.filter q)
    fun b hb b' hb' => by
      obtain ⟨hb, hslot, hPb⟩ := (hmem b).mp hb
      obtain ⟨hb', hslot', hPb'⟩ := (hmem b').mp hb'
      exact huniq b (view.subset hb) b' (view.subset hb') (hslot.trans hslot'.symm) hPb hPb'
  refine ⟨_, hq, ?_⟩
  rcases hone with hnil | ⟨b, hb⟩
  · refine .inl ⟨hnil, fun b hb hslot hPb => ?_⟩
    exact List.not_mem_nil (hnil ▸ (hmem b).mpr ⟨hb, hslot, hPb⟩)
  · exact .inr ⟨b, hb, (hmem b).mp (hb ▸ List.mem_singleton_self b)⟩

section

variable (htotal : committee.totalStake < 2 ^ 63)

include htotal

section

variable (hwave : options.waveLength = 3)

include hwave

theorem tryDirectCommit_eq (hleader : (view.committer options).electLeader s.2 = some s.1)
    (hblame : ¬ committee.Blamed view.known s) :
    (view.committer options).tryDirectCommit s.1 s.2 =
      some (toStatus (s, dag.direct view.known s)) := by
  have htest : ∀ b ∈ view.known, b.authorRound = s →
      Computes ((view.committer options).enoughLeaderSupport (s.2 + 2) b)
        (dag.Supported view.known b) := by
    rintro b - rfl
    exact view.enoughLeaderSupport_computes htotal b
  have huniq : ∀ b ∈ dag.blocks, ∀ b' ∈ dag.blocks, b.authorRound = b'.authorRound →
      dag.Supported view.known b → dag.Supported view.known b' → b = b' := by
    intro b hb b' hb' hslot hs hs'
    obtain ⟨c, -, hc⟩ := ConsensusDag.supported_certifies hs
    obtain ⟨c', -, hc'⟩ := ConsensusDag.supported_certifies hs'
    exact ConsensusDag.certified_unique hb hb' hslot hc hc'
  obtain ⟨l, hl, hcases⟩ := view.filterM_leaderBlocks htest huniq
  unfold BaseCommitter.tryDirectCommit
  simp only [committer_blockStore, committer_order, view.decisionRound_eq hwave hleader, hl]
  rcases hcases with ⟨rfl, hnone⟩ | ⟨b, rfl, hb, hslot, hsupp⟩
  · have hd : dag.direct view.known s = .undecided := by
      cases hd : dag.direct view.known s with
      | undecided => rfl
      | skip => exact absurd (ConsensusDag.direct_eq_skip_iff.mp hd) hblame
      | commit b =>
        obtain ⟨hb, hslot⟩ := ConsensusDag.commits_direct view.subset view.closed hd
        exact absurd ((ConsensusDag.direct_eq_commit_iff view.subset).mp hd).2.2 (hnone b hb hslot)
    rw [hd]
    rfl
  · rw [(ConsensusDag.direct_eq_commit_iff view.subset).mpr ⟨view.subset hb, hslot, hsupp⟩]
    rfl

theorem tryDirectDecide_eq (hleader : (view.committer options).electLeader s.2 = some s.1) :
    (view.committer options).tryDirectDecide s.1 s.2 =
      some (toStatus (s, dag.direct view.known s)) := by
  have hblame : Computes ((view.committer options).enoughLeaderBlame (s.2 + 1) s.1)
    (committee.Blamed view.known s) := view.enoughLeaderBlame_computes htotal s
  obtain ⟨r, hr, hiff⟩ := hblame
  rw [BaseCommitter.tryDirectDecide, hr]
  change (if r = true then _ else _) = _
  split_ifs with hrt
  · rw [ConsensusDag.direct_eq_skip_iff.mpr (hiff.mp hrt)]
    rfl
  · exact view.tryDirectCommit_eq htotal hwave hleader fun h => hrt (hiff.mpr h)

theorem decideLeaderFromAnchor_eq (hleader : (view.committer options).electLeader s.2 = some s.1)
    (hx : x ∈ view.known) :
    (view.committer options).decideLeaderFromAnchor x s.1 s.2 =
      some (toStatus (s, dag.fromAnchor x s)) := by
  have hany : ∀ b ∈ view.known, b.authorRound = s → Computes
      (((view.store.getBlocksByRound view.order (s.2 + 2)).filter
        (view.store.linked view.order x)).anyM fun c => (view.committer options).isCertificate c b)
      (dag.CertifiedFrom x b) := by
    intro b hb hslot
    have hround : b.round = s.2 := congrArg Prod.snd hslot
    have hmem : ∀ c, c ∈ (view.store.getBlocksByRound view.order (s.2 + 2)).filter
        (view.store.linked view.order x) ↔
        (c ∈ view.known ∧ c.round = b.round + 2) ∧ Relation.ReflTransGen dag.Link x c := by
      intro c
      rw [List.mem_filter, BlockStore.mem_getBlocksByRound, view.linked_iff hx, hround]
    have hcert : ∀ c ∈ (view.store.getBlocksByRound view.order (s.2 + 2)).filter
        (view.store.linked view.order x),
        Computes ((view.committer options).isCertificate c b) (dag.Certifies c b) := by
      intro c hc
      obtain ⟨⟨hc, hcr⟩, -⟩ := (hmem c).mp hc
      exact view.isCertificate_computes htotal hc hcr
    refine (Computes.anyM hcert).congr ⟨?_, ?_⟩
    · rintro ⟨c, hc, h⟩
      obtain ⟨⟨hc, -⟩, hpath⟩ := (hmem c).mp hc
      exact ⟨c, view.subset hc, hpath, h⟩
    · rintro ⟨c, -, hpath, h⟩
      have hc := ConsensusDag.link_mem view.subset view.closed hx hpath
      exact ⟨c, (hmem c).mpr ⟨⟨hc, h.1⟩, hpath⟩, h⟩
  obtain ⟨l, hl, hcases⟩ := view.filterM_leaderBlocks hany
    (fun b hb b' hb' hslot ⟨c, _, _, hc⟩ ⟨c', _, _, hc'⟩ =>
      ConsensusDag.certified_unique hb hb' hslot hc hc')
  unfold BaseCommitter.decideLeaderFromAnchor
  simp only [committer_blockStore, committer_order, view.decisionRound_eq hwave hleader, hl]
  rcases hcases with ⟨rfl, hnone⟩ | ⟨b, rfl, hb, hslot, hcert⟩
  · have hskip : dag.fromAnchor x s = .skip := by
      rw [ConsensusDag.fromAnchor_eq_skip_iff]
      rintro b hb hslot hcert
      have hcommit := ConsensusDag.fromAnchor_eq_commit_iff.mpr ⟨hb, hslot, hcert⟩
      exact hnone b (ConsensusDag.commits_fromAnchor view.subset view.closed hx hcommit).1 hslot hcert
    rw [hskip]
    rfl
  · rw [ConsensusDag.fromAnchor_eq_commit_iff.mpr ⟨view.subset hb, hslot, hcert⟩]
    rfl

end

end

end View

end CongestionControl.Mysticeti
