import CongestionControl.Mysticeti.UniversalCommitter
import CongestionControl.Mysticeti.Proofs.BaseCommitterProofs

/-!
# Agreement of the universal committer

The loop of the committer computes the anchored decisions. They are stable when the DAG grows, so the
sequences of two replicas agree, and committing step by step commits the same as committing once.
-/

namespace CongestionControl.Mysticeti

variable {v : Anchored.Verdict StatementBlock} {b : StatementBlock}
  {q : Slot × Anchored.Verdict StatementBlock}
  {pre post : List (Slot × Anchored.Verdict StatementBlock)}

namespace View

variable {committee : Committee} {dag : ConsensusDag committee} (view : View dag)
  {options : BaseCommitterOptions} {s : Slot}
  {pairs : List (Slot × Anchored.Verdict StatementBlock)}

theorem toStatus_slot (h : ∀ b, (s, Anchored.Verdict.commit b) ∈ pairs → b.authorRound = s)
    (hmem : (s, v) ∈ pairs) :
    ((toStatus (s, v)).authority, (toStatus (s, v)).round) = s := by
  cases v with
  | commit b => exact h b hmem
  | skip => rfl
  | undecided => rfl

theorem isDecided_toStatus (p : Slot × Anchored.Verdict StatementBlock) :
    (toStatus p).isDecided = p.2.isDecided := by
  obtain ⟨s, v⟩ := p
  cases v <;> rfl

theorem tryIndirectDecide_eq (htotal : committee.totalStake < 2 ^ 63)
    (hwave : options.waveLength = 3)
    (hleader : (view.committer options).electLeader s.2 = some s.1)
    (hpairs : ∀ t b, (t, Anchored.Verdict.commit b) ∈ pairs →
      ConsensusDag.Commits view.known t b) :
    (view.committer options).tryIndirectDecide s.1 s.2 (pairs.map toStatus) =
      some (toStatus (s, Anchored.indirect Far dag.fromAnchor s pairs)) := by
  unfold BaseCommitter.tryIndirectDecide Anchored.indirect
  rw [committer_options, hwave]
  induction pairs with
  | nil => rfl
  | cons p pairs ih =>
    have ih := ih fun t b h => hpairs t b (List.mem_cons_of_mem p h)
    obtain ⟨t, v⟩ := p
    have hround : (toStatus (t, v)).round = t.2 :=
      congrArg Prod.snd (toStatus_slot (fun b h => (hpairs t b h).2) List.mem_cons_self)
    rw [List.map_cons, List.filter_cons, hround]
    by_cases hfar : Far s t
    · have hle : s.2 + 3 ≤ t.2 := hfar
      rw [if_pos (decide_eq_true hle)]
      cases v with
      | commit b =>
        rw [Anchored.anchor, if_pos hfar]
        have hb := (hpairs t b List.mem_cons_self).1
        exact view.decideLeaderFromAnchor_eq htotal hwave hleader hb
      | skip => exact ih
      | undecided =>
        rw [Anchored.anchor, if_pos hfar]
        rfl
    · rw [if_neg (by rwa [decide_eq_true_iff])]
      cases v with
      | commit b =>
        rw [Anchored.anchor, if_neg hfar]
        exact ih
      | skip => exact ih
      | undecided =>
        rw [Anchored.anchor, if_neg hfar]
        exact ih

theorem commits_of_mem {slots : List Slot} {t : Slot}
    (h : (t, Anchored.Verdict.commit b) ∈ dag.decisions view.known slots) :
    ConsensusDag.Commits view.known t b :=
  ConsensusDag.commits_of_mem_decisions view.subset view.closed h

theorem decideLeader_eq (htotal : committee.totalStake < 2 ^ 63) (hwave : options.waveLength = 3)
    (hleader : (view.committer options).electLeader s.2 = some s.1) (slots : List Slot) :
    UniversalCommitter.decideLeader s.2 (view.committer options)
        ((dag.decisions view.known slots).map toStatus) =
      some ((dag.decisions view.known (s :: slots)).map toStatus) := by
  have hindirect : (view.committer options).tryIndirectDecide s.1 s.2
      ((dag.decisions view.known slots).map toStatus) = _ :=
    view.tryIndirectDecide_eq htotal hwave hleader fun t b => view.commits_of_mem
  have hrun : dag.decisions view.known (s :: slots) =
      (s, Anchored.verdict Far dag.fromAnchor (dag.direct view.known) s
        (dag.decisions view.known slots)) :: dag.decisions view.known slots := rfl
  rw [hrun, Anchored.verdict, UniversalCommitter.decideLeader]
  simp only [hleader, view.tryDirectDecide_eq htotal hwave hleader]
  cases hd : dag.direct view.known s with
  | commit b => rfl
  | skip => rfl
  | undecided =>
    rw [hindirect]
    rfl

end View

/-! ## The leader slots -/

namespace UniversalCommitterBuilder

variable (p : UniversalCommitterBuilder)

def slotsAt (round : RoundNumber) : List Slot :=
  if p.pipeline = true ∨ round % 3 = 0 then
    (List.range p.numberOfLeaders).map fun k => (p.committee.electLeader (round + k), round)
  else []

def slots (start count : Nat) : List Slot := (List.range' start count).flatMap p.slotsAt

variable {p} {round : RoundNumber} {s : Slot}

theorem slots_add (start n m : Nat) :
    p.slots start (n + m) = p.slots start n ++ p.slots (start + n) m := by
  rw [slots, slots, slots, ← List.flatMap_append, ← List.range'_append, Nat.one_mul]

theorem round_of_mem_slotsAt (h : s ∈ p.slotsAt round) : s.2 = round := by
  unfold slotsAt at h
  split_ifs at h
  · obtain ⟨k, -, rfl⟩ := List.mem_map.mp h
    rfl
  · cases h

theorem round_of_mem_slots {start count : Nat} (h : s ∈ p.slots start count) :
    start ≤ s.2 ∧ s.2 < start + count := by
  obtain ⟨r, hr, hs⟩ := List.mem_flatMap.mp h
  rw [round_of_mem_slotsAt hs]
  exact List.mem_range'_1.mp hr

theorem nodup_slotsAt (hle : p.numberOfLeaders ≤ p.committee.len) : (p.slotsAt round).Nodup := by
  unfold slotsAt
  split_ifs
  · refine List.nodup_range.map_on fun k hk k' hk' heq => ?_
    rw [List.mem_range] at hk hk'
    have hmod : (round + k) % p.committee.len = (round + k') % p.committee.len :=
      congrArg Prod.fst heq
    exact Nat.ModEq.eq_of_lt_of_lt (Nat.ModEq.add_left_cancel' round hmod)
      (hk.trans_le hle) (hk'.trans_le hle)
  · exact List.nodup_nil

theorem nodup_slots (hle : p.numberOfLeaders ≤ p.committee.len) (start count : Nat) :
    (p.slots start count).Nodup := by
  refine List.nodup_flatMap.mpr ⟨fun r _ => nodup_slotsAt hle, ?_⟩
  refine (List.nodup_range' ..).imp fun {r r'} hne s hs hs' => hne ?_
  exact (round_of_mem_slotsAt hs).symm.trans (round_of_mem_slotsAt hs')

theorem slotsAt_zero (hone : 1 ≤ p.numberOfLeaders) :
    ∃ rest, p.slotsAt 0 = (0, 0) :: rest := by
  obtain ⟨k, hk⟩ := Nat.exists_eq_add_of_le' hone
  rw [slotsAt, if_pos (.inr rfl), hk, List.range_succ_eq_map]
  simp [Committee.electLeader]

end UniversalCommitterBuilder

namespace View

variable {p : UniversalCommitterBuilder} {dag : ConsensusDag p.committee} (view : View dag)
  {roundOffset : Nat}

def universal : UniversalCommitter := p.build view.store view.order

theorem electLeader_eq (hwave : p.waveLength = 3) (leaderOffset : Nat) (hoff : roundOffset < 3)
    (round : RoundNumber) :
    (view.committer ⟨p.waveLength, leaderOffset, roundOffset, p.minimum⟩).electLeader round =
      if round % 3 = roundOffset then some (p.committee.electLeader (round + leaderOffset))
      else none := by
  have harith (r o : Nat) (ho : o < 3) : (r - o) / 3 * 3 + o = r ↔ r % 3 = o := by omega
  unfold BaseCommitter.electLeader BaseCommitter.leaderRound BaseCommitter.waveNumber
  simp only [committer_options, hwave, ne_eq, ite_not, harith round roundOffset hoff]
  rfl

section

variable (htotal : p.committee.totalStake < 2 ^ 63)

include htotal

theorem decideStage_eq (hwave : p.waveLength = 3) (hoff : roundOffset < 3) (round : RoundNumber)
    (slots : List Slot) (offsets : List Nat) :
    (offsets.map fun k => view.committer ⟨p.waveLength, k, roundOffset, p.minimum⟩).foldrM
        (UniversalCommitter.decideLeader round) ((dag.decisions view.known slots).map toStatus) =
      some ((dag.decisions view.known ((if round % 3 = roundOffset then
        offsets.map fun k => (p.committee.electLeader (round + k), round) else []) ++ slots)).map
          toStatus) := by
  induction offsets with
  | nil =>
    rw [List.map_nil, List.map_nil, ite_self]
    rfl
  | cons k offsets ih =>
    have helect := view.electLeader_eq hwave k hoff round
    rw [List.map_cons, List.foldrM_cons, ih]
    change UniversalCommitter.decideLeader round _ _ = _
    split_ifs at helect ⊢ with hround
    · exact view.decideLeader_eq (s := (p.committee.electLeader (round + k), round)) htotal hwave
        helect _
    · rw [UniversalCommitter.decideLeader, helect]

theorem decideRound_eq (hwave : p.waveLength = 3) (round : RoundNumber) (slots : List Slot) :
    view.universal.committers.foldrM (UniversalCommitter.decideLeader round)
        ((dag.decisions view.known slots).map toStatus) =
      some ((dag.decisions view.known (p.slotsAt round ++ slots)).map toStatus) := by
  have hstages : ∀ offsets : List Nat, (∀ o ∈ offsets, o < 3) →
      (offsets.flatMap fun o => (List.range p.numberOfLeaders).map fun k =>
        view.committer ⟨p.waveLength, k, o, p.minimum⟩).foldrM
          (UniversalCommitter.decideLeader round) ((dag.decisions view.known slots).map toStatus) =
      some ((dag.decisions view.known ((offsets.flatMap fun o => if round % 3 = o then
        (List.range p.numberOfLeaders).map fun k => (p.committee.electLeader (round + k), round)
        else []) ++ slots)).map toStatus) := by
    intro offsets hoff
    induction offsets with
    | nil => rfl
    | cons o offsets ih =>
      rw [List.flatMap_cons, List.foldrM_append, ih fun o ho => hoff o (List.mem_cons_of_mem _ ho),
        List.flatMap_cons, List.append_assoc]
      exact view.decideStage_eq htotal hwave (hoff o List.mem_cons_self) round _ _
  have hlt : ∀ o ∈ List.range (if p.pipeline = true then p.waveLength else 1), o < 3 := by
    intro o ho
    rw [List.mem_range, hwave] at ho
    split_ifs at ho <;> omega
  refine (hstages _ hlt).trans ?_
  -- Exactly one of the three stages has leaders in a round.
  have hslots : ((List.range (if p.pipeline = true then p.waveLength else 1)).flatMap fun o =>
      if round % 3 = o then
        (List.range p.numberOfLeaders).map fun k => (p.committee.electLeader (round + k), round)
      else []) = p.slotsAt round := by
    unfold UniversalCommitterBuilder.slotsAt
    rw [hwave]
    by_cases hpipe : p.pipeline = true
    · have hrange : List.range 3 = [0, 1, 2] := rfl
      simp only [hpipe, if_true, true_or, hrange, List.flatMap_cons, List.flatMap_nil,
        List.append_nil]
      have hmod (r : Nat) : r % 3 = 0 ∨ r % 3 = 1 ∨ r % 3 = 2 := by omega
      rcases hmod round with h | h | h <;> simp [h]
    · simp [hpipe]
  rw [hslots]

theorem decideLeaders_eq (hwave : p.waveLength = 3) (start : RoundNumber) :
    view.universal.decideLeaders start =
      some ((dag.decisions view.known
        (p.slots start (view.store.highestRound + 1 - start))).map toStatus) := by
  have hrounds : ∀ n start : Nat, (List.range' start n).foldrM (fun round leaders =>
      view.universal.committers.foldrM (UniversalCommitter.decideLeader round) leaders) [] =
      some ((dag.decisions view.known (p.slots start n)).map toStatus) := by
    intro n
    induction n with
    | zero => exact fun _ => rfl
    | succ n ih =>
      intro start
      rw [List.range'_succ, List.foldrM_cons, ih]
      exact view.decideRound_eq htotal hwave start _
  exact hrounds _ _

end

/-! ## The decided sequence -/

noncomputable def decisionsFrom (start : RoundNumber) :
    List (Slot × Anchored.Verdict StatementBlock) :=
  dag.decisions view.known (p.slots start (view.store.highestRound + 1 - start))

theorem slot_toStatus {slots : List Slot} (hq : q ∈ dag.decisions view.known slots) :
    (toStatus q).authority = q.1.1 ∧ (toStatus q).round = q.1.2 := by
  exact Prod.mk.inj (toStatus_slot (fun b h => (view.commits_of_mem h).2) hq)

theorem fst_mem_of_mem_decisions {slots : List Slot} (hq : q ∈ dag.decisions view.known slots) :
    q.1 ∈ slots := by
  have := List.mem_map_of_mem (f := Prod.fst) hq
  rwa [ConsensusDag.map_fst_decisions] at this

theorem tryCommit_eq (htotal : p.committee.totalStake < 2 ^ 63) (hwave : p.waveLength = 3)
    (last : BlockReference)
    (hsplit : view.decisionsFrom last.round = pre ++ ((last.authority, last.round), v) :: post)
    (hpre : ∀ q ∈ pre, q.1 ≠ (last.authority, last.round)) :
    view.universal.tryCommit last =
      some ((Anchored.decidedPart (post.filter fun q => 0 < q.1.2)).map toStatus) := by
  have hslot : ∀ q ∈ pre ++ ((last.authority, last.round), v) :: post,
      (toStatus q).authority = q.1.1 ∧ (toStatus q).round = q.1.2 :=
    fun q hq => view.slot_toStatus (hsplit ▸ hq)
  have hdrop : (pre ++ ((last.authority, last.round), v) :: post).dropWhile
      ((fun x => (x.round, x.authority) ≠ (last.round, last.authority)) ∘ toStatus) =
      ((last.authority, last.round), v) :: post := by
    rw [List.dropWhile_append_of_pos fun q hq => ?_]
    · obtain ⟨ha, hr⟩ := hslot _ (List.mem_append_right pre List.mem_cons_self)
      simp [ha, hr]
    · obtain ⟨ha, hr⟩ := hslot q (List.mem_append_left _ hq)
      have hne := hpre q hq
      simp only [Function.comp_apply, ha, hr, decide_eq_true_iff]
      exact fun h => hne (Prod.ext (Prod.mk.inj h).2 (Prod.mk.inj h).1)
  have hfilter : post.filter ((fun x : LeaderStatus => decide (0 < x.round)) ∘ toStatus) =
      post.filter fun q => 0 < q.1.2 := by
    refine List.filter_congr fun q hq => ?_
    rw [Function.comp_apply,
      (hslot q (List.mem_append_right pre (List.mem_cons_of_mem _ hq))).2]
  have hdecided : (LeaderStatus.isDecided ∘ toStatus) =
      fun q : Slot × Anchored.Verdict StatementBlock => q.2.isDecided :=
    funext isDecided_toStatus
  rw [UniversalCommitter.tryCommit, view.decideLeaders_eq htotal hwave, ← decisionsFrom, hsplit,
    Option.map_some, List.dropWhile_map, hdrop, List.map_cons, List.drop_one, List.tail_cons,
    List.filter_map, hfilter, List.takeWhile_map, hdecided]
  rfl

theorem tryCommit_default_eq (htotal : p.committee.totalStake < 2 ^ 63) (hwave : p.waveLength = 3)
    (hone : 1 ≤ p.numberOfLeaders) :
    view.universal.tryCommit .default =
      some ((Anchored.decidedPart (view.decisionsFrom 1)).map toStatus) := by
  have hslots : p.slots 0 (view.store.highestRound + 1 - 0) =
      p.slotsAt 0 ++ p.slots 1 (view.store.highestRound + 1 - 1) := by
    rw [Nat.sub_zero, Nat.add_comm, p.slots_add]
    simp [UniversalCommitterBuilder.slots]
  obtain ⟨l, hl, hfst⟩ := dag.decisions_append view.known (p.slotsAt 0)
    (p.slots 1 (view.store.highestRound + 1 - 1))
  obtain ⟨rest, hrest⟩ := p.slotsAt_zero hone
  obtain ⟨⟨s, v⟩, l', rfl, rfl, hl'⟩ := List.map_eq_cons_iff.mp (hfst.trans hrest)
  have hsplit : view.decisionsFrom BlockReference.default.round =
      [] ++ ((BlockReference.default.authority, BlockReference.default.round), v) ::
        (l' ++ view.decisionsFrom 1) := by
    rw [decisionsFrom, show BlockReference.default.round = 0 from rfl, hslots, hl]
    rfl
  have hfilter : (l' ++ view.decisionsFrom 1).filter (fun q => 0 < q.1.2) =
      view.decisionsFrom 1 := by
    rw [List.filter_append, List.filter_eq_nil_iff.mpr, List.nil_append, List.filter_eq_self]
    · intro q hq
      have hq := (p.round_of_mem_slots (view.fst_mem_of_mem_decisions hq)).1
      exact decide_eq_true hq
    · intro q hq
      have hmem : q.1 ∈ p.slotsAt 0 := by
        rw [hrest, ← hl']
        exact List.mem_cons_of_mem _ (List.mem_map_of_mem hq)
      rw [p.round_of_mem_slotsAt hmem]
      decide
  rw [view.tryCommit_eq htotal hwave .default hsplit (by simp), hfilter]

/-! ## Agreement -/

theorem decidedPart_extends (htotal : p.committee.totalStake < 2 ^ 63) {known : Set StatementBlock}
    (hsub : view.known ⊆ known) (hknown : known ⊆ dag.blocks) (hclosed : Closed known)
    {n : Nat} (hn : view.store.highestRound ≤ n) :
    Anchored.decidedPart (view.decisionsFrom 1) <+:
      Anchored.decidedPart (dag.decisions known (p.slots 1 n)) := by
  obtain ⟨k, rfl⟩ := Nat.exists_eq_add_of_le hn
  rw [p.slots_add]
  exact (ConsensusDag.decisions_extend htotal hsub hknown hclosed _ _).decidedPart_extends

theorem closed_union {s t : Set StatementBlock} (hs : Closed s) (ht : Closed t) :
    Closed (s ∪ t) := by
  rintro b (hb | hb) i hi
  · obtain ⟨c, hc, hr⟩ := hs b hb i hi
    exact ⟨c, .inl hc, hr⟩
  · obtain ⟨c, hc, hr⟩ := ht b hb i hi
    exact ⟨c, .inr hc, hr⟩

end View

/-- Of the sequences of any two replicas one is a prefix of the other, and no replica panics. -/
theorem tryCommit_agreement (p : UniversalCommitterBuilder)
    (htotal : p.committee.totalStake < 2 ^ 63) (hwave : p.waveLength = 3)
    (hleaders : 1 ≤ p.numberOfLeaders ∧ p.numberOfLeaders ≤ p.committee.len)
    (dag : ConsensusDag p.committee) (view view' : View dag) :
    ∃ decided decided',
      (p.build view.store view.order).tryCommit .default = some decided ∧
      (p.build view'.store view'.order).tryCommit .default = some decided' ∧
      (decided <+: decided' ∨ decided' <+: decided) := by
  refine ⟨_, _, view.tryCommit_default_eq htotal hwave hleaders.1,
    view'.tryCommit_default_eq htotal hwave hleaders.1, ?_⟩
  have hknown := Set.union_subset view.subset view'.subset
  have hclosed := View.closed_union view.closed view'.closed
  have h := view.decidedPart_extends htotal Set.subset_union_left hknown hclosed
    (Nat.le_max_left _ view'.store.highestRound)
  have h' := view'.decidedPart_extends htotal Set.subset_union_right hknown hclosed
    (Nat.le_max_right view.store.highestRound _)
  exact (List.prefix_or_prefix_of_prefix h h').imp (fun h => h.map _) fun h => h.map _

def solo : Committee := ⟨[1], by decide, by decide, by decide, by decide⟩

def soloBlock : Nat → StatementBlock
  | 0 => .newGenesis 0
  | r + 1 => ⟨⟨0, r + 1, 0⟩, [⟨0, r, 0⟩]⟩

def soloDag : ConsensusDag solo :=
  .ofList ((List.range 9).map soloBlock) (by decide) fun b hb => by
    rcases (by decide : ∀ b ∈ (List.range 9).map soloBlock, b = .newGenesis 0 ∨
      b.verify solo = .ok ()) b hb with h | h
    · exact .inl ⟨0, rfl, h⟩
    · exact .inr h

def soloView (n : Nat) (hn : n ≤ 9) : View soloDag :=
  .ofList ((List.range n).map soloBlock)
    (fun b hb => by
      obtain ⟨r, hr, rfl⟩ := List.mem_map.mp hb
      exact List.mem_map_of_mem (List.mem_range.mpr ((List.mem_range.mp hr).trans_le hn)))
    (fun b hb i hi => by
      obtain ⟨r, hr, rfl⟩ := List.mem_map.mp hb
      rcases r with - | r
      · cases hi
      · refine ⟨soloBlock r, List.mem_map_of_mem ?_, ?_⟩
        · exact List.mem_range.mpr (Nat.lt_of_succ_lt (List.mem_range.mp hr))
        · rw [List.mem_singleton.mp hi]
          cases r <;> rfl)

def soloBuilder : UniversalCommitterBuilder := ⟨solo, 3, 1, false, by decide⟩

theorem solo_agreement :
    ∃ decided decided',
      (soloBuilder.build (soloView 6 (by decide)).store .sorted).tryCommit .default = some decided ∧
      (soloBuilder.build (soloView 9 (by decide)).store .sorted).tryCommit .default = some decided' ∧
      (decided <+: decided' ∨ decided' <+: decided) ∧
      decided = [.commit (soloBlock 3)] ∧
      decided' = [.commit (soloBlock 3), .commit (soloBlock 6)] := by
  obtain ⟨decided, decided', h, h', hprefix⟩ := tryCommit_agreement soloBuilder (by decide) rfl
    (by decide) soloDag (soloView 6 (by decide)) (soloView 9 (by decide))
  refine ⟨decided, decided', h, h', hprefix, Option.some.inj (h.symm.trans ?_),
    Option.some.inj (h'.symm.trans ?_)⟩ <;> decide

/-! ## Committing step by step -/

def LeaderStatus.committed : LeaderStatus → Option StatementBlock
  | .commit block => some block
  | .skip _ _ => none
  | .undecided _ _ => none

namespace View

variable {p : UniversalCommitterBuilder} {dag : ConsensusDag p.committee} (view : View dag)
  {l : List (Slot × Anchored.Verdict StatementBlock)}

def commits (l : List (Slot × Anchored.Verdict StatementBlock)) : List StatementBlock :=
  l.filterMap fun q => (toStatus q).committed

theorem mapM_intoDecidedBlock (hl : ∀ q ∈ l, q.2.isDecided = true) :
    ((l.map toStatus).mapM LeaderStatus.intoDecidedBlock).map List.reduceOption =
      some (commits l) := by
  induction l with
  | nil => rfl
  | cons q l ih =>
    obtain ⟨blocks, hblocks, hcommits⟩ :=
      Option.map_eq_some_iff.mp (ih fun q' hq' => hl q' (List.mem_cons_of_mem q hq'))
    obtain ⟨s, v⟩ := q
    cases v with
    | undecided => exact absurd (hl _ List.mem_cons_self) Bool.false_ne_true
    | skip =>
      rw [List.map_cons, List.mapM_cons, hblocks]
      exact congrArg some hcommits
    | commit b =>
      rw [List.map_cons, List.mapM_cons, hblocks]
      exact congrArg (fun bs => some (b :: bs)) hcommits

def lastLeader (blocks : List StatementBlock) : BlockReference :=
  (blocks.getLast?.map StatementBlock.reference).getD .default

theorem coreTryCommit_eq {last : BlockReference}
    (h : view.universal.tryCommit last = some ((Anchored.decidedPart l).map toStatus)) :
    Core.tryCommit view.universal last =
      some (((commits (Anchored.decidedPart l)).getLast?.map StatementBlock.reference).getD last,
        commits (Anchored.decidedPart l)) := by
  have hdecided : ∀ q ∈ Anchored.decidedPart l, q.2.isDecided = true :=
    fun q hq => Anchored.isDecided_of_mem_decidedPart hq
  obtain ⟨blocks, hblocks, hcommits⟩ := Option.map_eq_some_iff.mp (mapM_intoDecidedBlock hdecided)
  rw [Core.tryCommit, h]
  change Option.bind (List.mapM LeaderStatus.intoDecidedBlock _) _ = _
  rw [hblocks, ← hcommits]
  rfl

theorem decisionsFrom_split (hle : p.numberOfLeaders ≤ p.committee.len) {s : Slot}
    (hsplit : view.decisionsFrom 1 = pre ++ (s, v) :: post) :
    ∃ pre', view.decisionsFrom s.2 = pre' ++ (s, v) :: post ∧ (∀ q ∈ pre', q.1 ≠ s) ∧
      ∀ q ∈ post, 0 < q.1.2 := by
  have hmem : ∀ q ∈ view.decisionsFrom 1, q.1 ∈ p.slots 1 (view.store.highestRound + 1 - 1) :=
    fun q hq => view.fst_mem_of_mem_decisions hq
  have hs := p.round_of_mem_slots (hmem (s, v) (hsplit ▸ by simp))
  have hslots : p.slots 1 (view.store.highestRound + 1 - 1) =
      p.slots 1 (s.2 - 1) ++ p.slots s.2 (view.store.highestRound + 1 - s.2) := by
    have harith (h r : Nat) (h1 : 1 ≤ r) (h2 : r < 1 + (h + 1 - 1)) :
        h + 1 - 1 = (r - 1) + (h + 1 - r) ∧ 1 + (r - 1) = r := by omega
    obtain ⟨hsum, hr⟩ := harith view.store.highestRound s.2 hs.1 hs.2
    rw [hsum, p.slots_add, hr]
  obtain ⟨l₁, hl₁, hfst⟩ := dag.decisions_append view.known (p.slots 1 (s.2 - 1))
    (p.slots s.2 (view.store.highestRound + 1 - s.2))
  rw [← hslots] at hl₁
  -- The slot is not in an earlier round.
  have hnot : ∀ q ∈ l₁, q.1.2 < s.2 := by
    intro q hq
    have hq := p.round_of_mem_slots (hfst ▸ List.mem_map_of_mem hq)
    have harith (a r : Nat) (h1 : 1 ≤ r) (h2 : a < 1 + (r - 1)) : a < r := by omega
    exact harith _ _ hs.1 hq.2
  have hsplit' : l₁ ++ view.decisionsFrom s.2 = pre ++ (s, v) :: post := hl₁.symm.trans hsplit
  have hpre : ∃ pre', pre = l₁ ++ pre' ∧ view.decisionsFrom s.2 = pre' ++ (s, v) :: post := by
    rcases List.append_eq_append_iff.mp hsplit' with ⟨pre', hpre, hrest⟩ | ⟨rest, hrest, hpost⟩
    · exact ⟨pre', hpre, hrest⟩
    · rcases rest with - | ⟨q, rest⟩
      · exact ⟨[], by simpa using hrest.symm, hpost.symm⟩
      · cases hpost
        have hlt := hnot (s, v) (hrest ▸ by simp)
        exact absurd hlt (Nat.lt_irrefl _)
  obtain ⟨pre', rfl, hfrom⟩ := hpre
  have hnodup : ((l₁ ++ pre' ++ (s, v) :: post).map Prod.fst).Nodup := by
    rw [← hsplit, decisionsFrom, ConsensusDag.map_fst_decisions]
    exact p.nodup_slots hle _ _
  refine ⟨pre', hfrom, fun q hq he => ?_, fun q hq => ?_⟩
  · rw [List.map_append, List.nodup_append] at hnodup
    exact hnodup.2.2 q.1 (List.mem_map_of_mem (List.mem_append_right l₁ hq)) s
      (List.mem_map_of_mem List.mem_cons_self) he
  · have hq := hmem q (hsplit ▸ by simp [hq])
    exact (p.round_of_mem_slots hq).1

theorem commits_append (l l' : List (Slot × Anchored.Verdict StatementBlock)) :
    commits (l ++ l') = commits l ++ commits l' := List.filterMap_append

theorem eq_commit_of_committed (h : (toStatus q).committed = some b) : q = (q.1, .commit b) := by
  obtain ⟨s, v⟩ := q
  cases v with
  | commit c =>
    cases h
    rfl
  | skip => cases h
  | undecided => cases h

theorem exists_of_commits_eq {cs : List StatementBlock} (h : commits l = cs ++ [b]) :
    ∃ pre s rest, l = pre ++ (s, .commit b) :: rest ∧
      commits (pre ++ [(s, .commit b)]) = cs ++ [b] := by
  obtain ⟨l₁, l₂, rfl, h₁, h₂⟩ := List.filterMap_eq_append_iff.mp h
  obtain ⟨l₃, q, l₄, rfl, h₃, hq, -⟩ := List.filterMap_eq_cons_iff.mp h₂
  have hq' := eq_commit_of_committed hq
  have hnil : commits l₃ = [] := List.filterMap_eq_nil_iff.mpr h₃
  refine ⟨l₁ ++ l₃, q.1, l₄, ?_, ?_⟩
  · rw [← hq', List.append_assoc]
  · rw [← hq', commits_append, commits_append, hnil, show commits l₁ = cs from h₁]
    simp [commits, hq]

theorem coreTryCommit_step (htotal : p.committee.totalStake < 2 ^ 63) (hwave : p.waveLength = 3)
    (hleaders : 1 ≤ p.numberOfLeaders ∧ p.numberOfLeaders ≤ p.committee.len)
    (hl : l <+: Anchored.decidedPart (view.decisionsFrom 1)) :
    ∃ sequence, commits l ++ sequence = commits (Anchored.decidedPart (view.decisionsFrom 1)) ∧
      Core.tryCommit view.universal (lastLeader (commits l)) =
        some (lastLeader (commits l ++ sequence), sequence) := by
  rcases List.eq_nil_or_concat' (commits l) with hnil | ⟨cs, b, hcs⟩
  · rw [hnil]
    exact ⟨_, rfl, view.coreTryCommit_eq (view.tryCommit_default_eq htotal hwave hleaders.1)⟩
  · obtain ⟨rest, hrest⟩ := hl
    obtain ⟨pre, s, skips, hpre, hcommits⟩ := exists_of_commits_eq hcs
    -- The slot of the last committed leader splits the decisions.
    obtain ⟨post, hsplit⟩ : ∃ post, view.decisionsFrom 1 = pre ++ (s, .commit b) :: post := by
      refine ⟨skips ++ rest ++ (view.decisionsFrom 1).dropWhile fun q => q.2.isDecided, ?_⟩
      conv_lhs => rw [← List.takeWhile_append_dropWhile (p := fun q => q.2.isDecided)
        (l := view.decisionsFrom 1)]
      rw [← Anchored.decidedPart, ← hrest, hpre]
      simp
    have hs : b.authorRound = s :=
      (view.commits_of_mem (hsplit ▸ by simp : (s, .commit b) ∈ view.decisionsFrom 1)).2
    subst hs
    obtain ⟨pre', hfrom, hpre', hpos⟩ := view.decisionsFrom_split hleaders.2 hsplit
    have htry := view.tryCommit_eq htotal hwave b.reference hfrom hpre'
    rw [List.filter_eq_self.mpr fun q hq => decide_eq_true (hpos q hq)] at htry
    have hdecided : Anchored.decidedPart (view.decisionsFrom 1) =
        pre ++ [(b.authorRound, .commit b)] ++ Anchored.decidedPart post := by
      rw [hsplit, ← List.singleton_append, ← List.append_assoc, Anchored.decidedPart,
        List.takeWhile_append_of_pos]
      · rfl
      · intro q hq
        refine Anchored.isDecided_of_mem_decidedPart (l := view.decisionsFrom 1) ?_
        rw [← hrest, hpre]
        simp only [List.mem_append, List.mem_cons, List.not_mem_nil, or_false] at hq ⊢
        tauto
    refine ⟨commits (Anchored.decidedPart post), ?_, ?_⟩
    · rw [hdecided, commits_append, hcommits, hcs]
    · have hlast : lastLeader (commits l) = b.reference := by
        rw [hcs, lastLeader]
        simp
      rw [hlast, view.coreTryCommit_eq htry, lastLeader, hcs, List.getLast?_append]
      cases (commits (Anchored.decidedPart post)).getLast? <;> simp

theorem highestRound_mono {view view' : View dag} (h : view.known ⊆ view'.known) :
    view.store.highestRound ≤ view'.store.highestRound := by
  refine Finset.sup_le fun r hr => ?_
  obtain ⟨b, hb, rfl⟩ := BlockStore.mem_index_iff.mp (Finmap.mem_keys.mp hr)
  exact BlockStore.round_le_highestRound (h hb)

theorem tryCommits_from (htotal : p.committee.totalStake < 2 ^ 63) (hwave : p.waveLength = 3)
    (hleaders : 1 ≤ p.numberOfLeaders ∧ p.numberOfLeaders ≤ p.committee.len)
    {views : List (View dag)} (hchain : (view :: views).IsChain fun v w => v.known ⊆ w.known)
    (hl : l <+: Anchored.decidedPart (view.decisionsFrom 1)) :
    ∃ last sequences,
      Core.tryCommits (lastLeader (commits l)) ((view :: views).map universal) =
        some (last, sequences) ∧
      commits l ++ sequences.flatten = commits (Anchored.decidedPart
        (((view :: views).getLast (List.cons_ne_nil _ _)).decisionsFrom 1)) := by
  induction views generalizing view l with
  | nil =>
    obtain ⟨sequence, hseq, hcall⟩ := view.coreTryCommit_step htotal hwave hleaders hl
    refine ⟨lastLeader (commits l ++ sequence), [sequence], ?_, by simpa using hseq⟩
    rw [List.map_singleton, Core.tryCommits, hcall]
    rfl
  | cons next views ih =>
    obtain ⟨hsub, hchain⟩ := List.isChain_cons_cons.mp hchain
    obtain ⟨sequence, hseq, hcall⟩ := view.coreTryCommit_step htotal hwave hleaders hl
    have hprefix : Anchored.decidedPart (view.decisionsFrom 1) <+:
        Anchored.decidedPart (next.decisionsFrom 1) :=
      view.decidedPart_extends htotal hsub next.subset next.closed (highestRound_mono hsub)
    obtain ⟨last, sequences, hrest, hcommits⟩ := ih next hchain hprefix
    refine ⟨last, sequence :: sequences, ?_, ?_⟩
    · rw [List.map_cons, Core.tryCommits, hcall, hseq]
      change Option.bind (Core.tryCommits _ ((next :: views).map universal)) _ = _
      rw [hrest]
      rfl
    · rw [List.flatten_cons, ← List.append_assoc, hseq]
      exact hcommits

theorem nodup_commits (hle : p.numberOfLeaders ≤ p.committee.len)
    (hl : l <+: view.decisionsFrom 1) : (commits l).Nodup := by
  have hsub : ∀ l : List (Slot × Anchored.Verdict StatementBlock),
      (∀ q ∈ l, q ∈ view.decisionsFrom 1) →
      ((commits l).map StatementBlock.authorRound).Sublist (l.map Prod.fst) := by
    intro l hmem
    induction l with
    | nil => exact .slnil
    | cons q l ih =>
      have ih := ih fun q' hq' => hmem q' (List.mem_cons_of_mem q hq')
      obtain ⟨s, v⟩ := q
      cases v with
      | skip => exact ih.cons s
      | undecided => exact ih.cons s
      | commit b =>
        have hs : b.authorRound = s := (view.commits_of_mem (hmem _ List.mem_cons_self)).2
        exact hs ▸ ih.cons_cons b.authorRound
  have hnodup : ((view.decisionsFrom 1).map Prod.fst).Nodup := by
    rw [decisionsFrom, ConsensusDag.map_fst_decisions]
    exact p.nodup_slots hle _ _
  refine List.Nodup.of_map StatementBlock.authorRound (hnodup.sublist ((hsub l ?_).trans ?_))
  · exact fun q hq => hl.subset hq
  · exact hl.sublist.map _

end View

/-- Calls made while the DAG grows, each from the last committed leader on, commit the leaders that
one call at the end would commit. -/
theorem tryCommits_exact (p : UniversalCommitterBuilder)
    (htotal : p.committee.totalStake < 2 ^ 63) (hwave : p.waveLength = 3)
    (hleaders : 1 ≤ p.numberOfLeaders ∧ p.numberOfLeaders ≤ p.committee.len)
    (dag : ConsensusDag p.committee) (views : List (View dag)) (hne : views ≠ [])
    (hchain : views.IsChain fun v w => v.store.blocks ⊆ w.store.blocks) :
    ∃ last sequences decided,
      Core.tryCommits .default (views.map fun v => p.build v.store v.order) =
        some (last, sequences) ∧
      (p.build (views.getLast hne).store (views.getLast hne).order).tryCommit .default =
        some decided ∧
      sequences.flatten = decided.filterMap LeaderStatus.committed ∧ sequences.flatten.Nodup := by
  obtain ⟨view, views, rfl⟩ := List.exists_cons_of_ne_nil hne
  obtain ⟨last, sequences, hcalls, hcommits⟩ := view.tryCommits_from htotal hwave hleaders hchain
    List.nil_prefix
  have hflat : sequences.flatten = View.commits (Anchored.decidedPart
      (((view :: views).getLast hne).decisionsFrom 1)) := hcommits
  refine ⟨last, sequences, _, hcalls,
    ((view :: views).getLast hne).tryCommit_default_eq htotal hwave hleaders.1, ?_, ?_⟩
  · rw [hflat, List.filterMap_map]
    rfl
  · rw [hflat]
    exact View.nodup_commits _ hleaders.2 (List.takeWhile_prefix _)

theorem solo_step_by_step :
    ∃ last sequences decided,
      Core.tryCommits .default ([soloView 6 (by decide), soloView 9 (by decide)].map fun v =>
        soloBuilder.build v.store v.order) = some (last, sequences) ∧
      (soloBuilder.build (soloView 9 (by decide)).store .sorted).tryCommit .default = some decided ∧
      sequences.flatten = decided.filterMap LeaderStatus.committed ∧
      sequences = [[soloBlock 3], [soloBlock 6]] := by
  have hsub : (soloView 6 (by decide)).store.blocks ⊆ (soloView 9 (by decide)).store.blocks := by
    intro b hb
    obtain ⟨r, hr, rfl⟩ := List.mem_map.mp (View.mem_ofList.mp hb)
    refine View.mem_ofList.mpr (List.mem_map_of_mem (List.mem_range.mpr ?_))
    exact (List.mem_range.mp hr).trans (by decide)
  obtain ⟨last, sequences, decided, h, hdecided, hflat, -⟩ := tryCommits_exact soloBuilder
    (by decide) rfl (by decide) soloDag [soloView 6 (by decide), soloView 9 (by decide)]
    (List.cons_ne_nil _ _) (.cons_cons hsub (.singleton _))
  refine ⟨last, sequences, decided, h, hdecided, hflat, Option.some.inj ?_⟩
  rw [← Option.map_some (f := Prod.snd) (a := (last, sequences)), ← h]
  decide

end CongestionControl.Mysticeti
