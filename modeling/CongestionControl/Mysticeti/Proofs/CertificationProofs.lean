import CongestionControl.Mysticeti.Proofs.TransactionAggregatorProofs

/-!
# Certification counts the votes

A transaction without a quorum has an aggregator with exactly its votes, and one with a quorum has been
processed. Each range that is registered or voted for keeps this.
-/

namespace CongestionControl.Mysticeti

/-! ## Votes for transactions -/

def TransactionLocatorRange.Covers (r : TransactionLocatorRange) (l : TransactionLocator) : Prop :=
  r.block = l.block ∧ r.offsetStartInclusive ≤ l.offset ∧ l.offset < r.offsetEndExclusive

instance (r : TransactionLocatorRange) (l : TransactionLocator) : Decidable (r.Covers l) :=
  inferInstanceAs (Decidable (_ ∧ _ ∧ _))

def BaseStatement.VotesOn : BaseStatement → TransactionLocator → Prop
  | vote id .accept, l => id = l
  | voteRange range, l => range.Covers l
  | _, _ => False

instance : ∀ (s : BaseStatement) (l : TransactionLocator), Decidable (s.VotesOn l)
  | .vote id .accept, l => inferInstanceAs (Decidable (id = l))
  | .vote _ (.reject _), _ => inferInstanceAs (Decidable False)
  | .voteRange range, l => inferInstanceAs (Decidable (range.Covers l))
  | .share _, _ => inferInstanceAs (Decidable False)

def SignedBlock.VotesOn (b : SignedBlock) (l : TransactionLocator) : Prop :=
  ∃ s ∈ b.statements, s.VotesOn l

instance (b : SignedBlock) (l : TransactionLocator) : Decidable (b.VotesOn l) :=
  inferInstanceAs (Decidable (∃ s ∈ b.statements, s.VotesOn l))

def Shared (blocks : List SignedBlock) (l : TransactionLocator) : Prop :=
  ∃ b ∈ blocks, b.reference = l.block ∧ b.Shares l.offset

/-- The author of the transaction, and the authors of the blocks that vote for it. -/
def supporters (blocks : List SignedBlock) (l : TransactionLocator) : Finset AuthorityIndex :=
  insert l.block.authority ((blocks.filter fun b => b.VotesOn l).map fun b => b.author).toFinset

def Certified (committee : Committee) (blocks : List SignedBlock) (l : TransactionLocator) : Prop :=
  Shared blocks l ∧ committee.isQuorum (committee.getTotalStake (supporters blocks l)) = true

variable {blocks blocks' : List SignedBlock} {l : TransactionLocator} {committee : Committee}
  {v : Option StakeAggregator}

theorem mem_supporters {a : AuthorityIndex} :
    a ∈ supporters blocks l ↔ a = l.block.authority ∨ ∃ b ∈ blocks, b.VotesOn l ∧ b.author = a := by
  simp [supporters, and_assoc]

theorem shared_append :
    Shared (blocks ++ blocks') l ↔ Shared blocks l ∨ Shared blocks' l := by
  simp [Shared, or_and_right, exists_or]

theorem certified_congr (h : ∀ b, b ∈ blocks' ↔ b ∈ blocks) (l : TransactionLocator) :
    Certified committee blocks' l ↔ Certified committee blocks l := by
  have hsupporters : supporters blocks' l = supporters blocks l := by
    ext a
    simp only [mem_supporters, h]
  unfold Certified Shared
  simp only [h, hsupporters]

theorem Committee.isQuorum_mono {votes votes' : Finset AuthorityIndex} (hsub : votes ⊆ votes')
    (h : committee.isQuorum (committee.getTotalStake votes) = true) :
    committee.isQuorum (committee.getTotalStake votes') = true := by
  have hle : committee.getTotalStake votes ≤ committee.getTotalStake votes' :=
    Finset.sum_le_sum_of_subset hsub
  exact decide_eq_true ((of_decide_eq_true h).trans_le hle)

/-! ## The state of one transaction -/

/-- A transaction that nobody has shared is not counted. Otherwise it is processed if it has a quorum,
and if not it has an aggregator with its votes. -/
def Settled (committee : Committee) (votes : Option (Finset AuthorityIndex))
    (v : Option StakeAggregator) (processed : Prop) : Prop :=
  match votes with
  | none => v = none ∧ ¬ processed
  | some votes =>
    if committee.isQuorum (committee.getTotalStake votes) then v = none ∧ processed
    else (∃ agg, v = some agg ∧ agg.votes = votes ∧ agg.Counts committee) ∧ ¬ processed

namespace Settled

variable {committee : Committee} {votes : Option (Finset AuthorityIndex)} {agg : StakeAggregator}
  {processed processed' : Prop} {a : AuthorityIndex}

theorem congr (h : Settled committee votes v processed) (hp : processed' ↔ processed) :
    Settled committee votes v processed' := by
  rwa [propext hp]

theorem vote_none (h : Settled committee votes none processed) (a : AuthorityIndex) :
    Settled committee (votes.map (insert a)) none processed := by
  cases votes with
  | none => exact h
  | some votes =>
    by_cases hq : committee.isQuorum (committee.getTotalStake votes) = true
    · have hq' := Committee.isQuorum_mono (Finset.subset_insert a votes) hq
      simp only [Settled, if_pos hq] at h
      simpa only [Settled, Option.map_some, if_pos hq', true_and] using h
    · simp only [Settled, if_neg hq] at h
      obtain ⟨⟨_, hagg, _⟩, _⟩ := h
      cases hagg

theorem of_some (h : Settled committee votes (some agg) processed) :
    votes = some agg.votes ∧ agg.Counts committee ∧ ¬ processed := by
  cases votes with
  | none => exact nomatch h.1
  | some votes =>
    simp only [Settled] at h
    split_ifs at h
    · exact nomatch h.1
    · obtain ⟨⟨agg', hagg, rfl, hcounts⟩, hp⟩ := h
      cases hagg
      exact ⟨rfl, hcounts, hp⟩

theorem of_quorum (hagg : agg.Counts committee) (hq : committee.isQuorum agg.stake = true)
    (hp : processed) : Settled committee (some agg.votes) none processed := by
  have htotal : agg.stake = committee.getTotalStake agg.votes := hagg.stake
  rw [htotal] at hq
  unfold Settled
  dsimp only
  rw [if_pos hq]
  exact ⟨rfl, hp⟩

theorem of_no_quorum (hagg : agg.Counts committee) (hq : ¬ committee.isQuorum agg.stake = true)
    (hp : ¬ processed) : Settled committee (some agg.votes) (some agg) processed := by
  have htotal : agg.stake = committee.getTotalStake agg.votes := hagg.stake
  rw [htotal] at hq
  unfold Settled
  dsimp only
  rw [if_neg hq]
  exact ⟨⟨agg, rfl, rfl, hagg⟩, hp⟩

end Settled

/-! ## The state of all transactions -/

namespace TransactionAggregator

variable {committee : Committee} {t : TransactionAggregator} {a : AuthorityIndex}
  {votes : TransactionLocator → Option (Finset AuthorityIndex)} {processed : List TransactionLocator}
  {l : TransactionLocator} {m : RangeMap Nat StakeAggregator}

def count (t : TransactionAggregator) (l : TransactionLocator) : Option StakeAggregator :=
  (t.pending.lookup l.block).bind fun m => m.get l.offset

structure Tally (committee : Committee)
    (votes : TransactionLocator → Option (Finset AuthorityIndex)) (t : TransactionAggregator)
    (processed : List TransactionLocator) : Prop where
  valid : ∀ r m, t.pending.lookup r = some m → m.Valid
  settled : ∀ l, Settled committee (votes l) (t.count l) (l ∈ processed)
  nodup : processed.Nodup

structure Replaces (t : TransactionAggregator) (r : BlockReference)
    (m : RangeMap Nat StakeAggregator) (t' : TransactionAggregator) : Prop where
  valid : (∀ r m, t.pending.lookup r = some m → m.Valid) →
    ∀ r m, t'.pending.lookup r = some m → m.Valid
  count : ∀ l, t'.count l = if l.block = r then m.get l.offset else t.count l

theorem replaces_insert (hm : m.Valid) (r : BlockReference) :
    Replaces t r m ⟨t.pending.insert r m⟩ := by
  refine ⟨fun hvalid r' m' hlookup => ?_, fun l => ?_⟩
  · by_cases hr : r' = r
    · subst hr
      rw [Finmap.lookup_insert] at hlookup
      cases hlookup
      exact hm
    · rw [Finmap.lookup_insert_of_ne _ hr] at hlookup
      exact hvalid r' m' hlookup
  · unfold TransactionAggregator.count
    split_ifs with hl
    · rw [hl, Finmap.lookup_insert, Option.bind_some]
    · rw [Finmap.lookup_insert_of_ne _ hl]

theorem get_of_isEmpty (h : m.isEmpty = true) (x : Nat) :
    m.get x = none := by
  have hkeys : m.map.keys = ∅ := of_decide_eq_true h
  have hlower : m.lowerBound x = none := by
    simp [RangeMap.lowerBound, hkeys]
  rw [RangeMap.get, hlower, Option.bind_none]

theorem replaces_erase (hm : m.isEmpty = true) (r : BlockReference) :
    Replaces t r m ⟨t.pending.erase r⟩ := by
  refine ⟨fun hvalid r' m' hlookup => ?_, fun l => ?_⟩
  · by_cases hr : r' = r
    · subst hr
      rw [Finmap.lookup_erase] at hlookup
      cases hlookup
    · rw [Finmap.lookup_erase_ne hr] at hlookup
      exact hvalid r' m' hlookup
  · unfold TransactionAggregator.count
    split_ifs with hl
    · rw [hl, Finmap.lookup_erase, Option.bind_none, get_of_isEmpty hm]
    · rw [Finmap.lookup_erase_ne hl]

def castVote (a : AuthorityIndex) (voted : TransactionLocator → Prop) [DecidablePred voted]
    (votes : TransactionLocator → Option (Finset AuthorityIndex)) (l : TransactionLocator) :
    Option (Finset AuthorityIndex) :=
  if voted l then (votes l).map (insert a) else votes l

/-- The votes for the offsets from `start` to before `x` have been counted, and the transactions in
`new` were processed. -/
def VotedTo (committee : Committee) (votes : TransactionLocator → Option (Finset AuthorityIndex))
    (a : AuthorityIndex) (r : BlockReference) (start : Nat) (processed acc : List TransactionLocator)
    (x : Nat) (acc' : List TransactionLocator) (g : Nat → Option StakeAggregator) : Prop :=
  ∃ new, acc' = acc ++ new ∧ (processed ++ new).Nodup ∧ (∀ l ∈ new, l.block = r) ∧
    ∀ o, Settled committee
      (if start ≤ o ∧ o < x then (votes ⟨r, o⟩).map (insert a) else votes ⟨r, o⟩) (g o)
      (⟨r, o⟩ ∈ processed ++ new)

section Piece

variable {r : BlockReference} {start x y : Nat} {acc acc' : List TransactionLocator}
  {g : Nat → Option StakeAggregator}

theorem mem_locators : l ∈ (TransactionLocatorRange.new r ⟨x, y⟩).locators ↔
    l.block = r ∧ x ≤ l.offset ∧ l.offset < y := by
  obtain ⟨block, offset⟩ := l
  simp only [TransactionLocatorRange.locators, TransactionLocatorRange.new, List.mem_map,
    List.mem_range'_1, TransactionLocator.mk.injEq]
  constructor
  · rintro ⟨o, ho, rfl, rfl⟩
    refine ⟨rfl, ?_⟩
    omega
  · rintro ⟨rfl, ho⟩
    exact ⟨offset, by omega, rfl, rfl⟩

theorem nodup_locators : (TransactionLocatorRange.new r ⟨x, y⟩).locators.Nodup := by
  refine (List.nodup_range' ..).map fun o o' h => ?_
  cases h
  rfl

/-- One more piece of the range gets the value `v`, and the offsets outside are as before. -/
theorem VotedTo.extend {new new' : List TransactionLocator} (hsettled : ∀ o, Settled committee
      (if start ≤ o ∧ o < x then (votes ⟨r, o⟩).map (insert a) else votes ⟨r, o⟩) (g o)
      (⟨r, o⟩ ∈ processed ++ new)) (hsx : start ≤ x) (hxy : x < y)
    (hnodup : (processed ++ new').Nodup) (hnew : ∀ l ∈ new', l.block = r)
    (hin : ∀ o, x ≤ o → o < y →
      Settled committee ((votes ⟨r, o⟩).map (insert a)) v (⟨r, o⟩ ∈ processed ++ new'))
    (hout : ∀ o, ¬ (x ≤ o ∧ o < y) →
      (TransactionLocator.mk r o ∈ processed ++ new' ↔ ⟨r, o⟩ ∈ processed ++ new)) :
    VotedTo committee votes a r start processed acc y (acc ++ new')
      (fun z => if x ≤ z ∧ z < y then v else g z) := by
  refine ⟨new', rfl, hnodup, hnew, fun o => ?_⟩
  dsimp only
  by_cases ho : x ≤ o ∧ o < y
  · rw [if_pos ho, if_pos ⟨hsx.trans ho.1, ho.2⟩]
    exact hin o ho.1 ho.2
  · have hiff : (start ≤ o ∧ o < y) ↔ (start ≤ o ∧ o < x) := by omega
    simp only [if_neg ho, hiff]
    exact (hsettled o).congr (hout o ho)

theorem VotedTo.piece (h : VotedTo committee votes a r start processed acc x acc' g)
    (ha : a ∈ Finset.range committee.len) (hsx : start ≤ x) (hxy : x < y)
    (huniform : ∀ z, x ≤ z → z < y → g z = g x) :
    ∃ acc'' v, voteItem committee r a acc' ⟨x, y⟩ (g x) = some (acc'', v) ∧
      VotedTo committee votes a r start processed acc y acc''
        (fun z => if x ≤ z ∧ z < y then v else g z) := by
  obtain ⟨new, rfl, hnodup, hnew, hsettled⟩ := h
  have hbefore : ∀ o, x ≤ o → o < y →
      Settled committee (votes ⟨r, o⟩) (g x) (⟨r, o⟩ ∈ processed ++ new) := by
    intro o hxo hoy
    have ho := hsettled o
    rwa [if_neg fun ho => absurd ho.2 (not_lt.mpr hxo), huniform o hxo hoy] at ho
  cases hgx : g x with
  | none =>
    rw [hgx] at hbefore
    refine ⟨acc ++ new, none, rfl, VotedTo.extend hsettled hsx hxy hnodup hnew ?_ fun _ _ => Iff.rfl⟩
    exact fun o hxo hoy => (hbefore o hxo hoy).vote_none a
  | some agg =>
    rw [hgx] at hbefore
    obtain ⟨-, hagg, -⟩ := (hbefore x le_rfl hxy).of_some
    obtain ⟨agg', hagg', hvotes', hvote⟩ := voteItem_some hagg ha
    have hvotes : ∀ o, x ≤ o → o < y → (votes ⟨r, o⟩).map (insert a) = some agg'.votes := by
      intro o hxo hoy
      have hinsert : agg'.votes = insert a agg.votes := by
        ext b
        rw [hvotes', Finset.mem_insert]
      rw [(hbefore o hxo hoy).of_some.1, Option.map_some, hinsert]
    have hfresh : ∀ o, x ≤ o → o < y → TransactionLocator.mk r o ∉ processed ++ new :=
      fun o hxo hoy => (hbefore o hxo hoy).of_some.2.2
    rw [hvote]
    by_cases hq : committee.isQuorum agg'.stake = true
    · rw [if_pos hq, List.append_assoc]
      refine ⟨_, none, rfl, VotedTo.extend hsettled hsx hxy ?_ ?_ ?_ ?_⟩
      · rw [← List.append_assoc]
        refine hnodup.append nodup_locators fun l hl hl' => ?_
        obtain ⟨rfl, hxl, hly⟩ := mem_locators.mp hl'
        exact hfresh l.offset hxl hly hl
      · intro l hl
        rcases List.mem_append.mp hl with hl | hl
        · exact hnew l hl
        · exact (mem_locators.mp hl).1
      · intro o hxo hoy
        rw [hvotes o hxo hoy]
        refine .of_quorum hagg' hq ?_
        rw [← List.append_assoc]
        exact List.mem_append_right _ (mem_locators.mpr ⟨rfl, hxo, hoy⟩)
      · intro o ho
        rw [← List.append_assoc, List.mem_append]
        exact or_iff_left fun hl => ho (mem_locators.mp hl).2
    · rw [if_neg hq]
      refine ⟨_, some agg', rfl, VotedTo.extend hsettled hsx hxy hnodup hnew ?_ fun _ _ => Iff.rfl⟩
      intro o hxo hoy
      rw [hvotes o hxo hoy]
      exact .of_no_quorum hagg' hq (hfresh o hxo hoy)

end Piece

theorem Tally.vote (h : Tally committee votes t processed) (ha : a ∈ Finset.range committee.len)
    {range : TransactionLocatorRange}
    (hlt : range.offsetStartInclusive < range.offsetEndExclusive) (acc : List TransactionLocator) :
    ∃ t' new, t.vote committee range a acc = some (t', acc ++ new) ∧
      Tally committee (castVote a range.Covers votes) t' (processed ++ new) := by
  obtain ⟨r, start, stop⟩ := range
  unfold TransactionAggregator.vote
  cases hlookup : t.pending.lookup r with
  | none =>
    refine ⟨t, [], by rw [List.append_nil], ?_⟩
    rw [List.append_nil]
    refine ⟨h.valid, fun l => ?_, h.nodup⟩
    unfold castVote
    split_ifs with hcovers
    · have hnone : t.count l = none := by
        rw [count, ← hcovers.1, hlookup, Option.bind_none]
      have hsettled := h.settled l
      rw [hnone] at hsettled ⊢
      exact hsettled.vote_none a
    · exact h.settled l
  | some m =>
    have hstart : VotedTo committee votes a r start processed acc start acc m.get := by
      refine ⟨[], (List.append_nil acc).symm, ?_, nofun, fun o => ?_⟩
      · rw [List.append_nil]
        exact h.nodup
      · have hsettled := h.settled ⟨r, o⟩
        rw [if_neg fun ho => absurd (ho.1.trans_lt ho.2) (lt_irrefl _), List.append_nil]
        rwa [count, hlookup] at hsettled
    obtain ⟨acc', m', hrun, hm', new, rfl, hnodup, hnew, hsettled⟩ :=
      (h.valid r m hlookup).mutateRange_run hlt hstart
        fun x y acc' g hsx hxy _ hg huniform => hg.piece ha hsx hxy huniform
    change ∃ t' new, (m.mutateRange _ _ ⟨start, stop⟩ >>= _) = some (t', acc ++ new) ∧ _
    rw [hrun]
    refine ⟨_, new, rfl, ?_⟩
    have hreplaces : Replaces t r m' ⟨if m'.isEmpty then t.pending.erase r
        else t.pending.insert r m'⟩ := by
      split_ifs with hempty
      · exact replaces_erase hempty r
      · exact replaces_insert hm' r
    refine ⟨hreplaces.valid h.valid, fun l => ?_, hnodup⟩
    rw [hreplaces.count]
    obtain ⟨block, o⟩ := l
    by_cases hblock : block = r
    · subst hblock
      rw [if_pos rfl]
      refine (congrArg (Settled committee · _ _) ?_).mp (hsettled o)
      simp only [castVote, TransactionLocatorRange.Covers, true_and]
    · rw [if_neg hblock, castVote, if_neg fun hcovers => hblock hcovers.1.symm]
      refine (h.settled ⟨block, o⟩).congr ?_
      rw [List.mem_append]
      exact or_iff_left fun hl => hblock (hnew _ hl)

theorem Tally.register (h : Tally committee votes t processed) (ha : a ∈ Finset.range committee.len)
    (hsingle : committee.isQuorum (committee.stake a) = false) {range : TransactionLocatorRange}
    (hlt : range.offsetStartInclusive < range.offsetEndExclusive)
    (hfresh : ∀ l, range.Covers l → votes l = none) :
    ∃ t', t.register committee range a = some t' ∧
      Tally committee (fun l => if range.Covers l then some {a} else votes l) t' processed := by
  obtain ⟨r, start, stop⟩ := range
  obtain ⟨agg, hadd, hagg, hvotes⟩ := StakeAggregator.add_eq StakeAggregator.counts_new ha
  have hvotes : agg.votes = {a} := by
    ext b
    rw [hvotes, Finset.mem_singleton]
    exact or_iff_left (Finset.notMem_empty b)
  have hquorum : ¬ committee.isQuorum agg.stake = true := by
    rw [hagg.stake, hvotes, Finset.sum_singleton, hsingle]
    exact Bool.false_ne_true
  -- an offset of the range is counted as soon as it has been passed
  let I : Nat → Unit → (Nat → Option StakeAggregator) → Prop := fun x _ g =>
    ∀ o, Settled committee (if start ≤ o ∧ o < x then some {a} else votes ⟨r, o⟩) (g o)
      (⟨r, o⟩ ∈ processed)
  have hvalid : ((t.pending.lookup r).getD .empty).Valid := by
    cases hlookup : t.pending.lookup r with
    | none => exact RangeMap.valid_empty
    | some m => exact h.valid r m hlookup
  have hget : ∀ o, ((t.pending.lookup r).getD .empty).get o = t.count ⟨r, o⟩ := by
    intro o
    rw [count]
    cases t.pending.lookup r <;> rfl
  have hstart : I start () ((t.pending.lookup r).getD .empty).get := by
    intro o
    rw [if_neg fun ho => absurd (ho.1.trans_lt ho.2) (lt_irrefl _), hget]
    exact h.settled ⟨r, o⟩
  obtain ⟨_, m, hrun, hm, hsettled⟩ :=
    hvalid.mutateRange_run (f := registerItem committee a) hlt hstart (by
      intro x y _ g hsx hxy hyb hg huniform
      have hnone : ∀ o, x ≤ o → o < y → g o = none ∧ TransactionLocator.mk r o ∉ processed := by
        intro o hxo hoy
        have ho := hg o
        rw [if_neg fun ho => absurd ho.2 (not_lt.mpr hxo),
          hfresh ⟨r, o⟩ ⟨rfl, hsx.trans hxo, hoy.trans_le hyb⟩] at ho
        exact ho
      rw [(hnone x le_rfl hxy).1]
      refine ⟨(), some agg, by rw [registerItem, hadd]; rfl, fun o => ?_⟩
      dsimp only
      by_cases ho : x ≤ o ∧ o < y
      · rw [if_pos ho, if_pos ⟨hsx.trans ho.1, ho.2⟩, ← hvotes]
        exact .of_no_quorum hagg hquorum (hnone o ho.1 ho.2).2
      · have hiff : (start ≤ o ∧ o < y) ↔ (start ≤ o ∧ o < x) := by omega
        simp only [if_neg ho, hiff]
        exact hg o)
  have hreplaces : Replaces t r m ⟨t.pending.insert r m⟩ := replaces_insert hm r
  refine ⟨⟨t.pending.insert r m⟩, ?_, hreplaces.valid h.valid, fun l => ?_, h.nodup⟩
  · change ((t.pending.lookup r).getD .empty).mutateRange _ _ ⟨start, stop⟩ >>= _ = _
    rw [hrun]
    rfl
  · rw [hreplaces.count]
    obtain ⟨block, o⟩ := l
    by_cases hblock : block = r
    · subst hblock
      rw [if_pos rfl]
      refine (congrArg (Settled committee · _ _) ?_).mp (hsettled o)
      simp only [TransactionLocatorRange.Covers, true_and]
    · rw [if_neg hblock, if_neg fun hcovers => hblock hcovers.1.symm]
      exact h.settled ⟨block, o⟩

/-! ## Blocks -/

theorem Tally.congr {votes' : TransactionLocator → Option (Finset AuthorityIndex)}
    (h : Tally committee votes t processed) (hvotes : ∀ l, votes' l = votes l) :
    Tally committee votes' t processed := by
  rwa [funext hvotes]

theorem Tally.registerAll {r : BlockReference} {ranges : List (Range Nat)}
    (h : Tally committee votes t processed) (ha : a ∈ Finset.range committee.len)
    (hsingle : committee.isQuorum (committee.stake a) = false)
    (hlt : ∀ range ∈ ranges, range.start < range.stop)
    (hordered : ranges.Pairwise fun range range' => range.stop ≤ range'.start)
    (hfresh : ∀ range ∈ ranges, ∀ l, (TransactionLocatorRange.new r range).Covers l →
      votes l = none) :
    ∃ t', (ranges.map (.new r)).foldlM (fun t range => t.register committee range a) t = some t' ∧
      Tally committee (fun l => if ∃ range ∈ ranges, (TransactionLocatorRange.new r range).Covers l
        then some {a} else votes l) t' processed := by
  induction ranges generalizing t votes with
  | nil => exact ⟨t, rfl, h.congr fun l => if_neg (by simp)⟩
  | cons range ranges ih =>
    rw [List.forall_mem_cons] at hlt hfresh
    rw [List.pairwise_cons] at hordered
    obtain ⟨t₁, hfirst, ht₁⟩ := h.register ha hsingle hlt.1 hfresh.1
    have hfresh₁ : ∀ range' ∈ ranges, ∀ l, (TransactionLocatorRange.new r range').Covers l →
        (if (TransactionLocatorRange.new r range).Covers l then some {a} else votes l) = none := by
      intro range' hrange' l hcovers
      have hle := hordered.1 range' hrange'
      rw [if_neg fun hfirst => absurd (hfirst.2.2.trans_le (hle.trans hcovers.2.1)) (lt_irrefl _)]
      exact hfresh.2 range' hrange' l hcovers
    obtain ⟨t', hrest, ht'⟩ := ih ht₁ hlt.2 hordered.2 hfresh₁
    rw [List.map_cons, List.foldlM_cons, hfirst]
    refine ⟨t', hrest, ht'.congr fun l => ?_⟩
    simp only [List.exists_mem_cons_iff]
    by_cases hcovers : (TransactionLocatorRange.new r range).Covers l
    · simp only [hcovers, true_or, if_true, ite_self]
    · simp only [hcovers, false_or, if_false]

theorem castVote_castVote {voted voted' : TransactionLocator → Prop} [DecidablePred voted]
    [DecidablePred voted'] [DecidablePred fun l => voted l ∨ voted' l] (l : TransactionLocator) :
    castVote a (fun l => voted l ∨ voted' l) votes l =
      castVote a voted' (castVote a voted votes) l := by
  unfold castVote
  by_cases hl : voted l
  · simp only [hl, true_or, if_true]
    split_ifs
    · rw [Option.map_map]
      congr 1
      funext votes
      exact (Finset.insert_idem a votes).symm
    · rfl
  · simp only [hl, false_or, if_false]

end TransactionAggregator

/-- A vote for a transaction of a small offset, or a range that is not empty. -/
def BaseStatement.Proper : BaseStatement → Prop
  | share _ => True
  | vote locator v => v = .accept ∧ locator.offset < 2 ^ 20
  | voteRange range => range.offsetStartInclusive < range.offsetEndExclusive

namespace TransactionAggregator

variable {crypto : Crypto} {committee : Committee} {t : TransactionAggregator} {a : AuthorityIndex}
  {votes : TransactionLocator → Option (Finset AuthorityIndex)} {processed : List TransactionLocator}
  {l : TransactionLocator}

section

variable (h : Tally committee votes t processed)

include h

theorem Tally.processStatement (ha : a ∈ Finset.range committee.len) {s : BaseStatement}
    (hs : s.Proper) (acc : List TransactionLocator) :
    ∃ t' new, TransactionAggregator.processStatement committee a (t, acc) s = some (t', acc ++ new) ∧
      Tally committee (castVote a s.VotesOn votes) t' (processed ++ new) := by
  cases s with
  | share tx =>
    refine ⟨t, [], by rw [List.append_nil]; rfl, ?_⟩
    rw [List.append_nil]
    exact h.congr fun l => if_neg id
  | vote locator v =>
    obtain ⟨rfl, hoffset⟩ := hs
    have hlt : locator.offset + 1 < 2 ^ 64 := by omega
    have hrange : locator.offset < locator.offset + 1 := Nat.lt_succ_self _
    obtain ⟨t', new, hvote, ht'⟩ :=
      @Tally.vote _ _ _ _ _ h ha ⟨locator.block, locator.offset, locator.offset + 1⟩ hrange acc
    refine ⟨t', new, ?_, ht'.congr fun l => ?_⟩
    · simp only [TransactionAggregator.processStatement, TransactionLocatorRange.one, if_pos hlt,
        Option.bind_eq_bind, Option.bind_some]
      exact hvote
    · have hiff : (BaseStatement.vote locator .accept).VotesOn l ↔
          (TransactionLocatorRange.mk locator.block locator.offset (locator.offset + 1)).Covers l := by
        obtain ⟨block, offset⟩ := l
        obtain ⟨block', offset'⟩ := locator
        simp only [BaseStatement.VotesOn, TransactionLocatorRange.Covers,
          TransactionLocator.mk.injEq]
        refine and_congr_right fun _ => ?_
        omega
      simp only [castVote, hiff]
  | voteRange range => exact h.vote ha hs acc

theorem Tally.statements {statements : List BaseStatement} (ha : a ∈ Finset.range committee.len)
    (hs : ∀ s ∈ statements, s.Proper) (acc : List TransactionLocator) :
    ∃ t' new, statements.foldlM (TransactionAggregator.processStatement committee a) (t, acc) =
        some (t', acc ++ new) ∧
      Tally committee (castVote a (fun l => ∃ s ∈ statements, s.VotesOn l) votes) t'
        (processed ++ new) := by
  induction statements generalizing t votes processed acc with
  | nil =>
    refine ⟨t, [], by rw [List.append_nil]; rfl, ?_⟩
    rw [List.append_nil]
    exact h.congr fun l => if_neg (by simp)
  | cons s statements ih =>
    rw [List.forall_mem_cons] at hs
    obtain ⟨t₁, new₁, hfirst, ht₁⟩ := h.processStatement ha hs.1 acc
    obtain ⟨t', new, hrest, ht'⟩ := ih ht₁ hs.2 (acc ++ new₁)
    rw [List.foldlM_cons, hfirst]
    refine ⟨t', new₁ ++ new, ?_, ?_⟩
    · rw [← List.append_assoc]
      exact hrest
    · rw [← List.append_assoc]
      refine ht'.congr fun l => ?_
      rw [← castVote_castVote]
      simp only [castVote, List.exists_mem_cons_iff]

open scoped Classical in
theorem Tally.processBlock {b : SignedBlock} (ha : b.author ∈ Finset.range committee.len)
    (hsingle : committee.isQuorum (committee.stake b.author) = false)
    (hs : ∀ s ∈ b.statements, s.Proper) (hfresh : ∀ l, l.block = b.reference → votes l = none) :
    ∃ t' new, t.processBlock committee b = some (t', new) ∧
      Tally committee (castVote b.author b.VotesOn fun l =>
        if l.block = b.reference ∧ b.Shares l.offset then some {b.author} else votes l)
        t' (processed ++ new) := by
  have hranges := b.ranges_shared
  obtain ⟨t₁, hregister, ht₁⟩ :=
    h.registerAll ha hsingle hranges.nonempty (hranges.ordered.imp le_of_lt)
      fun range _ l hcovers => hfresh l hcovers.1.symm
  obtain ⟨t', new, hstatements, ht'⟩ := ht₁.statements ha hs []
  refine ⟨t', new, ?_, ht'.congr fun l => ?_⟩
  · rw [TransactionAggregator.processBlock, SignedBlock.sharedRanges, hregister]
    exact hstatements
  · have hiff : (∃ range ∈ sharedRangesFrom 0 none b.statements,
        (TransactionLocatorRange.new b.reference range).Covers l) ↔
          l.block = b.reference ∧ b.Shares l.offset := by
      rw [← hranges.covers]
      constructor
      · rintro ⟨range, hrange, hblock, hoffset⟩
        exact ⟨hblock.symm, range, hrange, hoffset⟩
      · rintro ⟨hblock, range, hrange, hoffset⟩
        exact ⟨range, hrange, hblock.symm, hoffset⟩
    simp only [castVote, hiff]
    rfl

end

end TransactionAggregator

/-! ## Sequences of blocks -/

open scoped Classical in
noncomputable def votesOf (blocks : List SignedBlock) (l : TransactionLocator) :
    Option (Finset AuthorityIndex) :=
  if Shared blocks l then some (supporters blocks l) else none

/-- Blocks that pass the checks, with votes for transactions only, and ranges that are not empty. No
two have the same reference, and none is voted for before it is processed. -/
structure Admissible (crypto : Crypto) (committee : Committee) (blocks : List SignedBlock) :
    Prop where
  verified : ∀ b ∈ blocks, b.verify crypto committee = .ok ()
  accepts : ∀ b ∈ blocks, ∀ locator v, .vote locator v ∈ b.statements →
    v = .accept ∧ locator.offset < 2 ^ 20
  nonempty : ∀ b ∈ blocks, ∀ range, .voteRange range ∈ b.statements →
    range.offsetStartInclusive < range.offsetEndExclusive
  distinct : blocks.Pairwise fun b b' => b.reference ≠ b'.reference
  behind : blocks.Pairwise fun b b' => ∀ l, b.VotesOn l → l.block ≠ b'.reference

namespace Admissible

variable {crypto : Crypto} {committee : Committee} {blocks rest : List SignedBlock} {b : SignedBlock}

theorem proper (h : Admissible crypto committee blocks) (hb : b ∈ blocks) :
    ∀ s ∈ b.statements, s.Proper := by
  intro s hs
  cases s with
  | share tx => trivial
  | vote locator v => exact h.accepts b hb locator v hs
  | voteRange range => exact h.nonempty b hb range hs

theorem next (h : Admissible crypto committee (blocks ++ b :: rest)) {b' : SignedBlock}
    (hb' : b' ∈ blocks) :
    b'.reference ≠ b.reference ∧ ∀ l, b'.VotesOn l → l.block ≠ b.reference := by
  have hdistinct := (List.pairwise_append.mp h.distinct).2.2 b' hb' b List.mem_cons_self
  have hbehind := (List.pairwise_append.mp h.behind).2.2 b' hb' b List.mem_cons_self
  exact ⟨hdistinct, hbehind⟩

end Admissible

open scoped Classical in
theorem votesOf_append {blocks : List SignedBlock} {b : SignedBlock}
    (hnew : ∀ b' ∈ blocks, b'.reference ≠ b.reference ∧ ∀ l, b'.VotesOn l → l.block ≠ b.reference)
    (l : TransactionLocator) :
    votesOf (blocks ++ [b]) l = TransactionAggregator.castVote b.author b.VotesOn (fun l =>
      if l.block = b.reference ∧ b.Shares l.offset then some {b.author} else votesOf blocks l) l := by
  have hsupporters : supporters (blocks ++ [b]) l =
      if b.VotesOn l then insert b.author (supporters blocks l) else supporters blocks l := by
    ext a
    split_ifs with hvotes
    · simp only [mem_supporters, Finset.mem_insert, List.mem_append, List.mem_singleton, or_and_right,
        exists_or, exists_eq_left, hvotes, true_and, eq_comm (a := b.author)]
      exact or_assoc.symm.trans or_comm
    · simp only [mem_supporters, List.mem_append, List.mem_singleton, or_and_right, exists_or,
        exists_eq_left, hvotes, false_and, or_false]
  have hshared : Shared [b] l ↔ l.block = b.reference ∧ b.Shares l.offset := by
    simp [Shared, eq_comm]
  unfold TransactionAggregator.castVote votesOf
  rw [shared_append, hshared, hsupporters]
  by_cases hblock : l.block = b.reference
  · -- the transaction is of the block: there were no votes for it
    have hnone : ¬ Shared blocks l := fun ⟨b', hb', hr, _⟩ => (hnew b' hb').1 (hr.trans hblock)
    have hauthor : supporters blocks l = {b.author} := by
      ext a
      rw [mem_supporters, hblock, Finset.mem_singleton]
      exact or_iff_left fun ⟨b', hb', hvotes, _⟩ => (hnew b' hb').2 l hvotes hblock
    by_cases hshares : b.Shares l.offset
    · simp only [hnone, hblock, hshares, hauthor, and_self, or_true, if_true, Option.map_some]
      split_ifs <;> rfl
    · simp only [hnone, hshares, and_false, or_self, if_false, Option.map_none, ite_self]
  · simp only [hblock, false_and, or_false, if_false]
    split_ifs <;> rfl

namespace TransactionAggregator

variable {crypto : Crypto} {committee : Committee} {t : TransactionAggregator}
  {processed : List TransactionLocator}

theorem tally_new : Tally committee (votesOf []) new [] := by
  refine ⟨fun r m h => (nomatch h), fun l => ?_, List.nodup_nil⟩
  have hnone : ¬ Shared [] l := fun ⟨_, hb, _⟩ => (nomatch hb)
  rw [votesOf, if_neg hnone]
  exact ⟨rfl, nofun⟩

/-- What holds after the blocks that have been processed holds after the rest. -/
theorem Tally.processBlocks {done : List SignedBlock}
    (hsingle : ∀ a, committee.isQuorum (committee.stake a) = false)
    (hblocks : Admissible crypto committee (done ++ blocks))
    (h : Tally committee (votesOf done) t processed) :
    ∃ t' new, t.processBlocks committee blocks = some (t', new) ∧
      Tally committee (votesOf (done ++ blocks)) t' (processed ++ new) := by
  induction blocks generalizing t done processed with
  | nil =>
    rw [List.append_nil]
    exact ⟨t, [], rfl, by rwa [List.append_nil]⟩
  | cons b blocks ih =>
    have hb : b ∈ done ++ b :: blocks := List.mem_append_right _ List.mem_cons_self
    have hnew : ∀ b' ∈ done, b'.reference ≠ b.reference ∧
        ∀ l, b'.VotesOn l → l.block ≠ b.reference := fun b' hb' => hblocks.next hb'
    have hfresh : ∀ l, l.block = b.reference → votesOf done l = none := by
      intro l hl
      rw [votesOf, if_neg fun ⟨b', hb', hr, _⟩ => (hnew b' hb').1 (hr.trans hl)]
    obtain ⟨t₁, new₁, hfirst, ht₁⟩ := h.processBlock
      (SignedBlock.author_of_verify (hblocks.verified b hb)) (hsingle b.author)
      (hblocks.proper hb) hfresh
    have happend : done ++ b :: blocks = (done ++ [b]) ++ blocks := by simp
    rw [happend] at hblocks ⊢
    obtain ⟨t', new, hrest, ht'⟩ := ih hblocks (ht₁.congr (votesOf_append hnew))
    refine ⟨t', new₁ ++ new, ?_, ?_⟩
    · simp only [TransactionAggregator.processBlocks, hfirst, hrest, Option.bind_eq_bind,
        Option.bind_some]
    · rwa [← List.append_assoc]

theorem Tally.mem_iff (h : Tally committee (votesOf blocks) t processed) (l : TransactionLocator) :
    l ∈ processed ↔ Certified committee blocks l := by
  have hsettled := h.settled l
  unfold votesOf at hsettled
  by_cases hshared : Shared blocks l
  · rw [if_pos hshared] at hsettled
    simp only [Settled] at hsettled
    split_ifs at hsettled with hq
    · exact iff_of_true hsettled.2 ⟨hshared, hq⟩
    · exact iff_of_false hsettled.2 fun hc => hq hc.2
  · rw [if_neg hshared] at hsettled
    exact iff_of_false hsettled.2 fun hc => hshared hc.1

/-- The blocks are processed, each transaction at most once, and exactly those that are certified, in
whatever order the blocks are processed. -/
theorem certification_exact (hsingle : ∀ a, committee.isQuorum (committee.stake a) = false)
    (blocks : List SignedBlock) (hblocks : Admissible crypto committee blocks) :
    ∃ t processed, new.processBlocks committee blocks = some (t, processed) ∧ processed.Nodup ∧
      (∀ l, l ∈ processed ↔ Certified committee blocks l) ∧
      ∀ blocks', blocks'.Perm blocks → Admissible crypto committee blocks' →
        ∃ t' processed', new.processBlocks committee blocks' = some (t', processed') ∧
          ∀ l, l ∈ processed' ↔ l ∈ processed := by
  have hrun : ∀ blocks', Admissible crypto committee blocks' →
      ∃ t processed, new.processBlocks committee blocks' = some (t, processed) ∧
        processed.Nodup ∧ ∀ l, l ∈ processed ↔ Certified committee blocks' l := by
    intro blocks' hblocks'
    obtain ⟨t, processed, hp, ht⟩ := tally_new.processBlocks hsingle hblocks'
    exact ⟨t, processed, hp, ht.nodup, ht.mem_iff⟩
  obtain ⟨t, processed, hp, hnodup, hmem⟩ := hrun blocks hblocks
  refine ⟨t, processed, hp, hnodup, hmem, fun blocks' hperm hblocks' => ?_⟩
  obtain ⟨t', processed', hp', -, hmem'⟩ := hrun blocks' hblocks'
  refine ⟨t', processed', hp', fun l => ?_⟩
  rw [hmem', hmem, certified_congr fun b => hperm.mem_iff]

/-! ## Empty ranges -/

theorem fourVoters_single (a : AuthorityIndex) :
    fourVoters.isQuorum (fourVoters.stake a) = false := by
  match a with
  | 0 | 1 | 2 | 3 => rfl
  | a + 4 => rfl

def twoVotes (stop : Nat) : List SignedBlock :=
  [blockOf 0 1 [.share ⟨[]⟩], blockOf 1 2 [.voteRange ⟨⟨0, 1, 0⟩, 0, stop⟩],
    blockOf 2 2 [.voteRange ⟨⟨0, 1, 0⟩, 0, stop⟩]]

theorem twoVotes_behind (stop : Nat) :
    (twoVotes stop).Pairwise fun b b' => ∀ l, b.VotesOn l → l.block ≠ b'.reference := by
  have hshare : ∀ l, ¬ (blockOf 0 1 [.share ⟨[]⟩]).VotesOn l := by
    intro l hl
    obtain ⟨s, hs, hvotes⟩ := hl
    cases List.mem_singleton.mp hs
    exact hvotes
  have hrange : ∀ l, (blockOf 1 2 [.voteRange ⟨⟨0, 1, 0⟩, 0, stop⟩]).VotesOn l →
      l.block = ⟨0, 1, 0⟩ := by
    intro l hl
    obtain ⟨s, hs, hvotes⟩ := hl
    cases List.mem_singleton.mp hs
    exact hvotes.1.symm
  refine .cons (fun b' _ l hl => absurd hl (hshare l)) (.cons (fun b' hb' l hl => ?_)
    (List.pairwise_singleton _ _))
  rw [hrange l hl, List.mem_singleton.mp hb']
  simp [blockOf]

/-- Two authorities that vote for no offset at all are counted for the transaction, which is processed
with the stake of its author alone. -/
theorem empty_ranges_counted :
    (∀ a, fourVoters.isQuorum (fourVoters.stake a) = false) ∧
    (∀ b ∈ twoVotes 0, b.verify plainCrypto fourVoters = .ok ()) ∧
    (∀ b ∈ twoVotes 0, ∀ locator v, BaseStatement.vote locator v ∉ b.statements) ∧
    (twoVotes 0).Pairwise (fun b b' => b.reference ≠ b'.reference) ∧
    (twoVotes 0).Pairwise (fun b b' => ∀ l, b.VotesOn l → l.block ≠ b'.reference) ∧
    (new.processBlocks fourVoters (twoVotes 0)).map Prod.snd = some [⟨⟨0, 1, 0⟩, 0⟩] ∧
    supporters (twoVotes 0) ⟨⟨0, 1, 0⟩, 0⟩ = {0} ∧
    ¬ Certified fourVoters (twoVotes 0) ⟨⟨0, 1, 0⟩, 0⟩ := by
  refine ⟨fourVoters_single, by decide +kernel, ?_, by decide +kernel, twoVotes_behind 0,
    by decide +kernel, by decide +kernel, fun hcertified => ?_⟩
  · intro b hb locator v hmem
    fin_cases hb <;> cases List.mem_singleton.mp hmem
  · have hquorum : fourVoters.isQuorum (fourVoters.getTotalStake
        (supporters (twoVotes 0) ⟨⟨0, 1, 0⟩, 0⟩)) = false := by decide +kernel
    rw [hcertified.2] at hquorum
    cases hquorum

/-- With ranges that hold the offset the transaction is certified and processed. -/
theorem two_votes_certify : ∃ t processed,
    new.processBlocks fourVoters (twoVotes 1) = some (t, processed) ∧
      ⟨⟨0, 1, 0⟩, 0⟩ ∈ processed := by
  have hblocks : Admissible plainCrypto fourVoters (twoVotes 1) := by
    refine ⟨by decide +kernel, ?_, ?_, by decide +kernel, twoVotes_behind 1⟩
    · intro b hb locator v hmem
      fin_cases hb <;> cases List.mem_singleton.mp hmem
    · intro b hb range hmem
      fin_cases hb <;> cases List.mem_singleton.mp hmem <;> decide
  obtain ⟨t, processed, hp, -, hmem, -⟩ := certification_exact fourVoters_single _ hblocks
  refine ⟨t, processed, hp, (hmem _).mpr ⟨⟨_, List.mem_cons_self, rfl, ⟨[]⟩, rfl⟩, ?_⟩⟩
  decide +kernel

end TransactionAggregator

end CongestionControl.Mysticeti
