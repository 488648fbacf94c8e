import CongestionControl.Lib.Transition
import CongestionControl.Mysticeti.Crypto
import CongestionControl.Mysticeti.TransactionAggregator
import CongestionControl.Mysticeti.Proofs.CommitteeProofs
import CongestionControl.Mysticeti.Proofs.RangeMapProofs

/-!
# Counting votes returns

The maps of a reachable aggregator are valid. With such maps a block that passes the checks is processed
if and only if its single votes are for a transaction and their offset has a successor.
-/

namespace CongestionControl.Mysticeti

theorem TransactionLocatorRange.le_of_verify {r : TransactionLocatorRange} (h : r.verify = .ok ()) :
    r.offsetStartInclusive ≤ r.offsetEndExclusive := by
  rw [verify, Except.ite_throw_eq_ok_iff, not_not] at h
  exact h.1

theorem SignedBlock.author_of_verify {crypto : Crypto} {committee : Committee} {b : SignedBlock}
    (h : b.verify crypto committee = .ok ()) : b.author ∈ Finset.range committee.len := by
  simp only [verify, Except.ite_throw_eq_ok_iff, not_not] at h
  exact Committee.knownAuthority_iff.mp h.2.1

theorem SignedBlock.statements_of_verify {crypto : Crypto} {committee : Committee} {b : SignedBlock}
    (h : b.verify crypto committee = .ok ()) : ∀ s ∈ b.statements, s.verify = .ok () := by
  simp only [verify, Except.ite_throw_eq_ok_iff] at h
  obtain ⟨_, _, h⟩ := Except.bind_eq_ok_iff.mp h.2.2.2.2
  obtain ⟨_, hstatements, _⟩ := Except.bind_eq_ok_iff.mp h
  exact Except.forM_eq_ok_iff.mp (Except.mapError_eq_ok_iff.mp hstatements)

def ShareFrom (offset : Nat) (statements : List BaseStatement) (x : Nat) : Prop :=
  offset ≤ x ∧ ∃ tx, statements[x - offset]? = some (.share tx)

theorem shareFrom_cons {offset x : Nat} {statement : BaseStatement} {statements : List BaseStatement} :
    ShareFrom offset (statement :: statements) x ↔
      (x = offset ∧ statement.isShare = true) ∨ ShareFrom (offset + 1) statements x := by
  unfold ShareFrom
  rcases lt_trichotomy x offset with hlt | rfl | hgt
  · have hne : x ≠ offset := hlt.ne
    have hnot : ¬ offset ≤ x := not_le.mpr hlt
    have hnot' : ¬ offset + 1 ≤ x := by omega
    simp only [hne, hnot, hnot', false_and, or_self]
  · cases statement <;> simp [BaseStatement.isShare]
  · have hsub : x - offset = x - (offset + 1) + 1 := by omega
    have hne : x ≠ offset := hgt.ne'
    have hle : offset ≤ x := hgt.le
    have hle' : offset + 1 ≤ x := hgt
    simp only [hsub, hne, hle, hle', true_and, false_and, false_or, List.getElem?_cons_succ]

/-- Ranges in order with gaps between them, none of them empty, that cover exactly the given offsets. -/
structure Ranges (covered : Nat → Prop) (rs : List (Range Nat)) : Prop where
  nonempty : ∀ r ∈ rs, r.start < r.stop
  ordered : rs.Pairwise fun r r' => r.stop < r'.start
  covers : ∀ x, (∃ r ∈ rs, r.start ≤ x ∧ x < r.stop) ↔ covered x

theorem ranges_sharedRangesFrom {statements : List BaseStatement} {offset : Nat}
    {range : Option (Range Nat)} (hrange : ∀ r ∈ range, r.start < r.stop ∧ r.stop ≤ offset) :
    Ranges (fun x => (∃ r ∈ range, r.start ≤ x ∧ x < r.stop) ∨ ShareFrom offset statements x)
      (sharedRangesFrom offset range statements) := by
  induction statements generalizing offset range with
  | nil =>
    have hnone : ∀ x, ¬ ShareFrom offset [] x := fun x ⟨_, _, h⟩ => nomatch h
    simp only [hnone, or_false, sharedRangesFrom]
    cases range with
    | none => exact ⟨nofun, .nil, fun x => by simp⟩
    | some r => exact ⟨fun r' hr' => by simp_all, by simp, fun x => by simp⟩
  | cons statement statements ih =>
    rw [sharedRangesFrom]
    simp only [shareFrom_cons]
    split_ifs with hshare
    · simp only [hshare, and_true]
      match range, hrange with
      | none, _ =>
        have hnext := @ih (offset + 1) (some ⟨offset, offset + 1⟩) (by simp)
        refine ⟨hnext.nonempty, hnext.ordered, fun x => (hnext.covers x).trans ?_⟩
        simp only [Option.mem_def, Option.some.injEq, exists_eq_left', reduceCtorEq, false_and,
          exists_false, false_or]
        refine or_congr_left ?_
        omega
      | some r, hrange =>
        obtain ⟨hlt, hle⟩ := hrange r rfl
        by_cases hstop : r.stop = offset
        · have hnext := @ih (offset + 1) (some ⟨r.start, offset + 1⟩) (by simp; omega)
          simp only [VoteRangeBuilder.add, if_pos hstop, Option.toList_none, List.nil_append]
          refine ⟨hnext.nonempty, hnext.ordered, fun x => (hnext.covers x).trans ?_⟩
          simp only [Option.mem_def, Option.some.injEq, exists_eq_left']
          rw [← or_assoc]
          refine or_congr_left ?_
          omega
        · -- the offset is behind a gap: the range is complete, and a new one begins
          have hnext := @ih (offset + 1) (some ⟨offset, offset + 1⟩) (by simp)
          simp only [VoteRangeBuilder.add, if_neg hstop, Option.toList_some, List.singleton_append]
          refine ⟨List.forall_mem_cons.mpr ⟨hlt, hnext.nonempty⟩,
            List.pairwise_cons.mpr ⟨fun r' hr' => ?_, hnext.ordered⟩, fun x => ?_⟩
          · have hcovered := (hnext.covers r'.start).mp ⟨r', hr', le_rfl, hnext.nonempty r' hr'⟩
            have hgap : r.stop < offset := lt_of_le_of_ne hle hstop
            rcases hcovered with ⟨r'', hr'', hstart, -⟩ | ⟨hstart, -⟩
            · cases hr''
              exact hgap.trans_le hstart
            · omega
          · simp only [List.exists_mem_cons_iff, hnext.covers, Option.mem_def, Option.some.injEq,
              exists_eq_left']
            refine or_congr_right (or_congr_left ?_)
            omega
    · have hnot : ∀ x, ¬ (x = offset ∧ statement.isShare = true) := fun x h => hshare h.2
      simp only [hnot, false_or]
      exact ih fun r hr => ⟨(hrange r hr).1, (hrange r hr).2.trans (Nat.le_succ offset)⟩

def SignedBlock.Shares (b : SignedBlock) (offset : Nat) : Prop :=
  ∃ tx, b.statements[offset]? = some (.share tx)

theorem SignedBlock.ranges_shared (b : SignedBlock) :
    Ranges b.Shares (sharedRangesFrom 0 none b.statements) := by
  have h := @ranges_sharedRangesFrom b.statements 0 none nofun
  refine ⟨h.nonempty, h.ordered, fun x => (h.covers x).trans ?_⟩
  simp [ShareFrom, Shares]

theorem SignedBlock.shares_iff_mem {b : SignedBlock} {x : Nat} :
    b.Shares x ↔ x ∈ b.sharedTransactions.map fun shared => shared.1.offset := by
  simp only [Shares, sharedTransactions, List.mem_map, List.mem_filterMap, Prod.exists,
    List.mk_mem_zipIdx_iff_getElem?]
  constructor
  · rintro ⟨tx, hx⟩
    exact ⟨⟨b.reference, x⟩, tx, ⟨.share tx, x, hx, rfl⟩, rfl⟩
  · rintro ⟨locator, tx, ⟨statement, pos, hpos, hshared⟩, rfl⟩
    cases statement with
    | share _ =>
      cases hshared
      exact ⟨tx, hpos⟩
    | vote locator vote => cases hshared
    | voteRange range => cases hshared

/-- The ranges are the maximal runs of shared transactions. -/
theorem SignedBlock.sharedRanges_exact (b : SignedBlock) :
    (∀ r ∈ b.sharedRanges,
      r.block = b.reference ∧ r.offsetStartInclusive < r.offsetEndExclusive) ∧
    b.sharedRanges.Pairwise (fun r r' => r.offsetEndExclusive < r'.offsetStartInclusive) ∧
    (∀ x, (∃ r ∈ b.sharedRanges, r.offsetStartInclusive ≤ x ∧ x < r.offsetEndExclusive) ↔
      ∃ tx, b.statements[x]? = some (.share tx)) ∧
    ∀ x, (∃ tx, b.statements[x]? = some (.share tx)) ↔
      x ∈ b.sharedTransactions.map fun shared => shared.1.offset := by
  have hranges := b.ranges_shared
  refine ⟨fun r hr => ?_, ?_, fun x => ?_, fun x => shares_iff_mem⟩
  · obtain ⟨range, hrange, rfl⟩ := List.mem_map.mp hr
    exact ⟨rfl, hranges.nonempty range hrange⟩
  · rw [sharedRanges, List.pairwise_map]
    exact hranges.ordered
  · simp only [sharedRanges, List.mem_map, exists_exists_and_eq_and]
    exact hranges.covers x

namespace TransactionAggregator

variable {crypto : Crypto} {committee : Committee} {t t' : TransactionAggregator}
  {a : AuthorityIndex}

def Sound (committee : Committee) (t : TransactionAggregator) : Prop :=
  ∀ r m, t.pending.lookup r = some m →
    m.Valid ∧ ∀ offset agg, m.get offset = some agg → agg.Counts committee

theorem sound_new : Sound committee new := fun _ _ h => nomatch h

section

variable (h : Sound committee t)

include h

theorem Sound.insert {r : BlockReference} {m : RangeMap Nat StakeAggregator}
    (hm : m.Valid ∧ ∀ offset agg, m.get offset = some agg → agg.Counts committee) :
    Sound committee ⟨t.pending.insert r m⟩ := by
  intro r' m' hlookup
  by_cases hr : r' = r
  · subst hr
    rw [Finmap.lookup_insert] at hlookup
    cases hlookup
    exact hm
  · rw [Finmap.lookup_insert_of_ne _ hr] at hlookup
    exact h r' m' hlookup

theorem Sound.erase (r : BlockReference) :
    Sound committee ⟨t.pending.erase r⟩ := by
  intro r' m' hlookup
  by_cases hr : r' = r
  · subst hr
    rw [Finmap.lookup_erase] at hlookup
    cases hlookup
  · rw [Finmap.lookup_erase_ne hr] at hlookup
    exact h r' m' hlookup

theorem Sound.getD (r : BlockReference) :
    ((t.pending.lookup r).getD .empty).Valid ∧ ∀ offset agg,
      ((t.pending.lookup r).getD .empty).get offset = some agg → agg.Counts committee := by
  cases hlookup : t.pending.lookup r with
  | none => exact ⟨RangeMap.valid_empty, fun _ _ h => nomatch h⟩
  | some m => exact h r m hlookup

theorem Sound.register (ha : a ∈ Finset.range committee.len) {range : TransactionLocatorRange}
    (hlt : range.range.start < range.range.stop) :
    ∃ t', t.register committee range a = some t' ∧ Sound committee t' := by
  obtain ⟨hvalid, hcounts⟩ := h.getD range.block
  obtain ⟨agg, hadd, hagg, -⟩ := StakeAggregator.add_eq StakeAggregator.counts_new ha
  have hpiece : ∀ (s : Unit) range v, (∀ agg ∈ v, agg.Counts committee) →
      ∃ s' v', registerItem committee a s range v = some (s', v') ∧
        ∀ agg ∈ v', agg.Counts committee := by
    intro _ range v hv
    cases v with
    | some agg => exact ⟨(), some agg, rfl, hv⟩
    | none =>
      refine ⟨(), some agg, by rw [registerItem, hadd]; rfl, fun agg' hagg' => ?_⟩
      exact Option.some.inj hagg' ▸ hagg
  obtain ⟨_, m, hrun, hm⟩ := hvalid.mutateRange_values hlt hcounts hpiece
  refine ⟨⟨t.pending.insert range.block m⟩, ?_, h.insert hm⟩
  change ((t.pending.lookup range.block).getD .empty).mutateRange _ _ range.range >>= _ = _
  rw [hrun]
  rfl

end

theorem voteItem_some {block : BlockReference} {processed : List TransactionLocator}
    {range : Range Nat} {agg : StakeAggregator} (hagg : agg.Counts committee)
    (ha : a ∈ Finset.range committee.len) :
    ∃ agg', agg'.Counts committee ∧ (∀ x, x ∈ agg'.votes ↔ x = a ∨ x ∈ agg.votes) ∧
      voteItem committee block a processed range (some agg) =
        some (if committee.isQuorum agg'.stake = true
          then (processed ++ (TransactionLocatorRange.new block range).locators, none)
          else (processed, some agg')) := by
  obtain ⟨agg', hadd, hagg', hvotes⟩ := StakeAggregator.add_eq hagg ha
  refine ⟨agg', hagg', hvotes, ?_⟩
  rw [voteItem, hadd]
  rfl

theorem Sound.vote (h : Sound committee t) (ha : a ∈ Finset.range committee.len)
    {range : TransactionLocatorRange} (hle : range.range.start ≤ range.range.stop)
    (processed : List TransactionLocator) :
    ∃ t' processed', t.vote committee range a processed = some (t', processed') ∧
      Sound committee t' := by
  obtain ⟨block, start, stop⟩ := range
  change start ≤ stop at hle
  unfold TransactionAggregator.vote
  cases hlookup : t.pending.lookup block with
  | none => exact ⟨t, processed, rfl, h⟩
  | some m =>
    obtain ⟨hvalid, hcounts⟩ := h block m hlookup
    have hitem : ∀ processed range agg, agg.Counts committee →
        ∃ processed' v, voteItem committee block a processed range (some agg) = some (processed', v) ∧
          ∀ agg ∈ v, agg.Counts committee := by
      intro processed range agg hagg
      obtain ⟨agg', hagg', -, hvote⟩ := voteItem_some hagg ha
      rw [hvote]
      by_cases hq : committee.isQuorum agg'.stake
      · exact ⟨_, none, by rw [if_pos hq], nofun⟩
      · refine ⟨_, some agg', by rw [if_neg hq], fun w hw => ?_⟩
        exact Option.some.inj hw ▸ hagg'
    have hrun : ∃ processed' m', m.mutateRange (voteItem committee block a) processed ⟨start, stop⟩ =
        some (processed', m') ∧ m'.Valid ∧
          ∀ offset agg, m'.get offset = some agg → agg.Counts committee := by
      rcases Nat.lt_or_eq_of_le hle with hlt | rfl
      · refine hvalid.mutateRange_values hlt hcounts fun processed range v hv => ?_
        cases v with
        | none => exact ⟨processed, none, rfl, nofun⟩
        | some agg => exact hitem processed range agg (hv agg rfl)
      · exact hvalid.mutateRange_empty hcounts rfl fun stop => hitem processed ⟨start, stop⟩
    obtain ⟨processed', m', hrun, hm'⟩ := hrun
    change ∃ t' processed', (m.mutateRange _ _ ⟨start, stop⟩ >>= _) = some (t', processed') ∧ _
    rw [hrun]
    refine ⟨_, processed', rfl, ?_⟩
    split_ifs
    · exact h.erase block
    · exact h.insert hm'

end TransactionAggregator

/-- A vote that is for the transaction, at an offset that has a successor. -/
def BaseStatement.Countable : BaseStatement → Prop
  | share _ => True
  | vote locator v => v = .accept ∧ locator.offset + 1 < 2 ^ 64
  | voteRange _ => True

namespace TransactionAggregator

variable {crypto : Crypto} {committee : Committee} {t t' : TransactionAggregator}
  {a : AuthorityIndex}

theorem Sound.processStatement (h : Sound committee t) (ha : a ∈ Finset.range committee.len)
    (processed : List TransactionLocator) {s : BaseStatement} (hs : s.verify = .ok ()) :
    (s.Countable ∧ ∃ acc, processStatement committee a (t, processed) s = some acc ∧
      Sound committee acc.1) ∨
      (¬ s.Countable ∧ processStatement committee a (t, processed) s = none) := by
  cases s with
  | share tx => exact .inl ⟨trivial, (t, processed), rfl, h⟩
  | vote locator v =>
    cases v with
    | reject other => exact .inr ⟨fun hc => (nomatch hc.1), rfl⟩
    | accept =>
      simp only [TransactionAggregator.processStatement, TransactionLocatorRange.one]
      by_cases hlt : locator.offset + 1 < 2 ^ 64
      · rw [if_pos hlt, Option.bind_eq_bind, Option.bind_some]
        have hle := Nat.le_succ locator.offset
        obtain ⟨t', processed', hvote, ht'⟩ :=
          @vote committee t a h ha ⟨locator.block, locator.offset, locator.offset + 1⟩ hle processed
        exact .inl ⟨⟨rfl, hlt⟩, (t', processed'), hvote, ht'⟩
      · rw [if_neg hlt]
        exact .inr ⟨fun hc => hlt hc.2, rfl⟩
  | voteRange range =>
    obtain ⟨t', processed', hvote, ht'⟩ :=
      h.vote ha (TransactionLocatorRange.le_of_verify hs) processed
    exact .inl ⟨trivial, (t', processed'), hvote, ht'⟩

theorem Sound.registerAll (h : Sound committee t) (ha : a ∈ Finset.range committee.len)
    {ranges : List TransactionLocatorRange}
    (hlt : ∀ range ∈ ranges, range.range.start < range.range.stop) :
    ∃ t', ranges.foldlM (fun t range => t.register committee range a) t = some t' ∧
      Sound committee t' := by
  have hstep : ∀ t, ∀ range ∈ ranges, Sound committee t →
      (True ∧ ∃ t', t.register committee range a = some t' ∧ Sound committee t') ∨
        (¬ True ∧ t.register committee range a = none) :=
    fun t range hr ht => .inl ⟨trivial, ht.register ha (hlt range hr)⟩
  rcases Option.foldlM_cases hstep h with ⟨-, hreturns⟩ | ⟨hnot, -⟩
  · exact hreturns
  · exact absurd (fun _ _ => trivial) hnot

theorem sharedRanges_nonempty (b : SignedBlock) :
    ∀ range ∈ b.sharedRanges, range.range.start < range.range.stop := by
  intro range hrange
  obtain ⟨r, hr, rfl⟩ := List.mem_map.mp hrange
  exact b.ranges_shared.nonempty r hr

theorem Sound.processBlock (h : Sound committee t) {b : SignedBlock}
    (hb : b.verify crypto committee = .ok ()) :
    ((∀ s ∈ b.statements, s.Countable) ∧ ∃ acc, t.processBlock committee b = some acc ∧
      Sound committee acc.1) ∨
      ((¬ ∀ s ∈ b.statements, s.Countable) ∧ t.processBlock committee b = none) := by
  have ha := SignedBlock.author_of_verify hb
  obtain ⟨t₁, hregister, ht₁⟩ := h.registerAll ha (sharedRanges_nonempty b)
  rw [TransactionAggregator.processBlock, hregister]
  refine Option.foldlM_cases
   
    (fun acc s hs hacc => ?_) ht₁
  exact hacc.processStatement ha acc.2 (SignedBlock.statements_of_verify hb s hs)

def system (committee : Committee) : Transition.System TransactionAggregator SignedBlock where
  init := new
  next t b := (t.processBlock committee b).map Prod.fst

abbrev Reachable (crypto : Crypto) (committee : Committee) : TransactionAggregator → Prop :=
  Transition.Reach (system committee) fun _ b => b.verify crypto committee = .ok ()

theorem sound_of_reachable (h : Reachable crypto committee t) : Sound committee t := by
  refine h.invariant sound_new fun t b t' ht hb hnext => ?_
  obtain ⟨acc, hp, rfl⟩ := Option.map_eq_some_iff.mp hnext
  rcases ht.processBlock hb with ⟨-, acc', hp', hacc'⟩ | ⟨-, hnone⟩
  · rw [hp] at hp'
    cases hp'
    exact hacc'
  · rw [hp] at hnone
    cases hnone

theorem Sound.stake_lt (h : Sound committee t) {r : BlockReference}
    {m : RangeMap Nat StakeAggregator} (hm : t.pending.lookup r = some m) {offset : Nat}
    {agg : StakeAggregator} (hagg : m.get offset = some agg) : agg.stake < 2 ^ 64 := by
  have hcounts := (h r m hm).2 offset agg hagg
  have hle : agg.stake ≤ committee.totalStake := by
    rw [hcounts.stake, ← committee.sum_stake]
    exact Finset.sum_le_sum_of_subset hcounts.known
  exact hle.trans_lt committee.total_lt

/-- In every reachable state, a block that passes the checks is processed if and only if its single
votes are for the transaction and at offsets that have a successor. -/
theorem processBlock_returns_iff (h : Reachable crypto committee t) (b : SignedBlock)
    (hb : b.verify crypto committee = .ok ()) :
    (∃ t' processed, t.processBlock committee b = some (t', processed) ∧
      ∀ r m offset agg, t'.pending.lookup r = some m → m.get offset = some agg →
        agg.stake < 2 ^ 64) ↔
      ∀ locator v, .vote locator v ∈ b.statements → v = .accept ∧ locator.offset + 1 < 2 ^ 64 := by
  have hcountable : (∀ s ∈ b.statements, s.Countable) ↔
      ∀ locator v, .vote locator v ∈ b.statements → v = .accept ∧ locator.offset + 1 < 2 ^ 64 := by
    refine ⟨fun h locator v hs => h _ hs, fun h s hs => ?_⟩
    cases s with
    | share => trivial
    | vote locator v => exact h locator v hs
    | voteRange => trivial
  rw [← hcountable]
  rcases (sound_of_reachable h).processBlock hb with ⟨hall, acc, hp, hacc⟩ | ⟨hnot, hnone⟩
  · exact iff_of_true ⟨acc.1, acc.2, hp, fun r m offset agg hm => hacc.stake_lt hm⟩ hall
  · refine iff_of_false (fun ⟨t', processed, hp, _⟩ => ?_) hnot
    rw [hnone] at hp
    cases hp

def fourVoters : Committee := .fourEqual

def plainCrypto : Crypto := ⟨fun _ => 0, fun _ _ => [], fun _ _ _ => true⟩

def blockOf (author round : Nat) (statements : List BaseStatement) : SignedBlock where
  reference := ⟨author, round, 0⟩
  includes := (List.range 3).map fun authority => ⟨authority, round - 1, 0⟩
  statements := statements
  metaCreationTimeNs := 0
  epochMarker := false
  signature := []

/-- A vote against a transaction, and a vote at the largest offset, end the program. -/
theorem unprocessable_votes :
    Reachable plainCrypto fourVoters new ∧
    (blockOf 1 2 [.vote ⟨⟨0, 1, 0⟩, 0⟩ (.reject none)]).verify plainCrypto fourVoters = .ok () ∧
    new.processBlock fourVoters (blockOf 1 2 [.vote ⟨⟨0, 1, 0⟩, 0⟩ (.reject none)]) = none ∧
    (blockOf 1 2 [.vote ⟨⟨0, 1, 0⟩, 2 ^ 64 - 1⟩ .accept]).verify plainCrypto fourVoters = .ok () ∧
    new.processBlock fourVoters (blockOf 1 2 [.vote ⟨⟨0, 1, 0⟩, 2 ^ 64 - 1⟩ .accept]) = none :=
  ⟨.init, by decide +kernel, rfl, by decide +kernel, rfl⟩

theorem share_processed : ∃ t processed,
    new.processBlock fourVoters (blockOf 0 1 [.share ⟨[]⟩]) = some (t, processed) := by
  have hverify : (blockOf 0 1 [.share ⟨[]⟩]).verify plainCrypto fourVoters = .ok () := by
    decide +kernel
  have hvotes : ∀ locator v, BaseStatement.vote locator v ∈ (blockOf 0 1 [.share ⟨[]⟩]).statements →
      v = .accept ∧ locator.offset + 1 < 2 ^ 64 := by
    intro locator v hmem
    cases List.mem_singleton.mp hmem
  have hnew : Reachable plainCrypto fourVoters new := .init
  obtain ⟨t, processed, hp, -⟩ := (processBlock_returns_iff hnew _ hverify).mpr hvotes
  exact ⟨t, processed, hp⟩

end TransactionAggregator

end CongestionControl.Mysticeti
