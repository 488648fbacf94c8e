import CongestionControl.Lib.Fallible
import CongestionControl.Lib.Quorum
import CongestionControl.Mysticeti.ThresholdClock
import Mathlib.Algebra.BigOperators.Fin

/-!
# Counting stake

The loops with a stake aggregator decide whether the authorities with a property hold a quorum. A
block passes the checks if and only if its includes are of known authorities and lower rounds, and a
quorum of authorities is included from the round before.
-/

namespace CongestionControl.Mysticeti

namespace Committee

variable {committee : Committee} {P Q : AuthorityIndex → Prop} {amount : Stake} {a : AuthorityIndex}

def fourEqual : Committee := ⟨[1, 1, 1, 1], by decide, by decide, by decide, by decide⟩

def HasQuorum (committee : Committee) (P : AuthorityIndex → Prop) : Prop :=
  Quorum.Holds committee.stake (Finset.range committee.len) P

theorem HasQuorum.mono (h : committee.HasQuorum P) (hPQ : ∀ a, P a → Q a) : committee.HasQuorum Q :=
  Quorum.Exceeds.mono h hPQ

theorem sum_stake (committee : Committee) :
    ∑ a ∈ Finset.range committee.len, committee.stake a = committee.totalStake := by
  unfold totalStake len
  rw [Finset.sum_range, ← Fin.sum_univ_getElem]
  simp [stake, getStake]

theorem isValid_iff : committee.isValid amount = true ↔ committee.totalStake / 3 < amount :=
  decide_eq_true_iff

/-- The product does not wrap around if the total stake is below `2 ^ 63`. -/
theorem isQuorum_iff (htotal : committee.totalStake < 2 ^ 63) :
    committee.isQuorum amount = true ↔ 2 * committee.totalStake / 3 < amount := by
  have hmod : 2 * committee.totalStake % 2 ^ 64 = 2 * committee.totalStake :=
    Nat.mod_eq_of_lt (((Nat.mul_lt_mul_left Nat.two_pos).mpr htotal).trans_eq rfl)
  rw [isQuorum, quorumThreshold, hmod, decide_eq_true_iff]

/-- Two quorums share an authority without a property that only sets below the validity threshold
have. -/
theorem HasQuorum.exists_correct {F : AuthorityIndex → Prop} (hP : committee.HasQuorum P)
    (hQ : committee.HasQuorum Q)
    (hF : ∀ authorities : Finset AuthorityIndex, (∀ a ∈ authorities, F a) →
      committee.isValid (committee.getTotalStake authorities) = false) :
    ∃ a ∈ Finset.range committee.len, P a ∧ Q a ∧ ¬ F a := by
  refine Quorum.Holds.exists_correct hP hQ ?_
  rintro ⟨authorities, -, hall, hlt⟩
  rw [committee.sum_stake] at hlt
  have hvalid := isValid_iff.mpr hlt
  rw [← getTotalStake, hF authorities hall] at hvalid
  cases hvalid

theorem knownAuthority_iff :
    committee.knownAuthority a = true ↔ a ∈ Finset.range committee.len := by
  rw [Finset.mem_range, knownAuthority, decide_eq_true_iff]

theorem getStake_eq (ha : a ∈ Finset.range committee.len) :
    committee.getStake a = some (committee.stake a) := by
  have hlt : a < committee.authorities.length := Finset.mem_range.mp ha
  simp [stake, getStake, hlt]

end Committee

namespace StakeAggregator

variable {committee : Committee} {agg : StakeAggregator} {a : AuthorityIndex}

/-- The aggregator holds the stake of its votes. -/
structure Counts (committee : Committee) (agg : StakeAggregator) : Prop where
  known : agg.votes ⊆ Finset.range committee.len
  stake : agg.stake = ∑ a ∈ agg.votes, committee.stake a

theorem counts_new : Counts committee new := ⟨Finset.empty_subset _, rfl⟩

theorem Counts.isQuorum_iff (h : Counts committee agg) (htotal : committee.totalStake < 2 ^ 63) :
    committee.isQuorum agg.stake = true ↔ committee.HasQuorum (· ∈ agg.votes) := by
  unfold Committee.HasQuorum Quorum.Holds
  rw [Committee.isQuorum_iff htotal, h.stake, committee.sum_stake,
    Quorum.exceeds_iff_of_mem h.known fun _ _ => Iff.rfl]

theorem add_eq (h : Counts committee agg) (ha : a ∈ Finset.range committee.len) :
    ∃ agg', agg.add a committee = some (agg', committee.isQuorum agg'.stake) ∧
      Counts committee agg' ∧ ∀ x, x ∈ agg'.votes ↔ x = a ∨ x ∈ agg.votes := by
  unfold add
  rw [Committee.getStake_eq ha]
  refine ⟨_, rfl, ?_⟩
  by_cases hmem : a ∈ agg.votes
  · rw [if_pos hmem]
    exact ⟨h, fun x => (or_iff_right_of_imp fun hx => hx ▸ hmem).symm⟩
  · rw [if_neg hmem]
    refine ⟨⟨Finset.insert_subset ha h.known, ?_⟩, fun x => Finset.mem_insert⟩
    rw [Finset.sum_insert hmem, h.stake, Nat.add_comm]

section Loop

variable {α : Type} {test : α → Option Bool} {P : α → Prop} {authority : α → AuthorityIndex}
  {xs : List α}

theorem reachesQuorum_from (htotal : committee.totalStake < 2 ^ 63)
    (htest : ∀ x ∈ xs, Computes (test x) (P x))
    (hknown : ∀ x ∈ xs, P x → authority x ∈ Finset.range committee.len)
    (hagg : Counts committee agg) (hnot : ¬ committee.HasQuorum (· ∈ agg.votes)) :
    Computes (reachesQuorum committee test authority agg xs)
      (committee.HasQuorum fun a => a ∈ agg.votes ∨ ∃ x ∈ xs, P x ∧ authority x = a) := by
  induction xs generalizing agg with
  | nil => exact ⟨false, rfl, by simpa using hnot⟩
  | cons x xs ih =>
    have htest' : ∀ y ∈ xs, Computes (test y) (P y) := fun y hy => htest y (List.mem_cons_of_mem x hy)
    have hknown' : ∀ y ∈ xs, P y → authority y ∈ Finset.range committee.len :=
      fun y hy => hknown y (List.mem_cons_of_mem x hy)
    obtain ⟨r, hr, hx⟩ := htest x List.mem_cons_self
    rw [reachesQuorum, hr]
    cases r with
    | false =>
      have hP : ¬ P x := fun hP => Bool.false_ne_true (hx.mpr hP)
      refine (ih htest' hknown' hagg hnot).congr ?_
      simp [hP]
    | true =>
      have hP := hx.mp rfl
      obtain ⟨agg', hadd, hagg', hvotes⟩ := add_eq hagg (hknown x List.mem_cons_self hP)
      rw [hadd]
      change Computes (if committee.isQuorum agg'.stake then some true else
        reachesQuorum committee test authority agg' xs) _
      have hset : ∀ a, (a ∈ agg.votes ∨ ∃ y ∈ x :: xs, P y ∧ authority y = a) ↔
          a ∈ agg'.votes ∨ ∃ y ∈ xs, P y ∧ authority y = a := by
        simp only [hvotes, List.exists_mem_cons_iff, hP, true_and]
        tauto
      simp only [hset]
      split_ifs with hq
      · have hquorum := (hagg'.isQuorum_iff htotal).mp hq
        exact .some_iff (iff_of_true rfl (hquorum.mono fun a ha => .inl ha))
      · exact ih htest' hknown' hagg' (fun h => hq ((hagg'.isQuorum_iff htotal).mpr h))

theorem not_hasQuorum_empty : ¬ committee.HasQuorum fun _ => False := by
  intro h
  obtain ⟨_, _, h⟩ := Quorum.Exceeds.exists_member h
  exact h

/-- The loop decides whether the authors of the items that pass the test hold a quorum. -/
theorem reachesQuorum_computes (htotal : committee.totalStake < 2 ^ 63)
    (htest : ∀ x ∈ xs, Computes (test x) (P x))
    (hknown : ∀ x ∈ xs, P x → authority x ∈ Finset.range committee.len) :
    Computes (reachesQuorum committee test authority new xs)
      (committee.HasQuorum fun a => ∃ x ∈ xs, P x ∧ authority x = a) := by
  refine (reachesQuorum_from htotal htest hknown counts_new ?_).congr ?_
  · exact fun h => not_hasQuorum_empty (h.mono fun a ha => Finset.notMem_empty a ha)
  · simp [new]

end Loop

end StakeAggregator

section Verify

variable {committee : Committee} {b : StatementBlock} {is : List BlockReference}

theorem aggregateIncludes_eq (round : RoundNumber)
    (hknown : ∀ i ∈ is, i.authority ∈ Finset.range committee.len) {agg : StakeAggregator}
    (hagg : agg.Counts committee) :
    ∃ agg', is.foldlM (aggregateInclude committee round) (agg, committee.isQuorum agg.stake) =
        some (agg', committee.isQuorum agg'.stake) ∧ agg'.Counts committee ∧
      ∀ a, a ∈ agg'.votes ↔ a ∈ agg.votes ∨ ∃ i ∈ is, i.round = round - 1 ∧ i.authority = a := by
  induction is generalizing agg with
  | nil => exact ⟨agg, rfl, hagg, by simp⟩
  | cons i is ih =>
    rw [List.foldlM_cons, aggregateInclude]
    have hknown' : ∀ j ∈ is, j.authority ∈ Finset.range committee.len :=
      fun j hj => hknown j (List.mem_cons_of_mem i hj)
    split_ifs with hround
    · obtain ⟨agg₁, hadd, hagg₁, hvotes₁⟩ :=
        StakeAggregator.add_eq hagg (hknown i List.mem_cons_self)
      obtain ⟨agg', heq, hagg', hvotes⟩ := ih hknown' hagg₁
      refine ⟨agg', ?_, hagg', fun a => ?_⟩
      · rw [hadd]
        exact heq
      · simp only [hvotes, hvotes₁, List.exists_mem_cons_iff, hround, true_and]
        tauto
    · obtain ⟨agg', heq, hagg', hvotes⟩ := ih hknown' hagg
      refine ⟨agg', heq, hagg', fun a => ?_⟩
      simp only [hvotes, List.exists_mem_cons_iff, hround, false_and, false_or]

theorem thresholdClock_computes (htotal : committee.totalStake < 2 ^ 63) (hround : b.round ≠ 0)
    (hknown : ∀ i ∈ b.includes, i.authority ∈ Finset.range committee.len)
    (hlower : ∀ i ∈ b.includes, i.round < b.round) :
    Computes (thresholdClockValidNonGenesis b committee)
      (committee.HasQuorum fun a => ∃ i ∈ b.includes, i.round + 1 = b.round ∧ i.authority = a) := by
  have hany : ¬ (b.includes.any fun reference => decide (b.round ≤ reference.round)) = true := by
    rw [List.any_eq_true]
    rintro ⟨i, hi, hle⟩
    exact Nat.not_le.mpr (hlower i hi) (of_decide_eq_true hle)
  have hzero : committee.isQuorum StakeAggregator.new.stake = false := rfl
  obtain ⟨agg, heq, hagg, hvotes⟩ :=
    aggregateIncludes_eq b.round hknown StakeAggregator.counts_new
  rw [thresholdClockValidNonGenesis, if_neg hround, if_neg hany, ← hzero, heq]
  refine .some_iff ((hagg.isQuorum_iff htotal).trans ?_)
  have hset : ∀ a, a ∈ agg.votes ↔
      ∃ i ∈ b.includes, i.round + 1 = b.round ∧ i.authority = a := by
    intro a
    rw [hvotes]
    refine (or_iff_right (Finset.notMem_empty a)).trans (exists_congr fun i => ?_)
    have hpred (k r : Nat) (hr : r ≠ 0) : k = r - 1 ↔ k + 1 = r := by omega
    rw [hpred _ _ hround]
  simp only [hset]

theorem verifyInclude_iff {i : BlockReference} :
    b.verifyInclude committee i = .ok () ↔
      i.authority ∈ Finset.range committee.len ∧ i.round < b.round := by
  rw [StatementBlock.verifyInclude, Except.ite_throw_eq_ok_iff, Except.ite_throw_eq_ok_iff, not_not,
    not_not, Committee.knownAuthority_iff]
  exact and_congr_right fun _ => and_iff_left rfl

theorem verifyIncludes_iff :
    is.forM (b.verifyInclude committee) = .ok () ↔
      ∀ i ∈ is, i.authority ∈ Finset.range committee.len ∧ i.round < b.round :=
  Except.forM_eq_ok_iff.trans (forall₂_congr fun _ _ => verifyInclude_iff)

structure Verified (committee : Committee) (b : StatementBlock) : Prop where
  author : b.author ∈ Finset.range committee.len
  round : b.round ≠ 0
  known : ∀ i ∈ b.includes, i.authority ∈ Finset.range committee.len
  lower : ∀ i ∈ b.includes, i.round < b.round
  quorum : committee.HasQuorum fun a => ∃ i ∈ b.includes, i.round + 1 = b.round ∧ i.authority = a

theorem verify_iff (htotal : committee.totalStake < 2 ^ 63) :
    b.verify committee = .ok () ↔ Verified committee b := by
  rw [StatementBlock.verify, Except.ite_throw_eq_ok_iff, Except.ite_throw_eq_ok_iff, not_not,
    Committee.knownAuthority_iff]
  constructor
  · rintro ⟨hauthor, hround, h⟩
    obtain ⟨_, hincludes, hclock⟩ := Except.bind_eq_ok_iff.mp h
    have hknown := fun i hi => (verifyIncludes_iff.mp hincludes i hi).1
    have hlower := fun i hi => (verifyIncludes_iff.mp hincludes i hi).2
    exact ⟨hauthor, hround, hknown, hlower, (thresholdClock_computes htotal hround hknown
      hlower).eq_true_iff.mp (Except.ite_pure_eq_ok_iff.mp hclock)⟩
  · intro h
    refine ⟨h.author, h.round, Except.bind_eq_ok_iff.mpr ⟨(), ?_, Except.ite_pure_eq_ok_iff.mpr ?_⟩⟩
    · exact verifyIncludes_iff.mpr fun i hi => ⟨h.known i hi, h.lower i hi⟩
    · exact (thresholdClock_computes htotal h.round h.known h.lower).eq_true_iff.mpr h.quorum

end Verify

end CongestionControl.Mysticeti
