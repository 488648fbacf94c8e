import CongestionControl.Mysticeti.MachineCommittee
import CongestionControl.Mysticeti.Proofs.CommitteeProofs

/-!
# Quorums in machine arithmetic

A committee that `Committee::new` accepts has the stakes and thresholds of the model over natural
numbers. Twice a total stake of `2 ^ 63` or more wraps around: two quorums then intersect in a valid set
only if one authority outweighs the others so far that it is in each of them.
-/

namespace CongestionControl.Mysticeti.Machine

open Finset (range)

variable {total : UInt64} {stakes : List UInt64} {v : AuthorityIndex} {set : AuthoritySet}

theorem checkedAdd_eq_some {a b : UInt64} (h : checkedAdd a b = some total) :
    a.toNat + b.toNat < 2 ^ 64 ∧ total.toNat = a.toNat + b.toNat := by
  unfold checkedAdd at h
  split_ifs at h with hlt
  obtain rfl := Option.some.inj h
  exact ⟨hlt, (UInt64.toNat_add a b).trans (Nat.mod_eq_of_lt hlt)⟩

theorem foldlM_checkedAdd {acc : UInt64} (h : stakes.foldlM checkedAdd acc = some total) :
    acc.toNat + (stakes.map UInt64.toNat).sum < 2 ^ 64 ∧
      total.toNat = acc.toNat + (stakes.map UInt64.toNat).sum := by
  induction stakes generalizing acc with
  | nil =>
    obtain rfl : acc = total := Option.some.inj h
    exact ⟨acc.toNat_lt, rfl⟩
  | cons stake stakes ih =>
    obtain ⟨next, hnext, hrest⟩ := Option.bind_eq_some_iff.mp h
    obtain ⟨-, hsum⟩ := checkedAdd_eq_some hnext
    obtain ⟨hlt, htotal⟩ := ih hrest
    rw [hsum] at hlt htotal
    rw [List.map_cons, List.sum_cons, ← Nat.add_assoc]
    exact ⟨hlt, htotal⟩

structure Represents (c : Committee) (m : Mysticeti.Committee) : Prop where
  authorities : m.authorities = c.authorities.map UInt64.toNat
  validity : c.validityThreshold.toNat = m.validityThreshold
  quorum : c.quorumThreshold.toNat = m.quorumThreshold

theorem represents_of_new {c : Committee} (h : Committee.new stakes = some c) :
    c.authorities = stakes ∧ ∃ m, Represents c m := by
  unfold Committee.new at h
  split_ifs at h with hempty hzero hlength
  obtain ⟨total, htotal, hc⟩ := Option.bind_eq_some_iff.mp h
  obtain rfl := Option.some.inj hc
  obtain ⟨hlt, hsum⟩ := foldlM_checkedAdd htotal
  have hzeroNat : (0 : UInt64).toNat + (stakes.map UInt64.toNat).sum =
      (stakes.map UInt64.toNat).sum := Nat.zero_add _
  rw [hzeroNat] at hlt hsum
  have hpositive : ∀ stake ∈ stakes.map UInt64.toNat, 0 < stake := by
    intro stake hstake
    obtain ⟨stake, hmem, rfl⟩ := List.mem_map.mp hstake
    refine Nat.pos_of_ne_zero fun hzero' => hzero (List.any_eq_true.mpr ⟨stake, hmem, ?_⟩)
    exact decide_eq_true (UInt64.toNat_inj.mp hzero')
  have hnonempty : stakes.map UInt64.toNat ≠ [] := by
    rw [ne_eq, List.map_eq_nil_iff, ← List.isEmpty_iff]
    exact hempty
  have hle : (stakes.map UInt64.toNat).length ≤ 128 := by
    rw [List.length_map]
    exact Nat.not_lt.mp hlength
  refine ⟨rfl, ⟨stakes.map UInt64.toNat, hnonempty, hpositive, hle, hlt⟩, rfl, ?_, ?_⟩
  · rw [UInt64.toNat_div, hsum]
    rfl
  · rw [UInt64.toNat_div, UInt64.toNat_mul, hsum]
    rfl

variable {c : Committee} {m : Mysticeti.Committee} {s t : Finset AuthorityIndex}
  {amount : UInt64} {a : AuthorityIndex}

namespace Represents

section

variable (h : Represents c m)

include h

theorem len_eq : c.len = m.len := by
  unfold Committee.len Mysticeti.Committee.len
  rw [h.authorities, List.length_map]

theorem isValid_eq : c.isValid amount = m.isValid amount.toNat := by
  unfold Committee.isValid Mysticeti.Committee.isValid
  rw [decide_eq_decide, UInt64.lt_iff_toNat_lt, h.validity]

theorem isQuorum_eq : c.isQuorum amount = m.isQuorum amount.toNat := by
  unfold Committee.isQuorum Mysticeti.Committee.isQuorum
  rw [decide_eq_decide, UInt64.lt_iff_toNat_lt, h.quorum]

theorem stake_eq (a : AuthorityIndex) :
    ((c.getStake a).getD 0).toNat = m.stake a := by
  unfold Committee.getStake Mysticeti.Committee.stake Mysticeti.Committee.getStake
  rw [h.authorities, List.getElem?_map]
  cases c.authorities[a]? with
  | none => rfl
  | some stake => rfl

theorem getTotalStake_eq (hs : s ⊆ range m.len) :
    (c.getTotalStake s).toNat = m.getTotalStake s := by
  induction s using Finset.induction_on with
  | empty => rfl
  | insert a s ha ih =>
    have hle : m.getTotalStake (insert a s) ≤ m.totalStake := by
      rw [← m.sum_stake]
      exact Finset.sum_le_sum_of_subset hs
    have hsum : m.getTotalStake (insert a s) = m.stake a + m.getTotalStake s := Finset.sum_insert ha
    have hc : c.getTotalStake (insert a s) = (c.getStake a).getD 0 + c.getTotalStake s :=
      Finset.sum_insert ha
    rw [hc, UInt64.toNat_add, h.stake_eq, ih ((Finset.subset_insert a s).trans hs), ← hsum]
    exact Nat.mod_eq_of_lt (hle.trans_lt m.total_lt)

end

end Represents

theorem totalStake_pos (m : Mysticeti.Committee) : 0 < m.totalStake := by
  obtain ⟨stake, stakes, hstakes⟩ := List.exists_cons_of_ne_nil m.nonempty
  have hpos := m.positive stake (by rw [hstakes]; exact List.mem_cons_self)
  unfold Mysticeti.Committee.totalStake
  rw [hstakes]
  exact Nat.add_pos_left hpos _

theorem two_thirds_cases {total threshold : Nat} (htotal : total < 2 ^ 64)
    (hthreshold : threshold = 2 * total % 2 ^ 64 / 3) :
    total < 2 ^ 63 ∧ threshold = 2 * total / 3 ∨
      2 ^ 63 ≤ total ∧ 3 * threshold < total ∧
        ∀ stake, stake ≤ total →
          (total ≤ stake + threshold ↔ 2 ^ 64 + 3 * (total - stake) ≤ 2 * total) := by
  rcases Nat.lt_or_ge total (2 ^ 63) with hlt | hge
  · exact .inl ⟨hlt, by omega⟩
  · exact .inr ⟨hge, by omega, fun stake hstake => by omega⟩

theorem quorumThreshold_lt (m : Mysticeti.Committee) : m.quorumThreshold < m.totalStake := by
  have hlt (total threshold : Nat) (hpos : 0 < total) (htotal : total < 2 ^ 64)
      (hthreshold : threshold = 2 * total % 2 ^ 64 / 3) : threshold < total := by omega
  exact hlt _ _ (totalStake_pos m) m.total_lt rfl

/-- All quorums intersect in valid sets if the product does not wrap around or if one authority is in
every quorum. -/
theorem intersecting_iff (m : Mysticeti.Committee) :
    Quorum.Intersecting m.stake (range m.len) m.quorumThreshold ↔
      m.totalStake < 2 ^ 63 ∨
        ∃ a ∈ range m.len, 2 ^ 64 + 3 * (m.totalStake - m.stake a) ≤ 2 * m.totalStake := by
  have hthreshold : m.quorumThreshold = 2 * m.totalStake % 2 ^ 64 / 3 := rfl
  rcases two_thirds_cases m.total_lt hthreshold with
    ⟨hsmall, hplain⟩ | ⟨hlarge, hthird, hdominant⟩
  · refine iff_of_true ?_ (.inl hsmall)
    rw [hplain, ← Mysticeti.Committee.totalStake, ← m.sum_stake]
    exact Quorum.intersecting_quorums
  · have hnot : ¬ m.totalStake < 2 ^ 63 := Nat.not_lt.mpr hlarge
    rw [or_iff_right hnot, Quorum.intersecting_iff_dominant (hthird.trans_eq m.sum_stake.symm)]
    refine exists_congr fun a => and_congr_right fun ha => ?_
    have hle : m.stake a ≤ m.totalStake := by
      rw [← m.sum_stake]
      exact Finset.single_le_sum (fun _ _ => Nat.zero_le _) ha
    rw [Quorum.Dominant, m.sum_stake]
    exact hdominant _ hle

theorem bit_eq (hv : v < 128) : AuthoritySet.bit v = BitVec.twoPow 128 v := by
  unfold AuthoritySet.bit
  rw [Nat.mod_eq_of_lt hv, BitVec.twoPow_eq]

theorem bit_ne_zero (hv : v < 128) : AuthoritySet.bit v ≠ 0#128 := by
  intro hzero
  have hbit := congrArg (·.getLsbD v) hzero
  rw [bit_eq hv] at hbit
  simp [hv] at hbit

theorem and_bit_eq (hv : v < 128) (bits : BitVec 128) :
    bits &&& AuthoritySet.bit v = if bits.getLsbD v then AuthoritySet.bit v else 0#128 := by
  rw [bit_eq hv, BitVec.and_twoPow]

theorem and_bit_eq_iff (hv : v < 128) (bits : BitVec 128) :
    bits &&& AuthoritySet.bit v = AuthoritySet.bit v ↔ bits.getLsbD v = true := by
  rw [and_bit_eq hv]
  split_ifs with hbit
  · exact iff_of_true rfl hbit
  · exact iff_of_false (bit_ne_zero hv).symm hbit

theorem mem_present :
    v ∈ set.present ↔ v < 128 ∧ set.bits.getLsbD v = true := by
  unfold AuthoritySet.present
  rw [List.mem_filter, List.mem_range]
  refine and_congr_right fun hv => ?_
  rw [decide_eq_true_iff, and_bit_eq hv]
  split_ifs with hbit
  · exact iff_of_true (bit_ne_zero hv) hbit
  · exact iff_of_false (not_not.mpr rfl) hbit

def AuthoritySet.Has (set : AuthoritySet) (s : Finset AuthorityIndex) : Prop :=
  ∀ v, v ∈ set.present ↔ v ∈ s

theorem has_empty : AuthoritySet.empty.Has ∅ := by
  intro v
  rw [mem_present]
  simp [AuthoritySet.empty]

theorem AuthoritySet.Has.insert (h : set.Has s) (ha : a < 128) :
    (set.insert a).1 = decide (a ∉ s) ∧ (set.insert a).2.Has (Insert.insert a s) := by
  have hmem : set.bits &&& AuthoritySet.bit a = AuthoritySet.bit a ↔ a ∈ s := by
    rw [and_bit_eq_iff ha, ← h a, mem_present, and_iff_right ha]
  unfold AuthoritySet.insert
  by_cases has : a ∈ s
  · rw [if_pos (hmem.mpr has), Finset.insert_eq_of_mem has]
    exact ⟨(decide_eq_false (not_not.mpr has)).symm, h⟩
  · rw [if_neg (mt hmem.mp has)]
    refine ⟨(decide_eq_true has).symm, fun v => ?_⟩
    rw [mem_present, Finset.mem_insert, ← h v, mem_present, BitVec.getLsbD_or, bit_eq ha,
      BitVec.getLsbD_twoPow, Bool.or_eq_true, Bool.and_eq_true, decide_eq_true_iff,
      decide_eq_true_iff]
    constructor
    · rintro ⟨hv, hbit | ⟨-, rfl⟩⟩
      · exact .inr ⟨hv, hbit⟩
      · exact .inl rfl
    · rintro (rfl | ⟨hv, hbit⟩)
      · exact ⟨ha, .inr ⟨ha, rfl⟩⟩
      · exact ⟨hv, .inl hbit⟩

namespace StakeAggregator

variable {agg : StakeAggregator}

structure Counted (c : Committee) (agg : StakeAggregator) (s : Finset AuthorityIndex) : Prop where
  votes : agg.votes.Has s
  stake : agg.stake = c.getTotalStake s

theorem counted_new : Counted c new ∅ := ⟨has_empty, rfl⟩

theorem Counted.add (h : Counted c agg s) (th : Threshold) (hlen : c.len ≤ 128) (ha : a < c.len) :
    ∃ agg', agg.add th a c = some (agg', th.isThreshold c (c.getTotalStake (insert a s))) ∧
      Counted c agg' (insert a s) := by
  have hstake : c.getStake a = some ((c.getStake a).getD 0) := by
    have hlt : a < c.authorities.length := ha
    simp [Committee.getStake, hlt]
  obtain ⟨hnew, hvotes⟩ := h.votes.insert (ha.trans_le hlen)
  have hsum : (if (agg.votes.insert a).1 then agg.stake + (c.getStake a).getD 0 else agg.stake) =
      c.getTotalStake (insert a s) := by
    rw [hnew, h.stake]
    by_cases has : a ∈ s
    · rw [if_neg (by simpa using has), Finset.insert_eq_of_mem has]
    · have hinsert : c.getTotalStake (insert a s) = (c.getStake a).getD 0 + c.getTotalStake s :=
        Finset.sum_insert has
      rw [if_pos (by simpa using has), hinsert, add_comm]
  refine ⟨⟨(agg.votes.insert a).2, c.getTotalStake (insert a s)⟩, ?_, hvotes, rfl⟩
  unfold StakeAggregator.add
  rw [hstake]
  simp only [Option.bind_eq_bind, Option.bind_some, hsum]

theorem counted_calls (th : Threshold) (hlen : c.len ≤ 128) {calls : List Call}
    (hknown : ∀ v, .add v ∈ calls → v < c.len) :
    ∃ agg, calls.foldlM (call th c) new = some agg ∧ Counted c agg (sinceClear calls) := by
  induction calls using List.reverseRecOn with
  | nil => exact ⟨new, rfl, counted_new⟩
  | append_singleton calls last ih =>
    obtain ⟨agg, hrun, hagg⟩ := ih fun v hv => hknown v (List.mem_append_left _ hv)
    rw [List.foldlM_append, hrun]
    unfold sinceClear at hagg ⊢
    rw [List.foldl_append]
    cases last with
    | clear => exact ⟨agg.clear, rfl, counted_new⟩
    | add vote =>
      have hvote : vote < c.len := hknown vote (List.mem_append_right _ List.mem_cons_self)
      obtain ⟨agg', hadd, hagg'⟩ := hagg.add th hlen hvote
      refine ⟨agg', ?_, hagg'⟩
      simp only [Option.bind_eq_bind, Option.bind_some, List.foldlM_cons, List.foldlM_nil, call, hadd,
        Option.map_some, Option.pure_def]

end StakeAggregator

/-- Each two quorums have authorities in common whose stake is valid. -/
def Committee.QuorumsIntersect (c : Committee) : Prop :=
  ∀ s ⊆ range c.len, ∀ t ⊆ range c.len, c.isQuorum (c.getTotalStake s) = true →
    c.isQuorum (c.getTotalStake t) = true → c.isValid (c.getTotalStake (s ∩ t)) = true

/-- After any calls, the flag of `add` says whether the authorities added since the last `clear`
reach the threshold. -/
def Committee.FlagsExact (c : Committee) : Prop :=
  ∀ (th : Threshold) (calls : List StakeAggregator.Call) (vote : AuthorityIndex),
    (∀ v, .add v ∈ calls ++ [.add vote] → v < c.len) →
    ∃ agg agg', calls.foldlM (StakeAggregator.call th c) .new = some agg ∧
      agg.add th vote c = some (agg', th.isThreshold c
        (c.getTotalStake (StakeAggregator.sinceClear (calls ++ [.add vote]))))

theorem flagsExact (hlen : c.len ≤ 128) : c.FlagsExact := by
  intro th calls vote hknown
  obtain ⟨agg, hrun, hagg⟩ := StakeAggregator.counted_calls th hlen
    fun v hv => hknown v (List.mem_append_left _ hv)
  have hvote : vote < c.len := hknown vote (List.mem_append_right _ List.mem_cons_self)
  obtain ⟨agg', hflag, -⟩ := hagg.add th hlen hvote
  refine ⟨agg, agg', hrun, ?_⟩
  unfold StakeAggregator.sinceClear at hflag ⊢
  rw [List.foldl_append]
  exact hflag

namespace Represents

theorem isQuorum_all (h : Represents c m) :
    c.isQuorum (c.getTotalStake (range c.len)) = true := by
  rw [h.isQuorum_eq, h.len_eq, h.getTotalStake_eq subset_rfl]
  exact decide_eq_true ((quorumThreshold_lt m).trans_eq m.sum_stake.symm)

theorem quorumsIntersect_iff (h : Represents c m) :
    c.QuorumsIntersect ↔ Quorum.Intersecting m.stake (range m.len) m.quorumThreshold := by
  unfold Committee.QuorumsIntersect Quorum.Intersecting
  rw [h.len_eq]
  refine forall₂_congr fun s hs => forall₂_congr fun t ht => ?_
  have hst : s ∩ t ⊆ range m.len := Finset.inter_subset_left.trans hs
  rw [h.isQuorum_eq, h.isQuorum_eq, h.isValid_eq, h.getTotalStake_eq hs, h.getTotalStake_eq ht,
    h.getTotalStake_eq hst, Mysticeti.Committee.isValid_iff, m.sum_stake]
  unfold Mysticeti.Committee.isQuorum
  rw [decide_eq_true_iff, decide_eq_true_iff]
  rfl

theorem exists_authority_iff (h : Represents c m) {P : Nat → Prop} :
    (∃ a ∈ range m.len, P (m.stake a)) ↔ ∃ stake ∈ c.authorities, P stake.toNat := by
  have hstake {a : AuthorityIndex} (ha : a < c.authorities.length) :
      m.stake a = c.authorities[a].toNat := by
    rw [← h.stake_eq, Committee.getStake, List.getElem?_eq_getElem ha]
    rfl
  rw [← h.len_eq]
  constructor
  · rintro ⟨a, ha, hP⟩
    have hlt : a < c.authorities.length := Finset.mem_range.mp ha
    rw [hstake hlt] at hP
    exact ⟨_, List.getElem_mem hlt, hP⟩
  · rintro ⟨stake, hmem, hP⟩
    obtain ⟨a, hlt, rfl⟩ := List.mem_iff_getElem.mp hmem
    rw [← hstake hlt] at hP
    exact ⟨a, Finset.mem_range.mpr hlt, hP⟩

end Represents

/-- For a committee that `Committee::new` accepts, all authorities together are a quorum and the flags
of aggregators are exact. Each two quorums intersect in a valid set if and only if the total stake is
below `2 ^ 63` or there is an authority such that three times the stake of the others is at most what
twice the total exceeds `2 ^ 64` by. -/
theorem quorums_intersect_iff {stakes : List UInt64} {c : Committee}
    (h : Committee.new stakes = some c) :
    (c.QuorumsIntersect ∧ c.isQuorum (c.getTotalStake (range c.len)) = true ∧ c.FlagsExact) ↔
      (stakes.map UInt64.toNat).sum < 2 ^ 63 ∨ ∃ stake ∈ stakes,
        2 ^ 64 + 3 * ((stakes.map UInt64.toNat).sum - stake.toNat) ≤
          2 * (stakes.map UInt64.toNat).sum := by
  obtain ⟨hstakes, m, hm⟩ := represents_of_new h
  have htotal : (stakes.map UInt64.toNat).sum = m.totalStake := by
    rw [← hstakes, ← hm.authorities]
    rfl
  have hlen : c.len ≤ 128 := hm.len_eq.trans_le m.length_le
  have hrest : c.isQuorum (c.getTotalStake (range c.len)) = true ∧ c.FlagsExact :=
    ⟨hm.isQuorum_all, flagsExact hlen⟩
  rw [and_iff_left hrest, hm.quorumsIntersect_iff, intersecting_iff, htotal, ← hstakes]
  refine or_congr_right (hm.exists_authority_iff
    (P := fun stake => 2 ^ 64 + 3 * (m.totalStake - stake) ≤ 2 * m.totalStake))

theorem equalStakes_intersect : ∃ c, Committee.new [1, 1, 1, 1] = some c ∧ c.QuorumsIntersect ∧
    c.isQuorum (c.getTotalStake (range c.len)) = true ∧ c.FlagsExact := by
  have hnew : Committee.new [1, 1, 1, 1] = some ⟨[1, 1, 1, 1], 1, 2⟩ := by decide
  exact ⟨_, hnew, (quorums_intersect_iff hnew).mpr (.inl (by decide))⟩

/-- Each of two authorities with the stake `2 ^ 62` is a quorum by itself: twice the total stake wraps
around to 0. -/
theorem halves_disjoint_quorums : ∃ c, Committee.new [2 ^ 62, 2 ^ 62] = some c ∧
    ¬ c.QuorumsIntersect := by
  refine ⟨⟨[2 ^ 62, 2 ^ 62], 2 ^ 63 / 3, 0⟩, by decide +kernel, fun h => ?_⟩
  have hvalid := h {0} (by decide) {1} (by decide) (by decide +kernel) (by decide +kernel)
  revert hvalid
  decide +kernel

end CongestionControl.Mysticeti.Machine
