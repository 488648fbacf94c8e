import CongestionControl.Mysticeti.EpochClose
import CongestionControl.Mysticeti.Proofs.CommitteeProofs

/-!
# The epoch never closes

No call makes the status `SafeToClose`. From the call on with which a quorum has signalled the end of
the epoch, each marked block that is observed stores a closing time, and committing goes on.
-/

namespace CongestionControl.Mysticeti

variable {committee : Committee} {calls pre : List EpochCall} {c : EpochCall}

theorem not_signalled_nil : ¬ Signalled committee [] := by
  simp [Signalled, signallers, Committee.getTotalStake, Committee.isQuorum]

theorem mem_signallers_concat {a : AuthorityIndex} :
    a ∈ signallers (calls ++ [c]) ↔ c.signaller = some a ∨ a ∈ signallers calls := by
  simp [signallers, or_comm]

theorem Signalled.mono (h : Signalled committee pre) (hpre : pre <+: calls) :
    Signalled committee calls := by
  have hsub : signallers pre ⊆ signallers calls := by
    intro a
    simp only [signallers, List.mem_toFinset]
    exact fun ha => (hpre.sublist.filterMap EpochCall.signaller).subset ha
  refine decide_eq_true ((of_decide_eq_true h).trans_le ?_)
  exact Finset.sum_le_sum_of_subset hsub

namespace TimedEpochManager

variable {e : TimedEpochManager}

theorem observeCommittedBlock_manager (block : SignedBlock) (timestampUtc : Nat) :
    (e.observeCommittedBlock committee block timestampUtc).map toEpochManager =
      e.toEpochManager.observeCommittedBlock committee block := by
  unfold observeCommittedBlock EpochManager.observeCommittedBlock
  by_cases hmarked : block.epochChanged
  · rw [if_pos hmarked, if_pos hmarked]
    rcases e.changeAggregator.add block.author committee with _ | ⟨agg, isQuorum⟩
    · rfl
    · cases isQuorum <;> cases e.epochStatus <;> simp
  · rw [if_neg hmarked, if_neg hmarked, Option.map_some]

structure Inv (committee : Committee) (calls : List EpochCall) (e : TimedEpochManager) : Prop where
  status : .epochChangeBegun ∈ calls ∧ e.epochStatus = .beginChange ∨
    .epochChangeBegun ∉ calls ∧ e.epochStatus = .opened
  counts : e.changeAggregator.Counts committee
  votes : e.changeAggregator.votes = signallers calls

theorem inv_new : Inv committee [] new := ⟨.inr ⟨List.not_mem_nil, rfl⟩, StakeAggregator.counts_new, rfl⟩

section

variable (h : Inv committee calls e)

include h

theorem Inv.isQuorum_iff :
    committee.isQuorum e.changeAggregator.stake = true ↔ Signalled committee calls := by
  rw [h.counts.stake, h.votes]
  exact Iff.rfl

theorem Inv.not_closed : e.closed = false := by
  rcases h.status with ⟨-, hstatus⟩ | ⟨-, hstatus⟩ <;> simp [EpochManager.closed, hstatus]

theorem Inv.changing_iff :
    e.changing = true ↔ .epochChangeBegun ∈ calls := by
  rcases h.status with ⟨hbegun, hstatus⟩ | ⟨hbegun, hstatus⟩ <;>
    simp [EpochManager.changing, hstatus, hbegun]

/-- A call returns, and only a marked block that is observed when a quorum has signalled stores a
time. -/
theorem Inv.call (hknown : ∀ a ∈ c.signaller, a ∈ Finset.range committee.len)
    (hbegun : Signalled committee (calls ++ [c]) → .epochChangeBegun ∈ calls ++ [c]) :
    ∃ e', e.call committee c = some e' ∧ Inv committee (calls ++ [c]) e' ∧
      (¬ Signalled committee (calls ++ [c]) → e'.closeTimes = e.closeTimes) := by
  cases c with
  | epochChangeBegun =>
    have hsame : signallers (calls ++ [.epochChangeBegun]) = signallers calls := by
      ext a
      simp [mem_signallers_concat, EpochCall.signaller]
    have hmem : EpochCall.epochChangeBegun ∈ calls ++ [.epochChangeBegun] := by simp
    rcases h.status with ⟨-, hstatus⟩ | ⟨-, hstatus⟩
    · refine ⟨_, rfl, ?_, fun _ => rfl⟩
      simp only [EpochManager.epochChangeBegun, hstatus]
      exact ⟨.inl ⟨hmem, hstatus⟩, h.counts, h.votes.trans hsame.symm⟩
    · refine ⟨_, rfl, ?_, fun _ => rfl⟩
      simp only [EpochManager.epochChangeBegun, hstatus]
      exact ⟨.inl ⟨hmem, rfl⟩, h.counts, h.votes.trans hsame.symm⟩
  | observeCommittedBlock block timestampUtc =>
    have hmem : EpochCall.epochChangeBegun ∈ calls ++ [.observeCommittedBlock block timestampUtc] ↔
        .epochChangeBegun ∈ calls := by simp
    rw [hmem] at hbegun
    by_cases hmarked : block.epochChanged
    · obtain ⟨agg, hadd, hcounts, hvotes⟩ := StakeAggregator.add_eq h.counts
        (hknown block.author (by simp [EpochCall.signaller, hmarked]))
      have hinv : Inv committee (calls ++ [.observeCommittedBlock block timestampUtc])
          { e with changeAggregator := agg } := by
        refine ⟨?_, hcounts, ?_⟩
        · simpa only [hmem] using h.status
        · ext a
          rw [hvotes, mem_signallers_concat, h.votes]
          simp [EpochCall.signaller, hmarked, eq_comm]
      have hquorum := hinv.isQuorum_iff
      simp only [TimedEpochManager.call, observeCommittedBlock, hmarked, if_true, hadd,
        Option.bind_eq_bind, Option.bind_some]
      by_cases hsignalled :
          Signalled committee (calls ++ [.observeCommittedBlock block timestampUtc])
      · have hstatus : e.epochStatus = .beginChange :=
          (h.status.resolve_right fun hnot => hnot.1 (hbegun hsignalled)).2
        rw [if_pos ⟨hquorum.mpr hsignalled, by simp [hstatus]⟩, if_pos hstatus]
        exact ⟨_, rfl, ⟨hinv.status, hinv.counts, hinv.votes⟩, fun hnot => absurd hsignalled hnot⟩
      · rw [if_neg fun hif => hsignalled (hquorum.mp hif.1)]
        exact ⟨_, rfl, hinv, fun _ => rfl⟩
    · refine ⟨e, by simp [TimedEpochManager.call, observeCommittedBlock, hmarked], ⟨?_, h.counts, ?_⟩,
        fun _ => rfl⟩
      · simpa only [hmem] using h.status
      · ext a
        simp [mem_signallers_concat, EpochCall.signaller, hmarked, h.votes]

end

theorem run_concat : run committee (calls ++ [c]) =
    (run committee calls).bind fun e => e.call committee c := by
  simp [run, List.foldlM_append]

theorem exists_run
    (hknown : ∀ call ∈ calls, ∀ a ∈ call.signaller, a ∈ Finset.range committee.len)
    (hbegun : BegunInTime committee calls) :
    ∃ e, run committee calls = some e ∧ Inv committee calls e := by
  induction calls using List.reverseRecOn with
  | nil => exact ⟨new, rfl, inv_new⟩
  | append_singleton calls call ih =>
    obtain ⟨e, he, hinv⟩ := ih (fun call' hmem => hknown call' (List.mem_append_left _ hmem))
      fun pre hpre => hbegun pre (hpre.trans (List.prefix_append _ _))
    obtain ⟨e', he', hinv', -⟩ := hinv.call (hknown call (by simp)) (hbegun _ List.prefix_rfl)
    exact ⟨e', by rw [run_concat, he]; exact he', hinv'⟩

end TimedEpochManager

theorem closesExactly_iff
    (hknown : ∀ call ∈ calls, ∀ a ∈ call.signaller, a ∈ Finset.range committee.len)
    (hbegun : BegunInTime committee calls) :
    ClosesExactly committee calls ↔ ¬ Signalled committee calls := by
  constructor
  · intro h hsignalled
    rcases List.eq_nil_or_concat' calls with rfl | ⟨pre, call, rfl⟩
    · exact not_signalled_nil hsignalled
    · obtain ⟨e, e', he, he', hclosed, -⟩ := h pre call List.prefix_rfl
      obtain ⟨e'', he'', hinv⟩ := TimedEpochManager.exists_run hknown hbegun
      rw [TimedEpochManager.run_concat, he, Option.bind_some, he'] at he''
      cases he''
      rw [hinv.not_closed] at hclosed
      exact absurd (hclosed.mpr hsignalled) Bool.false_ne_true
  · intro hnot pre call hpre
    have hnot' : ¬ Signalled committee (pre ++ [call]) := fun h => hnot (h.mono hpre)
    have hpre' : pre <+: calls := (List.prefix_append pre [call]).trans hpre
    obtain ⟨e, he, hinv⟩ := TimedEpochManager.exists_run
      (fun call' hmem => hknown call' (hpre'.subset hmem))
      fun pre' h => hbegun pre' (h.trans hpre')
    obtain ⟨e', he', hinv', htimes⟩ := hinv.call
      (hknown call (hpre.subset (by simp))) (hbegun _ hpre)
    refine ⟨e, e', he, he', ?_, ?_, fun hchanging => ?_, fun cfg core ready timeNs _ h => absurd h hnot'⟩
    · rw [hinv'.not_closed]
      exact iff_of_false Bool.false_ne_true hnot'
    · rw [if_neg fun h => hnot' h.2, List.append_nil, htimes hnot']
    · exact hinv'.changing_iff.mpr (List.mem_append_left _ (hinv.changing_iff.mp hchanging))

theorem begunInTime_cons : BegunInTime committee (.epochChangeBegun :: calls) := by
  intro pre hpre hsignalled
  rcases List.prefix_cons_iff.mp hpre with rfl | ⟨pre', rfl, -⟩
  · exact absurd hsignalled not_signalled_nil
  · exact List.mem_cons_self

def markedBlock (author : AuthorityIndex) : SignedBlock := ⟨⟨⟨author, 1, 0⟩, []⟩, [], 0, true, []⟩

def signals (authors : List AuthorityIndex) : List EpochCall :=
  .epochChangeBegun :: authors.map fun a => .observeCommittedBlock (markedBlock a) (10 * a)

theorem threeSignals_not_closed :
    BegunInTime .fourEqual (signals [0, 1, 2, 3]) ∧ Signalled .fourEqual (signals [0, 1, 2]) ∧
    ((TimedEpochManager.run .fourEqual (signals [0, 1, 2, 3])).map fun e => (e.closed, e.closeTimes)) =
      some (false, [20, 30]) :=
  ⟨begunInTime_cons, rfl, by decide⟩

theorem twoSignals_not_closed : ClosesExactly .fourEqual (signals [0, 1]) :=
  (closesExactly_iff (by decide) begunInTime_cons).mpr (by decide)

end CongestionControl.Mysticeti
