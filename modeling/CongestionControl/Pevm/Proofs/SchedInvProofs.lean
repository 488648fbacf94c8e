import CongestionControl.Pevm.EngineInv
import CongestionControl.Pevm.Proofs.SchedulerProofs

/-!
# Proofs: the calls on the scheduler keep its bookkeeping

One lemma for each way a call can end, with the role its worker has afterwards.
-/

namespace CongestionControl.Pevm

open Function (update update_eq_self update_idem update_of_ne update_self)
open Transition Scheduler

variable {ω : Type} {n : Nat} {s s' : Scheduler} {role : ω → Role} {i : TxIdx} {x : TxStatus}
  {r : Poll} {w : ω} {v : TxVersion} {flags : FinishExecFlags} {task : Option Task}

theorem Scheduler.finished_of_update {j : TxIdx}
    (hs : s'.transactionsStatus = update s.transactionsStatus i x) (he : x.status ≠ .executed)
    (hv : x.status ≠ .validated) (h : s'.Finished j) :
    j ≠ i ∧ s.Finished j := by
  by_cases hj : j = i
  · subst hj
    simp only [Finished, hs, update_self] at h
    exact absurd h (not_or.mpr ⟨he, hv⟩)
  · simp only [Finished, hs, update_of_ne hj] at h
    exact ⟨hj, h⟩

theorem Scheduler.countValidated_congr
    (h : ∀ i, (s'.transactionsStatus i).status = .validated ↔
      (s.transactionsStatus i).status = .validated) : s'.countValidated n = s.countValidated n :=
  count_congr fun i _ => h i

theorem Scheduler.countValidated_gain (hi : i < n)
    (hs : s'.transactionsStatus = update s.transactionsStatus i x) (hx : x.status = .validated)
    (hn : (s.transactionsStatus i).status ≠ .validated) :
    s'.countValidated n = s.countValidated n + 1 := by
  refine count_gain hi hn (by simp only [hs, update_self]; exact hx) fun j hj => ?_
  rw [hs, update_of_ne hj]

theorem Scheduler.countValidated_update
    (hs : s'.transactionsStatus = update s.transactionsStatus i x) (hx : x.status ≠ .validated)
    (hn : (s.transactionsStatus i).status ≠ .validated) :
    s'.countValidated n = s.countValidated n := by
  refine countValidated_congr fun j => ?_
  by_cases hj : j = i
  · subst hj; rw [hs, update_self]; exact iff_of_false hx hn
  · rw [hs, update_of_ne hj]

theorem SchedInv.new (role : ω → Role) (hr : ∀ w, role w = .free) :
    SchedInv n (Scheduler.new n) role where
  blockSize := rfl
  cycle :=
    { life :=
        { exec_status := fun h => by rw [hr] at h; cases h
          exec_unique := fun h => by rw [hr] at h; cases h
          abort_status := fun h => by rw [hr] at h; cases h
          abort_unique := fun h => by rw [hr] at h; cases h
          dep_status := fun h => by cases h
          dep_nodup := fun _ => List.nodup_nil
          dep_unique := fun h => by cases h
          dep_free := fun h => by cases h }
      owned := fun i => OwnedAt.of_status (by simp [Scheduler.new]) (by simp [Scheduler.new]) }
  dep_lt := fun h => by cases h
  dep_wait := fun h => by cases h
  ready := fun _ _ => Nat.zero_le _
  count := (count_eq_zero fun i _ h => by cases h).symm
  min := fun h => by rcases h with h | h <;> cases h

def pollRole : Poll → Role
  | .done (some (.execution v)) => .executing v
  | _ => .free

theorem Scheduler.PollOutcome.status_cases (h : PollOutcome s s' r) :
    (s'.transactionsStatus = s.transactionsStatus ∧ pollRole r = .free) ∨
    ∃ v, r = .done (some (.execution v)) ∧
      s.transactionsStatus v.txIdx = ⟨v.txIncarnation, .readyToExecute⟩ ∧
      s'.transactionsStatus = update s.transactionsStatus v.txIdx ⟨v.txIncarnation, .executing⟩ := by
  match r with
  | .again => exact .inl ⟨h, rfl⟩
  | .done none => exact .inl ⟨h.1, rfl⟩
  | .done (some (.execution v)) => exact .inr ⟨v, rfl, h.2.1, h.2.2⟩
  | .done (some (.validation v)) => exact .inl ⟨h.1, rfl⟩

theorem Scheduler.PollOutcome.finished_iff (h : PollOutcome s s' r) (i : TxIdx) :
    s'.Finished i ↔ s.Finished i := by
  rcases h.status_cases with ⟨hs, -⟩ | ⟨v, -, hr, hs⟩
  · simp only [Finished, hs]
  · by_cases hi : i = v.txIdx
    · subst hi; simp [Finished, hs, hr]
    · simp only [Finished, hs, update_of_ne hi]

theorem SchedInv.poll [DecidableEq ω] (h : SchedInv n s role) (hp : PollSpec s s' r)
    (hw : role w = .free) : SchedInv n s' (update role w (pollRole r)) where
  blockSize := hp.blockSize.trans h.blockSize
  cycle := by
    rw [hp.dependents]
    rcases hp.outcome.status_cases with ⟨hs, hr⟩ | ⟨v, rfl, hr, hs⟩
    · rw [hs, hr, ← hw, update_eq_self]
      exact h.cycle
    · rw [hs]
      exact h.cycle.issue hw hr
  dep_lt := by rw [hp.dependents]; exact h.dep_lt
  dep_wait := by
    rw [hp.dependents]
    intro b i hb hf
    exact h.dep_wait hb ((hp.outcome.finished_iff b).mp hf)
  ready := by
    intro i hi hr
    have hold : (s.transactionsStatus i).status = .readyToExecute := by
      rcases hp.outcome.status_cases with ⟨hs, -⟩ | ⟨v, -, -, hs⟩
      · rwa [hs] at hr
      · by_cases hv : i = v.txIdx
        · subst hv; rw [hs, update_self] at hr; cases hr
        · rwa [hs, update_of_ne hv] at hr
    by_contra hlt
    exact hp.execution_skip i (h.ready hi hold) (by omega) (by rw [h.blockSize]; exact hi) hr
  count := by
    rw [hp.numValidated, h.count]
    rcases hp.outcome.status_cases with ⟨hs, -⟩ | ⟨v, -, hr, hs⟩
    · simp only [countValidated, hs]
    · exact (countValidated_update hs (by simp) (by rw [hr]; simp)).symm
  min := by
    intro i hf
    rw [hp.minValidation]
    exact h.min ((hp.outcome.finished_iff i).mp hf)

theorem SchedInv.wait [DecidableEq ω] (h : SchedInv n s role) {b : TxIdx}
    (hw : role w = .executing v) (hb : ¬ s.Finished b) (hlt : b < v.txIdx) (hn : v.txIdx < n) :
    SchedInv n { s with
      transactionsStatus := update s.transactionsStatus v.txIdx
        { s.transactionsStatus v.txIdx with status := .aborting }
      transactionsDependents := update s.transactionsDependents b
        (s.transactionsDependents b ++ [v.txIdx]) } (update role w .free) where
  blockSize := h.blockSize
  cycle := h.cycle.wait hw b
  dep_lt := by
    intro b' i hi
    rcases mem_update_append hi with hi | ⟨rfl, rfl⟩
    · exact h.dep_lt hi
    · exact ⟨hlt, hn⟩
  dep_wait := by
    intro b' i hi hf
    have hf' := (finished_of_update rfl (by simp) (by simp) hf).2
    rcases mem_update_append hi with hi | ⟨rfl, -⟩
    · exact h.dep_wait hi hf'
    · exact hb hf'
  ready := by
    intro i hi hr
    by_cases hv : i = v.txIdx
    · subst hv; simp at hr
    · exact h.ready hi (by simpa [update_of_ne hv] using hr)
  count := by
    refine h.count.trans (countValidated_update rfl (by simp) ?_).symm
    rw [h.cycle.life.exec_status hw]
    simp
  min := fun hf => h.min (finished_of_update rfl (by simp) (by simp) hf).2

/-- The status of another transaction after `finish_execution`: unchanged, or ready if it waited. -/
theorem Scheduler.FinishSpec.status_other (hf : FinishSpec s s' v flags task) (hi : i ≠ v.txIdx) :
    s'.transactionsStatus i =
      resumed s.transactionsStatus (s.transactionsDependents v.txIdx) i := by
  rw [hf.status, update_of_ne hi]

theorem Scheduler.FinishSpec.finished (hf : FinishSpec s s' v flags task) (h : s'.Finished i) :
    i = v.txIdx ∨ (i ∉ s.transactionsDependents v.txIdx ∧ s.Finished i) := by
  by_cases hi : i = v.txIdx
  · exact .inl hi
  · simp only [Finished, hf.status_other hi, resumed] at h
    by_cases hd : i ∈ s.transactionsDependents v.txIdx
    · simp [hd] at h
    · simp only [hd, if_false] at h
      exact .inr ⟨hd, h⟩

section

variable (h : SchedInv n s role)

include h

theorem SchedInv.finish [DecidableEq ω] (hw : role w = .executing v)
    (hf : FinishSpec s s' v flags task) : SchedInv n s' (update role w .free) where
  blockSize := hf.blockSize.trans h.blockSize
  cycle := by
    rw [hf.status, hf.dependents]
    exact (h.cycle.drain v.txIdx).finish hw (by simp) (by simp)
  dep_lt := by
    rw [hf.dependents]
    intro b i hi
    by_cases hb : b = v.txIdx
    · subst hb; simp at hi
    · rw [update_of_ne hb] at hi
      exact h.dep_lt hi
  dep_wait := by
    rw [hf.dependents]
    intro b i hi hfin
    by_cases hb : b = v.txIdx
    · subst hb; simp at hi
    · rw [update_of_ne hb] at hi
      exact h.dep_wait hi ((hf.finished hfin).resolve_left hb).2
  ready := by
    intro i hi hr
    by_cases hv : i = v.txIdx
    · subst hv; rw [hf.status, update_self] at hr; cases hr
    rw [hf.status_other hv, resumed] at hr
    by_cases hd : i ∈ s.transactionsDependents v.txIdx
    · exact hf.execution_dep i hd
    · rw [if_neg hd] at hr
      exact hf.execution_le.trans (h.ready hi hr)
  count := by
    rw [hf.numValidated, h.count]
    refine countValidated_congr fun i => ?_
    by_cases hv : i = v.txIdx
    · subst hv
      rw [hf.status, h.cycle.life.exec_status hw]
      simp
    rw [hf.status_other hv, resumed]
    by_cases hd : i ∈ s.transactionsDependents v.txIdx
    · simp [hd, h.cycle.life.dep_status hd]
    · simp [hd]
  min := by
    intro i hfin
    rw [hf.minValidation]
    rcases hf.finished hfin with rfl | ⟨-, hold⟩
    · exact Nat.min_le_right _ _
    · exact (Nat.min_le_left _ _).trans (h.min hold)

theorem SchedInv.abort [DecidableEq ω] {k : Nat} (hw : role w = .free) (hfin : s.Finished i)
    (hn : i < n) (hk : ((s.transactionsStatus i).status = .executed ∧ k = s.numValidated) ∨
      ((s.transactionsStatus i).status = .validated ∧ k = s.numValidated - 1)) :
    SchedInv n { s with
      transactionsStatus := update s.transactionsStatus i
        { s.transactionsStatus i with status := .aborting }
      numValidated := k } (update role w (.aborting i)) where
  blockSize := h.blockSize
  cycle := by
    refine h.cycle.abort hw ?_ ?_ <;> rcases hfin with hx | hx <;> rw [hx] <;> simp
  dep_lt := h.dep_lt
  dep_wait := fun hi hf => h.dep_wait hi (finished_of_update rfl (by simp) (by simp) hf).2
  ready := by
    intro j hj hr
    by_cases hv : j = i
    · subst hv; simp at hr
    · exact h.ready hj (by simpa [update_of_ne hv] using hr)
  count := by
    rcases hk with ⟨hx, rfl⟩ | ⟨hx, rfl⟩
    · exact h.count.trans (countValidated_update rfl (by simp) (by rw [hx]; simp)).symm
    · -- Undoing the abort would gain one validated transaction.
      have hgain : s.countValidated n = countValidated { s with
          transactionsStatus := update s.transactionsStatus i
            { s.transactionsStatus i with status := .aborting }
          numValidated := s.numValidated - 1 } n + 1 :=
        countValidated_gain hn (by simp) hx (by simp)
      rw [← h.count] at hgain
      exact Nat.sub_eq_of_eq_add hgain
  min := fun hf => h.min (finished_of_update rfl (by simp) (by simp) hf).2

theorem SchedInv.release [DecidableEq ω] (hw : role w = .aborting i) (he : s.executionIdx ≤ i) :
    SchedInv n (s.readied i) (update role w .free) where
  blockSize := h.blockSize
  cycle := h.cycle.release hw (by simp) (by simp)
  dep_lt := h.dep_lt
  dep_wait := fun hi hf => h.dep_wait hi
    (finished_of_update (s := s) rfl (by simp) (by simp) hf).2
  ready := by
    intro j hj hr
    by_cases hv : j = i
    · subst hv; exact he
    · exact h.ready hj (by
        simpa [readied, setReadyStatus, lowerValidation, setStatus, update_of_ne hv]
          using hr)
  count := by
    refine h.count.trans (countValidated_update rfl (by simp) ?_).symm
    rw [h.cycle.life.abort_status hw]
    simp
  min := fun hf => h.min (finished_of_update rfl (by simp) (by simp) hf).2

/-- An aborted transaction that the execution index has passed is issued by the same call. -/
theorem SchedInv.reissue [DecidableEq ω] (hw : role w = .aborting i) :
    SchedInv n (s.reissued i)
      (update role w (.executing ⟨i, (s.transactionsStatus i).incarnation + 1⟩)) where
  blockSize := h.blockSize
  cycle := by
    have hready := h.cycle.release hw
      (x := ⟨(s.transactionsStatus i).incarnation + 1, .readyToExecute⟩) (by simp) (by simp)
    have hissue := hready.issue (w := w) (v := ⟨i, (s.transactionsStatus i).incarnation + 1⟩)
      (by simp) (by simp)
    rw [update_idem _ _ role] at hissue
    exact hissue
  dep_lt := h.dep_lt
  dep_wait := fun hi hf => by
    obtain ⟨-, hf'⟩ := finished_of_update rfl (by simp) (by simp) hf
    exact h.dep_wait hi (finished_of_update rfl (by simp) (by simp) hf').2
  ready := by
    intro j hj hr
    by_cases hv : j = i
    · subst hv; simp [reissued, setStatus] at hr
    · exact h.ready hj (by
        simpa [reissued, readied, setReadyStatus, lowerValidation, setStatus, update_of_ne hv]
          using hr)
  count := by
    refine h.count.trans (countValidated_congr fun j => ?_).symm
    by_cases hv : j = i
    · subst hv
      simp [reissued, setStatus, h.cycle.life.abort_status hw]
    · simp [reissued, readied, setReadyStatus, lowerValidation, setStatus, update_of_ne hv]
  min := fun hf => by
    obtain ⟨-, hf'⟩ := finished_of_update rfl (by simp) (by simp) hf
    exact h.min (finished_of_update rfl (by simp) (by simp) hf').2

theorem SchedInv.confirm (hx : (s.transactionsStatus i).status = .executed) (hn : i < n) :
    SchedInv n { s with
      transactionsStatus := update s.transactionsStatus i
        { s.transactionsStatus i with status := .validated }
      numValidated := s.numValidated + 1 } role := by
  have hfin : ∀ {j}, Finished { s with
      transactionsStatus := update s.transactionsStatus i
        { s.transactionsStatus i with status := .validated }
      numValidated := s.numValidated + 1 } j → s.Finished j := by
    intro j hj
    by_cases hv : j = i
    · subst hv; exact .inl hx
    · simpa only [Finished, update_of_ne hv] using hj
  exact
    { blockSize := h.blockSize
      cycle := h.cycle.settle (by rw [hx]; simp) (by rw [hx]; simp) (by simp) (by simp)
      dep_lt := h.dep_lt
      dep_wait := fun hi hf => h.dep_wait hi (hfin hf)
      ready := by
        intro j hj hr
        by_cases hv : j = i
        · subst hv; simp at hr
        · exact h.ready hj (by simpa [update_of_ne hv] using hr)
      count := by
        rw [countValidated_gain hn rfl rfl (by rw [hx]; simp), ← h.count]
      min := fun hf => h.min (hfin hf) }

end

end CongestionControl.Pevm
