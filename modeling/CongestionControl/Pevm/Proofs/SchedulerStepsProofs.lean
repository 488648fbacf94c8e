import CongestionControl.Pevm.SchedulerSteps
import CongestionControl.Pevm.Proofs.LifecycleProofs

/-!
# Proofs: the bookkeeping of the scheduler under any interleaving

`StepInv` is kept by every atomic operation and every locked section: a status changes only in the hands
of the worker that holds its lock, or while the lock is free.
-/

namespace CongestionControl.Pevm

open Function (update update_eq_self update_eq_self_iff update_of_ne update_self)
open Transition Mutex LockedScheduler

variable {ω : Type} {n : Nat} {g g' : LockedScheduler} {points : ω → Point} {w : ω} {l : Point}
  {i : TxIdx} {v : TxVersion}

/-! ## Counting -/

theorem Point.Lags.lock (h : l.Lags i) : l.lock = some i := by
  cases l <;> first | exact congrArg some h | exact h.elim

theorem Point.Marks.lock (h : l.Marks i) : l.lock = some i := by
  cases l <;> first | exact congrArg some h | exact h.elim

variable [DecidableEq ω]

theorem counted_update : Counted g' (update points w l) i ↔
    ((g'.transactionsStatus i).status = .validated ∧ ¬ l.Lags i) ∧
      ¬ ∃ w', w' ≠ w ∧ (points w').Lags i := by
  unfold Counted
  rw [exists_update, not_or, and_assoc]

theorem counted_split (w : ω) : Counted g points i ↔
    ((g.transactionsStatus i).status = .validated ∧ ¬ (points w).Lags i) ∧
      ¬ ∃ w', w' ≠ w ∧ (points w').Lags i := by
  unfold Counted
  rw [exists_split w, not_or, and_assoc]

theorem StepInv.count_keep (h : StepInv n g points) (hnum : g'.numValidated = g.numValidated)
    (hkeep : ∀ i, ((g'.transactionsStatus i).status = .validated ∧ ¬ l.Lags i) ↔
      ((g.transactionsStatus i).status = .validated ∧ ¬ (points w).Lags i)) :
    g'.numValidated = Nat.count (Counted g' (update points w l)) n := by
  rw [hnum, h.count]
  exact count_congr fun i _ => by rw [counted_update, counted_split w, hkeep i]

omit [DecidableEq ω] in
theorem StepInv.no_other_lags (h : StepInv n g points) {i : TxIdx}
    (hlock : (points w).lock = some i) : ¬ ∃ w', w' ≠ w ∧ (points w').Lags i := by
  rintro ⟨w', hne, hlag⟩
  exact hne (h.locks.unique hlag.lock hlock)

/-! ## Moving one worker -/

theorem StepInv.move (h : StepInv n g points) (hsize : g'.blockSize = g.blockSize)
    (hcycle : LifeCycle g'.transactionsStatus g'.transactionsDependents
      (update (fun w => (points w).role) w l.role))
    (hissue : IssueInv g'.transactionsStatus g'.issued)
    (hlocks : LockInv g'.statusLock (update (fun w => (points w).lock) w l.lock))
    (hbound : ∀ i, l.tx = some i → i < n)
    (hmarked : ∀ i, l.Marks i → (g'.transactionsStatus i).status = .validated)
    (htouch : ∀ i, g'.transactionsStatus i = g.transactionsStatus i ∨ g.statusLock i = false ∨
      (points w).lock = some i)
    (honce : ∀ v flags, l ≠ .countTwice v flags)
    (hcount : g'.numValidated = Nat.count (Counted g' (update points w l)) n) :
    StepInv n g' (update points w l) where
  blockSize := hsize.trans h.blockSize
  cycle := by rw [map_update Point.role]; exact hcycle
  issue := hissue
  locks := by rw [map_update Point.lock]; exact hlocks
  bound := by
    intro w' i
    exact forall_update (P := fun _ (l : Point) => l.tx = some i → i < n) (hbound i)
      (fun _ => h.bound) w'
  marked := by
    intro w' i hw'
    by_cases hw : w' = w
    · subst hw
      rw [update_self] at hw'
      exact hmarked i hw'
    · rw [update_of_ne hw] at hw'
      rcases htouch i with he | hfree | hheld
      · rw [he]; exact h.marked hw'
      · exact absurd hw'.lock (h.locks.not_held hfree w')
      · exact absurd (h.locks.unique hw'.lock hheld) hw
  once := by
    intro w' v flags
    exact forall_update (P := fun _ (l : Point) => l ≠ .countTwice v flags) (honce v flags)
      (fun _ => h.once) w'
  count := hcount

/-- A step that reads, or moves an index or the flag `aborted` only, and keeps the transaction the
worker deals with in the block. -/
theorem StepInv.look (h : StepInv n g points) (ha : g.Agrees g') (hrole : l.role = (points w).role)
    (hlock : l.lock = (points w).lock) (hbound : ∀ i, l.tx = some i → i < n)
    (hmarks : ∀ i, ¬ l.Marks i) (hlags : ∀ i, ¬ (points w).Lags i)
    (honce : ∀ v flags, l ≠ .countTwice v flags) : StepInv n g' (update points w l) := by
  have hno : ∀ i, ¬ l.Lags i := by
    intro i hlag
    refine hmarks i ?_
    cases l <;> first | exact hlag | exact hlag.elim
  refine h.move ha.blockSize ?_ (by rw [ha.status, ha.issued]; exact h.issue) ?_ hbound
    (fun i hm => absurd hm (hmarks i)) (fun i => .inl (by rw [ha.status])) honce
    (h.count_keep ha.numValidated fun i => ?_)
  · rw [ha.status, ha.dependents, hrole, update_eq_self_iff.mpr rfl]
    exact h.cycle
  · rw [ha.locks, hlock, update_eq_self_iff.mpr rfl]
    exact h.locks
  · rw [ha.status]
    exact and_congr_right fun _ => iff_of_true (hno i) (hlags i)

theorem StepInv.calm (h : StepInv n g points) (ha : g.Agrees g') (hc : (points w).Calm l) :
    StepInv n g' (update points w l) := by
  refine h.look ha hc.role hc.lock (fun i hi => ?_) hc.marks hc.lags hc.once
  rcases hc.tx with he | he
  · rw [he] at hi; cases hi
  · exact h.bound (he ▸ hi)

omit [DecidableEq ω] in
/-- A worker that is not at the count before or after its move leaves the count alone. -/
theorem Point.Calm.of_idle {p l : Point} (hrole : l.role = p.role) (hlock : l.lock = p.lock)
    (htx : l.tx = none ∨ l.tx = p.tx) (hp : p.Idle) (hl : l.Idle) : p.Calm l where
  role := hrole
  lock := hlock
  tx := htx
  marks := by cases l <;> first | exact fun _ => id | exact hl.elim
  lags := by cases p <;> first | exact fun _ => id | exact hp.elim
  once := by
    rintro v flags rfl
    exact hl

theorem StepInv.idle (h : StepInv n g points) {executionIdx validationIdx minValidationIdx : Nat}
    {aborted : Bool} (hrole : l.role = (points w).role) (hlock : l.lock = (points w).lock)
    (htx : l.tx = none ∨ l.tx = (points w).tx) (hp : (points w).Idle) (hl : l.Idle) :
    StepInv n { g with executionIdx, validationIdx, minValidationIdx, aborted }
      (update points w l) :=
  h.calm ⟨rfl, rfl, rfl, rfl, rfl, rfl⟩ (.of_idle hrole hlock htx hp hl)

theorem StepInv.cycle_keep (h : StepInv n g points) (hl : l.role = (points w).role) :
    LifeCycle g.transactionsStatus g.transactionsDependents
      (update (fun w => (points w).role) w l.role) := by
  rw [hl, update_eq_self_iff.mpr rfl]
  exact h.cycle

theorem StepInv.locks_keep (h : StepInv n g points) (hl : l.lock = (points w).lock) :
    LockInv g.statusLock (update (fun w => (points w).lock) w l.lock) := by
  rw [hl, update_eq_self_iff.mpr rfl]
  exact h.locks

/-! ## The steps that do more -/

section

variable (h : StepInv n g points)

include h

theorem StepInv.setOne {x : TxStatus} (hs : g'.transactionsStatus = update g.transactionsStatus i x)
    (hsize : g'.blockSize = g.blockSize) (hissued : g'.issued = g.issued)
    (hnum : g'.numValidated = g.numValidated)
    (hown : g.statusLock i = false ∨ (points w).lock = some i)
    (hx : (g.transactionsStatus i).incarnation < x.incarnation ∨
      ((g.transactionsStatus i).incarnation = x.incarnation ∧ x.status ≠ .readyToExecute))
    (hcycle : LifeCycle g'.transactionsStatus g'.transactionsDependents
      (update (fun w => (points w).role) w l.role))
    (hlocks : LockInv g'.statusLock (update (fun w => (points w).lock) w l.lock))
    (hbound : l.tx = none ∨ l.tx = (points w).tx)
    (hmarked : ∀ j, l.Marks j → j = i ∧ x.status = .validated)
    (honce : ∀ v flags, l ≠ .countTwice v flags) (hi : (x.status = .validated ∧ ¬ l.Lags i) ↔
      ((g.transactionsStatus i).status = .validated ∧ ¬ (points w).Lags i))
    (hj : ∀ j, j ≠ i → ¬ l.Lags j ∧ ¬ (points w).Lags j) : StepInv n g' (update points w l) := by
  refine h.move hsize hcycle ?_ hlocks ?_ ?_ ?_ honce (h.count_keep hnum fun j => ?_)
  · rw [hs, hissued]
    exact h.issue.setStatus hx
  · intro j hl
    rcases hbound with he | he
    · rw [he] at hl; cases hl
    · exact h.bound (he ▸ hl)
  · intro j hm
    obtain ⟨rfl, hv⟩ := hmarked j hm
    rw [hs, update_self]
    exact hv
  · intro j
    by_cases hji : j = i
    · subst hji; exact .inr hown
    · exact .inl (by rw [hs, update_of_ne hji])
  · by_cases hji : j = i
    · subst hji
      rw [hs, update_self]
      exact hi
    · rw [hs, update_of_ne hji]
      exact and_congr_right fun _ => iff_of_true (hj j hji).1 (hj j hji).2

theorem StepInv.takeLock (hfree : g.statusLock i = false) (hlock : (points w).lock = none)
    (hl : l.lock = some i) (hrole : l.role = (points w).role) (hbound : l.tx = (points w).tx)
    (hmarked : ∀ j, l.Marks j → (g.transactionsStatus j).status = .validated)
    (honce : ∀ v flags, l ≠ .countTwice v flags) (hlags : ∀ j, ¬ l.Lags j) :
    StepInv n (g.lock i) (update points w l) := by
  have hno : ∀ j, ¬ (points w).Lags j := fun j hlag => by
    have := hlag.lock
    rw [hlock] at this
    cases this
  refine h.move rfl ?_ h.issue ?_ (fun j hj => h.bound (hbound ▸ hj)) hmarked
    (fun _ => .inl rfl) honce (h.count_keep rfl fun j => ?_)
  · exact h.cycle_keep hrole
  · rw [hl]
    exact h.locks.acquire hfree hlock
  · exact and_congr_right fun _ => iff_of_true (hlags j) (hno j)

theorem StepInv.issueTask (hi : i < n) (hrole : (points w).role = .free)
    (hlock : (points w).lock = none) (hfree : g.statusLock i = false)
    (hready : (g.transactionsStatus i).status = .readyToExecute) :
    StepInv n (g.issue ⟨i, (g.transactionsStatus i).incarnation⟩)
      (update points w (.executing ⟨i, (g.transactionsStatus i).incarnation⟩)) := by
  have hst : g.transactionsStatus i = ⟨(g.transactionsStatus i).incarnation, .readyToExecute⟩ := by
    rw [← hready]
  have hlags : ∀ j, ¬ (points w).Lags j := fun j hlag => by
    have := hlag.lock
    rw [hlock] at this
    cases this
  refine h.move rfl ?_ ?_ ?_ ?_ (fun _ hm => hm.elim) ?_ (fun _ _ hl => by cases hl)
    (h.count_keep rfl fun j => ?_)
  · exact h.cycle.issue hrole hst
  · exact h.issue.issue hst
  · exact h.locks_keep hlock.symm
  · intro j hj
    cases hj
    exact hi
  · intro j
    by_cases hj : j = i
    · subst hj; exact .inr (.inl hfree)
    · exact .inl (by simp [LockedScheduler.issue, LockedScheduler.setStatus, hj])
  · by_cases hj : j = i
    · subst hj
      simp [LockedScheduler.issue, LockedScheduler.setStatus, hready]
    · simp only [LockedScheduler.issue, LockedScheduler.setStatus, update_of_ne hj]
      exact and_congr_right fun _ => iff_of_true id (hlags j)

theorem StepInv.pushDependent {b : TxIdx} (hw : points w = .pushDependent v b)
    (hfree : g.statusLock v.txIdx = false) :
    StepInv n (((g.setStatus v.txIdx (g.withStatus v.txIdx .aborting)).setDependents b
      (g.transactionsDependents b ++ [v.txIdx])).unlock b) (update points w .loadAborted) := by
  have hrole : (fun w => (points w).role) w = .executing v := by simp only [hw]; rfl
  have hst := h.cycle.life.exec_status hrole
  refine h.setOne rfl rfl rfl rfl (.inl hfree) ?_ (h.cycle.wait hrole b) ?_
    (.inl rfl) (fun _ hm => hm.elim) (fun _ _ hl => by cases hl) ?_ ?_
  · exact .inr ⟨rfl, by simp [withStatus]⟩
  · exact h.locks.release (by simp only [hw]; rfl)
  · rw [hst]
    simp [withStatus]
  · intro j _
    rw [hw]
    exact ⟨id, id⟩

theorem StepInv.drain {flags : FinishExecFlags} {d : TxIdx} {rest : List TxIdx}
    (hw : points w = .drainDependents v flags) (hd : g.transactionsDependents v.txIdx = d :: rest)
    (hfree : g.statusLock d = false) :
    StepInv n ((g.setReadyStatus d).setDependents v.txIdx rest)
      (update points w (.lowerExecutionIdx v flags d)) := by
  have hst : (g.transactionsStatus d).status = .aborting :=
    h.cycle.life.dep_status (by rw [hd]; exact List.mem_cons_self)
  have hcycle := h.cycle.drainOne hd (x := ⟨(g.transactionsStatus d).incarnation + 1,
    .readyToExecute⟩) (by simp) (by simp)
  refine h.setOne rfl rfl rfl rfl (.inl hfree) (.inl (Nat.lt_succ_self _)) ?_ ?_
    (.inr (by rw [hw]; rfl)) (fun _ hm => hm.elim) (fun _ _ hl => by cases hl) ?_ ?_
  · rw [show (Point.lowerExecutionIdx v flags d).role = (fun w => (points w).role) w by
      simp only [hw]; rfl, update_eq_self]
    exact hcycle
  · exact h.locks_keep (by rw [hw]; rfl)
  · rw [hst]
    simp
  · intro j _
    rw [hw]
    exact ⟨id, id⟩

theorem StepInv.settled (hrole : (points w).role = .executing v)
    (hlock : (points w).lock = some v.txIdx) (htx : (points w).tx = some v.txIdx)
    (hlags : ∀ j, ¬ (points w).Lags j) (hl : l = .loadAborted ∨ l = .validating v) :
    StepInv n ((g.setStatus v.txIdx (g.withStatus v.txIdx .executed)).unlock v.txIdx)
      (update points w l) := by
  have hst := h.cycle.life.exec_status hrole
  refine h.setOne rfl rfl rfl rfl (.inr hlock) ?_ ?_ ?_ ?_ ?_ ?_ ?_ ?_
  · exact .inr ⟨rfl, by simp [withStatus]⟩
  · rw [show l.role = .free by rcases hl with rfl | rfl <;> rfl]
    exact h.cycle.finish hrole (by simp [withStatus]) (by simp [withStatus])
  · rw [show l.lock = none by rcases hl with rfl | rfl <;> rfl]
    exact h.locks.release hlock
  · rcases hl with rfl | rfl
    · exact .inl rfl
    · exact .inr (by rw [htx]; rfl)
  · rcases hl with rfl | rfl <;> exact fun _ hm => hm.elim
  · rcases hl with rfl | rfl <;> exact fun _ _ hl => by cases hl
  · rw [hst]
    simp [withStatus]
  · intro j _
    exact ⟨by rcases hl with rfl | rfl <;> exact id, hlags j⟩

theorem StepInv.abortExecuted (hw : points w = .tryAbort v) (hfree : g.statusLock v.txIdx = false)
    (hx : (g.transactionsStatus v.txIdx).status = .executed) :
    StepInv n (g.setStatus v.txIdx (g.withStatus v.txIdx .aborting))
      (update points w (.aborted v)) := by
  refine h.setOne rfl rfl rfl rfl (.inl hfree) ?_ ?_ ?_ (.inr (by rw [hw]; rfl))
    (fun _ hm => hm.elim) (fun _ _ hl => by cases hl) ?_ ?_
  · exact .inr ⟨rfl, by simp [withStatus]⟩
  · exact h.cycle.abort (by simp only [hw]; rfl) (by rw [hx]; simp) (by rw [hx]; simp)
  · exact h.locks_keep (by rw [hw]; rfl)
  · rw [hx]
    simp [withStatus]
  · intro j _
    rw [hw]
    exact ⟨id, id⟩

theorem StepInv.abortValidated (hw : points w = .setAborting v) :
    StepInv n ((g.setStatus v.txIdx (g.withStatus v.txIdx .aborting)).unlock v.txIdx)
      (update points w (.aborted v)) := by
  have hx := h.marked (by rw [hw]; rfl)
  have hlock : (fun w => (points w).lock) w = some v.txIdx := by simp only [hw]; rfl
  refine h.setOne rfl rfl rfl rfl (.inr hlock) ?_ ?_ ?_
    (.inr (by rw [hw]; rfl)) (fun _ hm => hm.elim) (fun _ _ hl => by cases hl) ?_ ?_
  · exact .inr ⟨rfl, by simp [withStatus]⟩
  · exact h.cycle.abort (by simp only [hw]; rfl) (by rw [hx]; simp) (by rw [hx]; simp)
  · exact h.locks.release hlock
  · -- Neither before nor after is the transaction counted.
    refine iff_of_false (by simp [withStatus]) fun hc => hc.2 ?_
    rw [hw]
    exact rfl
  · intro j hj
    rw [hw]
    exact ⟨id, fun hlag => hj (Eq.symm hlag)⟩

theorem StepInv.releaseAborted (hw : points w = .aborted v) (hfree : g.statusLock v.txIdx = false) :
    StepInv n (g.setReadyStatus v.txIdx) (update points w (.lowerAfterAbort v)) := by
  have hrole : (fun w => (points w).role) w = .aborting v.txIdx := by simp only [hw]; rfl
  have hst := h.cycle.life.abort_status hrole
  refine h.setOne rfl rfl rfl rfl (.inl hfree) (.inl (Nat.lt_succ_self _))
    (h.cycle.release hrole (by simp) (by simp)) ?_ (.inr (by rw [hw]; rfl))
    (fun _ hm => hm.elim) (fun _ _ hl => by cases hl) ?_ ?_
  · exact h.locks_keep (by rw [hw]; rfl)
  · rw [hst]
    simp
  · intro j _
    rw [hw]
    exact ⟨id, id⟩

theorem StepInv.confirmed (hw : points w = .confirm v) (hfree : g.statusLock v.txIdx = false)
    (hx : (g.transactionsStatus v.txIdx).status = .executed) :
    StepInv n ((g.setStatus v.txIdx (g.withStatus v.txIdx .validated)).lock v.txIdx)
      (update points w (.count v)) := by
  refine h.setOne rfl rfl rfl rfl (.inl hfree) ?_ ?_ ?_ (.inr (by rw [hw]; rfl))
    (fun j hm => ⟨Eq.symm hm, rfl⟩) (fun _ _ hl => by cases hl) ?_ ?_
  · exact .inr ⟨rfl, by simp [withStatus]⟩
  · rw [show (Point.count v).role = (fun w => (points w).role) w by simp only [hw]; rfl,
      update_eq_self]
    exact h.cycle.settle (by rw [hx]; simp) (by rw [hx]; simp) (by simp [withStatus])
      (by simp [withStatus])
  · exact h.locks.acquire hfree (by simp only [hw]; rfl)
  · refine iff_of_false (fun hc => hc.2 rfl) ?_
    rw [hx]
    simp
  · intro j hj
    rw [hw]
    exact ⟨fun hlag => hj (Eq.symm hlag), id⟩

theorem StepInv.counted (hw : points w = .count v) :
    StepInv n (({ g with numValidated := g.numValidated + 1 } : LockedScheduler).unlock v.txIdx)
      (update points w .loadAborted) := by
  have hx := h.marked (by rw [hw]; rfl)
  have hlock : (fun w => (points w).lock) w = some v.txIdx := by simp only [hw]; rfl
  have hi : v.txIdx < n := h.bound (by rw [hw]; rfl)
  have hother := h.no_other_lags hlock
  refine h.move rfl ?_ h.issue (h.locks.release hlock) (fun _ hj => by cases hj)
    (fun _ hm => hm.elim) (fun _ => .inl rfl) (fun _ _ hl => by cases hl) ?_
  · exact h.cycle_keep (by rw [hw]; rfl)
  · refine (congrArg (· + 1) h.count).trans (count_gain hi ?_ ?_ fun j hj => ?_).symm
    · intro hc
      refine ((counted_split w).mp hc).1.2 ?_
      rw [hw]
      exact rfl
    · exact counted_update.mpr ⟨⟨hx, id⟩, hother⟩
    · rw [counted_update, counted_split w, hw]
      exact and_congr_left fun _ => and_congr_right fun _ =>
        iff_of_true (fun hlag => hj (Eq.symm hlag)) id

theorem StepInv.uncounted (hw : points w = .uncount v) :
    StepInv n { g with numValidated := g.numValidated - 1 } (update points w (.setAborting v)) := by
  have hx := h.marked (by rw [hw]; rfl)
  have hlock : (fun w => (points w).lock) w = some v.txIdx := by simp only [hw]; rfl
  have hi : v.txIdx < n := h.bound (by rw [hw]; rfl)
  have hother := h.no_other_lags hlock
  refine h.move rfl ?_ h.issue ?_ (fun j hj => by cases hj; exact hi) ?_ (fun _ => .inl rfl)
    (fun _ _ hl => by cases hl) ?_
  · exact h.cycle_keep (by rw [hw]; rfl)
  · exact h.locks_keep (by rw [hw]; rfl)
  · intro j hm
    rw [← show v.txIdx = j from hm]
    exact hx
  · -- Undoing the step would gain this transaction.
    refine Nat.sub_eq_of_eq_add (h.count.trans (count_gain hi ?_ ?_ fun j hj => ?_))
    · intro hc
      exact (counted_update.mp hc).1.2 rfl
    · refine (counted_split w).mpr ⟨⟨hx, ?_⟩, hother⟩
      rw [hw]
      exact id
    · rw [counted_update, counted_split w, hw]
      exact and_congr_left fun _ => and_congr_right fun _ =>
        iff_of_true (fun hlag => hj (Eq.symm hlag)) id

end

/-! ## All steps -/

omit [DecidableEq ω] in
theorem whenFree_eq_some {next r : LockedScheduler × Point} (h : g.whenFree i next = some r) :
    g.statusLock i = false ∧ r = next := by
  unfold whenFree at h
  split at h
  · cases h
  · rename_i hfree
    exact ⟨by simpa using hfree, (Option.some.inj h).symm⟩

/-- The index to validate from is never above the transaction, so the branch that validates from a
higher index is not taken. -/
theorem afterMinValidation_cases (g : LockedScheduler) (v : TxVersion) (flags : FinishExecFlags)
    (m : Nat) (hm : m ≤ v.txIdx) :
    g.afterMinValidation v flags m = .compareValidationIdx v flags ∨
      g.afterMinValidation v flags m = .settle v flags := by
  unfold afterMinValidation
  split
  · rw [if_neg (Nat.not_lt.mpr hm)]
    exact .inl rfl
  · exact .inr rfl

theorem StepInv.step (h : StepInv n g points) {a : TaskEnd}
    (hex : LockedScheduler.exec g (points w) a = some (g', l)) :
    StepInv n g' (update points w l) := by
  have idle : ∀ {executionIdx validationIdx minValidationIdx aborted l}, l.role = (points w).role →
      l.lock = (points w).lock → (l.tx = none ∨ l.tx = (points w).tx) → (points w).Idle → l.Idle →
      StepInv n { g with executionIdx, validationIdx, minValidationIdx, aborted }
        (update points w l) := h.idle
  have hbound : ∀ i, (points w).tx = some i → i < n := fun i => h.bound
  cases hw : points w <;> rw [hw] at hex idle hbound
  case loadAborted =>
    cases hex
    split <;> exact idle rfl rfl (.inl rfl) trivial trivial
  case loadExecutionIdx =>
    cases hex
    exact idle rfl rfl (.inl rfl) trivial trivial
  case loadValidationIdx executionIdx =>
    cases hex
    split
    · exact idle rfl rfl (.inl rfl) trivial trivial
    · split <;> exact idle rfl rfl (.inl rfl) trivial trivial
  case loadNumValidated =>
    cases hex
    exact idle rfl rfl (.inl rfl) trivial trivial
  case loadMinValidationIdx numValidated =>
    cases hex
    split <;> exact idle rfl rfl (.inl rfl) trivial trivial
  case fetchValidationIdx =>
    cases hex
    split
    · rename_i hlt
      refine h.look ⟨rfl, rfl, rfl, rfl, rfl, rfl⟩ (by rw [hw]; rfl) (by rw [hw]; rfl) ?_
        (fun _ => id) (by rw [hw]; exact fun _ => id) fun _ _ hl => by cases hl
      intro i hi
      cases hi
      rwa [h.blockSize] at hlt
    · exact idle rfl rfl (.inl rfl) trivial trivial
  case lookAt i =>
    obtain ⟨hfree, he⟩ := whenFree_eq_some hex
    cases hst : (g.transactionsStatus i).status <;> rw [hst] at he <;> cases he
    case readyToExecute =>
      exact h.issueTask (hbound i rfl) (by rw [hw]; rfl) (by rw [hw]; rfl) hfree hst
    all_goals
      exact idle rfl rfl (by first | exact .inr rfl | exact .inl rfl) trivial trivial
  case fetchExecutionIdx =>
    cases hex
    exact idle rfl rfl (.inl rfl) trivial trivial
  case tryExecute i =>
    simp only [LockedScheduler.exec] at hex
    split at hex
    · rename_i hlt
      obtain ⟨hfree, he⟩ := whenFree_eq_some hex
      split at he
      · rename_i hready
        cases he
        exact h.issueTask (by rwa [h.blockSize] at hlt) (by rw [hw]; rfl) (by rw [hw]; rfl) hfree
          hready
      · cases he
        exact idle rfl rfl (.inl rfl) trivial trivial
    · cases hex
      exact idle rfl rfl (.inl rfl) trivial trivial
  case left => cases hex
  case executing v =>
    cases a with
    | blocked b =>
      simp only [LockedScheduler.exec] at hex
      split at hex
      · cases hex
        exact idle rfl rfl (.inr rfl) trivial trivial
      · cases hex
    | executed flags =>
      cases hex
      exact idle rfl rfl (.inr rfl) trivial trivial
    | stopped =>
      cases hex
      exact idle rfl rfl (.inr rfl) trivial trivial
    | valid => cases hex
    | invalid => cases hex
  case failed v => cases hex
  case addDependency v b =>
    obtain ⟨hfree, he⟩ := whenFree_eq_some hex
    -- The blocking transaction is finished, or its lock is kept for the push.
    split at he <;> cases he
    case h_3 =>
      exact h.takeLock hfree (by rw [hw]; rfl) rfl (by rw [hw]; rfl) (by rw [hw]; rfl)
        (fun _ hm => hm.elim) (fun _ _ hl => by cases hl) fun _ => id
    all_goals
      exact idle rfl rfl (.inr rfl) trivial trivial
  case pushDependent v b =>
    obtain ⟨hfree, he⟩ := whenFree_eq_some hex
    cases he
    exact h.pushDependent hw hfree
  case finishExecution v flags =>
    obtain ⟨hfree, he⟩ := whenFree_eq_some hex
    cases he
    exact h.takeLock hfree (by rw [hw]; rfl) rfl (by rw [hw]; rfl) (by rw [hw]; rfl)
      (fun _ hm => hm.elim) (fun _ _ hl => by cases hl) fun _ => id
  case drainDependents v flags =>
    simp only [LockedScheduler.exec] at hex
    split at hex
    · cases hex
      exact idle rfl rfl (.inr rfl) trivial trivial
    · rename_i d rest hd
      obtain ⟨hfree, he⟩ := whenFree_eq_some hex
      cases he
      exact h.drain hw hd hfree
  case lowerExecutionIdx v flags d =>
    cases hex
    exact idle rfl rfl (.inr rfl) trivial trivial
  case lowerMinValidationIdx v flags =>
    simp only [LockedScheduler.exec, FinishExecFlags.contains_needValidation, if_true] at hex
    cases hex
    rcases afterMinValidation_cases g v flags _ (Nat.min_le_right g.minValidationIdx v.txIdx) with
      he | he <;> rw [he] <;> exact idle rfl rfl (.inr rfl) trivial trivial
  case compareValidationIdx v flags =>
    cases hex
    split
    · split <;> exact idle rfl rfl (.inr rfl) trivial trivial
    · exact idle rfl rfl (.inr rfl) trivial trivial
  case lowerValidationIdx v flags bound next =>
    cases hex
    split <;> exact idle rfl rfl (.inr rfl) trivial trivial
  case settleValidating v flags =>
    simp only [LockedScheduler.exec, FinishExecFlags.contains_needValidation, if_true] at hex
    cases hex
    exact h.settled (by rw [hw]; rfl) (by rw [hw]; rfl) (by rw [hw]; rfl)
      (by rw [hw]; exact fun _ => id) (.inr rfl)
  case countTwice v flags => exact absurd hw h.once
  case settle v flags =>
    simp only [LockedScheduler.exec, FinishExecFlags.contains_needValidation, if_true] at hex
    cases hex
    exact h.settled (by rw [hw]; rfl) (by rw [hw]; rfl) (by rw [hw]; rfl)
      (by rw [hw]; exact fun _ => id) (.inl rfl)
  case validating v =>
    cases a <;> cases hex
    case valid =>
      exact idle rfl rfl (.inr rfl) trivial trivial
    case invalid =>
      exact idle rfl rfl (.inr rfl) trivial trivial
    case stopped =>
      exact idle rfl rfl (.inl rfl) trivial trivial
  case tryAbort v =>
    obtain ⟨hfree, he⟩ := whenFree_eq_some hex
    cases hst : (g.transactionsStatus v.txIdx).status <;> rw [hst] at he <;> cases he
    case validated =>
      refine h.takeLock hfree (by rw [hw]; rfl) rfl (by rw [hw]; rfl) (by rw [hw]; rfl) ?_
        (fun _ _ hl => by cases hl) fun _ => id
      intro j hm
      rw [← show v.txIdx = j from hm]
      exact hst
    case executed => exact h.abortExecuted hw hfree hst
    all_goals
      exact idle rfl rfl (.inr rfl) trivial trivial
  case uncount v => cases hex; exact h.uncounted hw
  case setAborting v => cases hex; exact h.abortValidated hw
  case aborted v =>
    obtain ⟨hfree, he⟩ := whenFree_eq_some hex
    cases he
    exact h.releaseAborted hw hfree
  case lowerAfterAbort v =>
    cases hex
    exact idle rfl rfl (.inr rfl) trivial trivial
  case compareExecutionIdx v =>
    cases hex
    split <;> exact idle rfl rfl (.inl rfl) trivial trivial
  case confirm v =>
    obtain ⟨hfree, he⟩ := whenFree_eq_some hex
    split at he
    · rename_i hx
      cases he
      exact h.confirmed hw hfree hx
    · cases he
      exact idle rfl rfl (.inl rfl) trivial trivial
  case count v => cases hex; exact h.counted hw

/-! ## The whole run -/

omit [DecidableEq ω] in
theorem StepInv.new (n : Nat) :
    StepInv n (LockedScheduler.new n) fun _ : ω => (LockedScheduler.program n).start where
  blockSize := rfl
  cycle :=
    { life :=
        { exec_status := fun h => by cases h
          exec_unique := fun h => by cases h
          abort_status := fun h => by cases h
          abort_unique := fun h => by cases h
          dep_status := fun h => by cases h
          dep_nodup := fun _ => List.nodup_nil
          dep_unique := fun h => by cases h
          dep_free := fun h => by cases h }
      owned := fun i => OwnedAt.of_status (by simp [LockedScheduler.new, Scheduler.new])
        (by simp [LockedScheduler.new, Scheduler.new]) }
  issue :=
    { sorted := List.Pairwise.nil
      le := fun _ h => by cases h
      fresh := fun _ h => by cases h }
  locks :=
    { locked_iff := fun i => iff_of_false (by simp [LockedScheduler.new]) fun ⟨_, h⟩ => by cases h
      unique := fun h => by cases h }
  bound := fun h => by cases h
  marked := fun h => h.elim
  once := fun h => by cases h
  count := (count_eq_zero fun i _ h => by cases h.1).symm

omit [DecidableEq ω] in
theorem StepInv.bookkeeping (h : StepInv n g points) : Bookkeeping g points where
  one_execution := h.cycle.life.exec_unique
  issued := h.issue.sorted
  aborting := by
    intro i hi
    rcases (h.cycle.owned i).aborting hi with ⟨b, hb⟩ | ⟨w, hw⟩
    · refine .inl ⟨⟨b, List.count_eq_one_of_mem (h.cycle.life.dep_nodup b) hb, ?_⟩, ?_⟩
      · intro b' hne hb'
        exact hne (h.cycle.life.dep_unique hb' hb)
      · intro w
        exact h.cycle.life.dep_free hb
    · refine .inr ⟨⟨w, hw, fun w' hw' => h.cycle.life.abort_unique hw' hw⟩, ?_⟩
      intro b hb
      exact h.cycle.life.dep_free hb hw
  validated := by
    intro hfree
    rw [h.blockSize]
    refine h.count.trans (count_congr fun i _ => and_iff_left ?_)
    rintro ⟨w, hlag⟩
    exact h.locks.not_held (hfree i) w hlag.lock

/-- The bookkeeping of the scheduler holds in every state of every run. -/
theorem scheduler_bookkeeping {c : Config LockedScheduler Point ω}
    (h : Reachable ((LockedScheduler.program n).system ω) c) :
    Bookkeeping c.shared c.threads := by
  have hinv : StepInv n c.shared c.threads :=
    Program.invariant (I := StepInv n) (StepInv.new n)
      (fun _ _ _ _ _ _ hI _ hex => hI.step hex) h
  exact hinv.bookkeeping

theorem scheduler_bookkeeping_waiting : ∃ c : Config LockedScheduler Point (Fin 2),
    Reachable ((LockedScheduler.program 2).system (Fin 2)) c ∧
    c.shared.transactionsStatus 1 = ⟨0, .aborting⟩ ∧ Bookkeeping c.shared c.threads := by
  obtain ⟨c, hc, hp⟩ := exists_reachable_of_run
    (S := (LockedScheduler.program 2).system (Fin 2))
    [(0, .valid), (0, .valid), (0, .valid), (0, .valid), (0, .valid), (1, .valid), (1, .valid),
      (1, .valid), (1, .valid), (1, .valid), (1, .blocked 0), (1, .valid), (1, .valid)]
    (p := fun c => c.shared.transactionsStatus 1 = ⟨0, .aborting⟩) (by decide +kernel)
  exact ⟨c, hc, of_decide_eq_true hp, scheduler_bookkeeping hc⟩

end CongestionControl.Pevm
