import CongestionControl.Pevm.GraphSchedulerSteps
import CongestionControl.Pevm.Proofs.LifecycleProofs

/-!
# Proofs: one execution at a time in the graph scheduler

Most steps of `graph_scheduler.rs` leave the ledger alone, the others are moves of `LifeInv`. The one
that breaks the invariant is the branch of `try_execute` for aborting transactions, which takes a
transaction that somebody else answers for.
-/

namespace CongestionControl.Pevm

open Function (update update_eq_self update_of_ne update_self)
open Transition Mutex

variable {ω : Type} {b b' : Ledger} {hold : ω → Hold} {w : ω} {x : Hold} {i k d : TxIdx}
  {v : TxVersion} {rest : List TxIdx}

/-! ## The moves -/

theorem HoldInv.marked_update (h : HoldInv b hold) {j : TxIdx} {w' : ω} {tx : TxStatus}
    (hi : (b.status i).status ≠ .validated) (hm : (hold w').marked = some j) :
    (update b.status i tx j).status = .validated := by
  have hj : (b.status j).status = .validated := (h.marked hm).2
  have hne : j ≠ i := by rintro rfl; exact hi hj
  rwa [update_of_ne hne]

theorem head_update_append {dependents : TxIdx → List TxIdx} {j : TxIdx}
    (hd : (dependents j).head? = some d) :
    (update dependents k (dependents k ++ [i]) j).head? = some d := by
  by_cases hj : j = k
  · subst hj
    rw [update_self, List.head?_append, hd]
    rfl
  · rwa [update_of_ne hj]

theorem HoldInv.head_keep (h : HoldInv b hold) {v' : TxVersion} {w' : ω}
    (hw : (hold w).role = .executing v) (hne : w' ≠ w) (hw' : (hold w').role = .executing v')
    (hd : (b.dependents v'.txIdx).head? = some d) :
    (update b.dependents v.txIdx rest v'.txIdx).head? = some d := by
  have hother : v'.txIdx ≠ v.txIdx := fun he => hne (h.life.exec_unique hw' hw he)
  rwa [update_of_ne hother]

section Moves

variable [DecidableEq ω]

section

variable (h : HoldInv b hold)

include h

theorem HoldInv.move
    (life : LifeInv b'.status b'.dependents (update (fun w => (hold w).role) w x.role))
    (issue : IssueInv b'.status b'.issued)
    (locks : LockInv b'.locks (update (fun w => (hold w).lock) w x.lock))
    (marked : ∀ {i}, x.marked = some i → x.lock = some i ∧ (b'.status i).status = .validated)
    (marked' : ∀ {w' i}, w' ≠ w → (hold w').marked = some i →
      (b'.status i).status = .validated) (next : ∀ {d}, x.next = some d →
      ∃ v, x.role = .executing v ∧ (b'.dependents v.txIdx).head? = some d)
    (next' : ∀ {w' v d}, w' ≠ w → (hold w').role = .executing v →
      (b.dependents v.txIdx).head? = some d → (b'.dependents v.txIdx).head? = some d)
    (once : x.twice = false) (readied : ∀ s ∈ b'.readied, s = .aborting) :
    HoldInv b' (update hold w x) where
  life := by rwa [map_update Hold.role w x]
  issue := issue
  locks := by rwa [map_update Hold.lock w x]
  marked := by
    intro w' i
    by_cases hw : w' = w
    · subst hw
      rw [update_self]
      exact marked
    · rw [update_of_ne hw]
      exact fun hm => ⟨(h.marked hm).1, marked' hw hm⟩
  next := by
    intro w' d
    by_cases hw : w' = w
    · subst hw
      rw [update_self]
      exact next
    · rw [update_of_ne hw]
      intro hd
      obtain ⟨v, hv, hhead⟩ := h.next hd
      exact ⟨v, hv, next' hw hv hhead⟩
  once := by
    intro w'
    by_cases hw : w' = w
    · subst hw
      rwa [update_self]
    · rw [update_of_ne hw]
      exact h.once
  readied := readied

theorem HoldInv.locks_keep (hx : x.lock = (hold w).lock) :
    LockInv b.locks (update (fun w => (hold w).lock) w x.lock) := by
  rw [hx, update_eq_self]
  exact h.locks

theorem HoldInv.life_keep (hx : x.role = (hold w).role) :
    LifeInv b.status b.dependents (update (fun w => (hold w).role) w x.role) := by
  rw [hx, update_eq_self]
  exact h.life

theorem HoldInv.issueTask (hw : hold w = {}) (hs : (b.status i).status = .readyToExecute) :
    HoldInv { b with
        status := update b.status i ⟨(b.status i).incarnation, .executing⟩
        issued := b.issued ++ [⟨i, (b.status i).incarnation⟩] }
      (update hold w { role := .executing ⟨i, (b.status i).incarnation⟩ }) := by
  have hst : b.status i = ⟨(b.status i).incarnation, .readyToExecute⟩ := by rw [← hs]
  have hst' : b.status (TxVersion.mk i (b.status i).incarnation).txIdx =
    ⟨(TxVersion.mk i (b.status i).incarnation).txIncarnation, .readyToExecute⟩ := hst
  refine h.move (h.life.issue hst' w) (h.issue.issue hst')
    (h.locks_keep (by rw [hw])) (fun hm => by cases hm) ?_ (fun hd => by cases hd)
    (fun _ _ hd => hd) rfl h.readied
  intro w' j _ hm
  exact h.marked_update (by rw [hs]; simp) hm

theorem HoldInv.takeLock (hk : b.locks k = false) (hw : (hold w).lock = none)
    (hrole : x.role = (hold w).role) (hlock : x.lock = some k)
    (hmark : x.marked = none ∨ (x.marked = some k ∧ (b.status k).status = .validated))
    (hnext : x.next = none) (htwice : x.twice = false) :
    HoldInv { b with locks := update b.locks k true } (update hold w x) := by
  refine h.move (h.life_keep hrole) h.issue ?_ ?_ (fun _ hm => (h.marked hm).2)
    (fun hd => by rw [hnext] at hd; cases hd) (fun _ _ hd => hd) htwice h.readied
  · rw [hlock]
    exact h.locks.acquire hk hw
  · intro i hm
    rcases hmark with hn | ⟨hs, hv⟩
    · rw [hn] at hm; cases hm
    · rw [hs] at hm; cases hm; exact ⟨hlock, hv⟩

theorem HoldInv.pushDependent (hw : hold w = { role := .executing v, lock := some k }) :
    HoldInv { b with
        status := update b.status v.txIdx { b.status v.txIdx with status := .aborting }
        dependents := update b.dependents k (b.dependents k ++ [v.txIdx])
        locks := update b.locks k false }
      (update hold w {}) := by
  have hrole : (hold w).role = .executing v := by rw [hw]
  have hst : b.status v.txIdx = ⟨v.txIncarnation, .executing⟩ := h.life.exec_status hrole
  refine h.move (h.life.wait hrole k) (h.issue.setStatus ?_) (h.locks.release (by rw [hw]))
    (fun hm => by cases hm) ?_ (fun hd => by cases hd) (fun _ _ hd => head_update_append hd) rfl
    h.readied
  · exact .inr ⟨rfl, by simp⟩
  · intro w' j _ hm
    exact h.marked_update (by rw [hst]; simp) hm

theorem HoldInv.lookAtHead (hw : hold w = { role := .executing v, lock := some v.txIdx })
    (hd : (b.dependents v.txIdx).head? = some d) :
    HoldInv b (update hold w { role := .executing v, lock := some v.txIdx, next := some d }) := by
  refine h.move (h.life_keep (by rw [hw])) h.issue (h.locks_keep (by rw [hw]))
    (fun hm => by cases hm) (fun _ hm => (h.marked hm).2) ?_ (fun _ _ hd => hd) rfl h.readied
  intro d' hd'
  cases hd'
  exact ⟨v, rfl, hd⟩

theorem HoldInv.dropHead (hw : hold w = { role := .executing v, lock := some v.txIdx })
    (hd : b.dependents v.txIdx = d :: rest) :
    HoldInv { b with dependents := update b.dependents v.txIdx rest }
      (update hold w { role := .executing v, lock := some v.txIdx }) := by
  have hrole : (hold w).role = .executing v := by rw [hw]
  refine h.move ?_ h.issue (h.locks_keep (by rw [hw])) (fun hm => by cases hm)
    (fun _ hm => (h.marked hm).2) (fun hd => by cases hd) (h.head_keep hrole) rfl h.readied
  rw [show Role.executing v = (hold w).role from hrole.symm, update_eq_self]
  exact h.life.shrinkDep (hd ▸ List.sublist_cons_self d rest)

theorem HoldInv.readyHead
    (hw : hold w = { role := .executing v, lock := some v.txIdx, next := some d }) :
    HoldInv { b with
        status := update b.status d ⟨(b.status d).incarnation + 1, .readyToExecute⟩
        dependents := update b.dependents v.txIdx (b.dependents v.txIdx).tail
        readied := b.readied ++ [(b.status d).status] }
      (update hold w { role := .executing v, lock := some v.txIdx }) := by
  have hrole : (hold w).role = .executing v := by rw [hw]
  obtain ⟨v1, hv1, hhead⟩ := h.next (by rw [hw])
  cases hrole.symm.trans hv1
  have hlist : b.dependents v.txIdx = d :: (b.dependents v.txIdx).tail :=
    (List.cons_head?_tail hhead).symm
  have hst : (b.status d).status = .aborting :=
    h.life.dep_status (by rw [hlist]; exact List.mem_cons_self)
  refine h.move ?_ (h.issue.setStatus (.inl (Nat.lt_succ_self _))) (h.locks_keep (by rw [hw]))
    (fun hm => by cases hm) ?_ (fun hd => by cases hd) (h.head_keep hrole) rfl ?_
  · rw [show Role.executing v = (hold w).role from hrole.symm, update_eq_self]
    exact h.life.drainOne hlist _
  · intro w' j _ hm
    exact h.marked_update (by rw [hst]; simp) hm
  · intro s hs
    rcases List.mem_append.mp hs with hs | hs
    · exact h.readied s hs
    · rw [List.mem_singleton.mp hs, hst]

theorem HoldInv.settled (hw : hold w = { role := .executing v, lock := some v.txIdx }) :
    HoldInv { b with
        status := update b.status v.txIdx { b.status v.txIdx with status := .executed }
        locks := update b.locks v.txIdx false }
      (update hold w {}) := by
  have hrole : (hold w).role = .executing v := by rw [hw]
  have hst : b.status v.txIdx = ⟨v.txIncarnation, .executing⟩ := h.life.exec_status hrole
  refine h.move (h.life.finish hrole _) (h.issue.setStatus (.inr ⟨rfl, by simp⟩))
    (h.locks.release (by rw [hw])) (fun hm => by cases hm) ?_ (fun hd => by cases hd)
    (fun _ _ hd => hd) rfl h.readied
  intro w' j _ hm
  exact h.marked_update (by rw [hst]; simp) hm

theorem HoldInv.abortExecuted (hw : hold w = {}) (hs : (b.status i).status = .executed) :
    HoldInv { b with status := update b.status i { b.status i with status := .aborting } }
      (update hold w { role := .aborting i }) := by
  refine h.move (h.life.abort (by rw [hs]; simp) (by rw [hs]; simp) w)
    (h.issue.setStatus (.inr ⟨rfl, by simp⟩)) (h.locks_keep (by rw [hw]))
    (fun hm => by cases hm) ?_ (fun hd => by cases hd) (fun _ _ hd => hd) rfl h.readied
  intro w' j _ hm
  exact h.marked_update (by rw [hs]; simp) hm

theorem HoldInv.abortValidated (hw : hold w = { lock := some i, marked := some i }) :
    HoldInv { b with
        status := update b.status i { b.status i with status := .aborting }
        locks := update b.locks i false }
      (update hold w { role := .aborting i }) := by
  have hs : (b.status i).status = .validated := (h.marked (by rw [hw])).2
  refine h.move (h.life.abort (by rw [hs]; simp) (by rw [hs]; simp) w)
    (h.issue.setStatus (.inr ⟨rfl, by simp⟩)) (h.locks.release (by rw [hw]))
    (fun hm => by cases hm) ?_ (fun hd => by cases hd) (fun _ _ hd => hd) rfl h.readied
  intro w' j hne hm
  -- Nobody else counts this transaction: its lock is taken.
  have hj : j ≠ i := by
    rintro rfl
    exact hne (h.locks.unique (h.marked hm).1 (by rw [hw]))
  exact (congrArg TxStatus.status (update_of_ne hj _ _)).trans (h.marked hm).2

theorem HoldInv.readyAborted (hw : hold w = { role := .aborting i }) :
    HoldInv { b with
        status := update b.status i ⟨(b.status i).incarnation + 1, .readyToExecute⟩
        readied := b.readied ++ [(b.status i).status] }
      (update hold w {}) := by
  have hrole : (hold w).role = .aborting i := by rw [hw]
  have hs : (b.status i).status = .aborting := h.life.abort_status hrole
  refine h.move (h.life.release hrole _) (h.issue.setStatus (.inl (Nat.lt_succ_self _)))
    (h.locks_keep (by rw [hw])) (fun hm => by cases hm) ?_ (fun hd => by cases hd)
    (fun _ _ hd => hd) rfl ?_
  · intro w' j _ hm
    exact h.marked_update (by rw [hs]; simp) hm
  · intro s hs'
    rcases List.mem_append.mp hs' with hs' | hs'
    · exact h.readied s hs'
    · rw [List.mem_singleton.mp hs', hs]

theorem HoldInv.confirmed (hw : hold w = {}) (hfree : b.locks i = false)
    (hs : (b.status i).status = .executed) :
    HoldInv { b with
        status := update b.status i { b.status i with status := .validated }
        locks := update b.locks i true }
      (update hold w { lock := some i, marked := some i }) := by
  refine h.move ?_ (h.issue.setStatus (.inr ⟨rfl, by simp⟩)) (h.locks.acquire hfree (by rw [hw]))
    ?_ ?_ (fun hd => by cases hd) (fun _ _ hd => hd) rfl h.readied
  · rw [show Role.free = (hold w).role by rw [hw], update_eq_self]
    exact h.life.setStatus (h.life.unheld (by rw [hs]; simp) (by rw [hs]; simp)) _
  · intro j hj
    cases hj
    exact ⟨rfl, by simp⟩
  · intro w' j _ hm
    exact h.marked_update (by rw [hs]; simp) hm

theorem HoldInv.giveBack (hw : hold w = { lock := some i, marked := some i }) :
    HoldInv { b with locks := update b.locks i false } (update hold w {}) :=
  h.move (h.life_keep (by rw [hw])) h.issue (h.locks.release (by rw [hw])) (fun hm => by cases hm)
    (fun _ hm => (h.marked hm).2) (fun hd => by cases hd) (fun _ _ hd => hd) rfl h.readied

end

end Moves

/-! ## All steps -/

namespace LockedGraphScheduler

theorem whenFree_eq_some {g : LockedGraphScheduler} {next r : LockedGraphScheduler × GraphPoint}
    (h : g.whenFree i next = some r) :
    g.statusLock i = false ∧ r = next := by
  unfold whenFree at h
  split at h
  · cases h
  · rename_i hfree
    exact ⟨by simpa using hfree, (Option.some.inj h).symm⟩

theorem afterMinValidation_hold (g : LockedGraphScheduler) (v : TxVersion) (flags : FinishExecFlags)
    (m : Nat) :
    (g.afterMinValidation v flags m).hold = { role := .executing v, lock := some v.txIdx } := by
  unfold afterMinValidation
  split
  · split
    · split <;> rfl
    · rfl
  · rfl

end LockedGraphScheduler

section Steps

variable [DecidableEq ω] {g g' : LockedGraphScheduler} {points : ω → GraphPoint} {l : GraphPoint}

open LockedGraphScheduler (whenFree_eq_some afterMinValidation_hold)

theorem HoldInv.step (h : HoldInv g.ledger fun w => (points w).hold) {a : TaskEnd}
    (hok : ∀ i, points w = .tryExecute i → (g.transactionsStatus i).status ≠ .aborting)
    (hex : g.exec (points w) a = some (g', l)) :
    HoldInv g'.ledger fun w' => (update points w l w').hold := by
  rw [map_update GraphPoint.hold w l]
  have keep : ∀ {g' : LockedGraphScheduler} {l : GraphPoint}, g'.ledger = g.ledger →
      l.hold = (points w).hold →
      HoldInv g'.ledger (update (fun w' => (points w').hold) w l.hold) := by
    intro g' l hg hl
    rw [hg, hl]
    simpa only [update_eq_self] using h
  cases hw : points w <;> rw [hw] at hex keep
  all_goals have hh : (points w).hold = _ := congrArg GraphPoint.hold hw
  case loadAborted =>
    cases a <;> cases hex <;> refine keep rfl ?_ <;> split <;> rfl
  case timedOut => cases hex; exact keep rfl rfl
  case lookAtHeap => cases hex; exact keep rfl rfl
  case loadValidationIdx => cases hex; exact keep rfl rfl
  case loadNumValidated => cases hex; exact keep rfl rfl
  case loadMinValidationIdx =>
    cases hex
    refine keep rfl ?_
    split <;> rfl
  case left => cases hex
  case loadNextValidation => cases hex; exact keep rfl rfl
  case peekExecutable =>
    cases hex
    refine keep rfl ?_
    split <;> rfl
  case fetchValidationIdx =>
    cases hex
    refine keep rfl ?_
    split <;> rfl
  case checkReady i =>
    obtain ⟨-, he⟩ := whenFree_eq_some hex
    cases he
    refine keep rfl ?_
    split <;> rfl
  case checkSteal i =>
    cases hex
    refine keep rfl ?_
    split <;> rfl
  case steal i =>
    obtain ⟨-, he⟩ := whenFree_eq_some hex
    split at he
    · rename_i hready
      cases he
      exact h.issueTask hh hready
    · cases he
      exact keep rfl rfl
  case lookAt i =>
    obtain ⟨-, he⟩ := whenFree_eq_some hex
    cases he
    refine keep rfl ?_
    split <;> rfl
  case popExecutable =>
    simp only [LockedGraphScheduler.exec] at hex
    split at hex <;> cases hex
    · exact keep rfl rfl
    · refine keep rfl ?_
      split <;> rfl
  case checkDependencies i =>
    cases hex
    refine keep rfl ?_
    split <;> rfl
  case tryExecute i =>
    obtain ⟨-, he⟩ := whenFree_eq_some hex
    cases hst : (g.transactionsStatus i).status <;> simp only [hst] at he <;> cases he
    case readyToExecute => exact h.issueTask hh hst
    case aborting => exact absurd hst (hok i hw)
    all_goals exact keep rfl rfl
  case executing v => cases a <;> cases hex <;> exact keep rfl rfl
  case failed => cases hex
  case addDependency v k =>
    obtain ⟨hfree, he⟩ := whenFree_eq_some hex
    -- The blocking transaction is finished, or its lock is kept for the push.
    split at he <;> cases he
    case h_3 =>
      exact h.takeLock hfree (by rw [hh]; rfl) (by rw [hh]; rfl) rfl (.inl rfl) rfl rfl
    all_goals exact keep rfl rfl
  case pushDependent v k =>
    obtain ⟨-, he⟩ := whenFree_eq_some hex
    cases he
    exact h.pushDependent hh
  case finishExecution v flags =>
    obtain ⟨hfree, he⟩ := whenFree_eq_some hex
    cases he
    exact h.takeLock hfree (by rw [hh]; rfl) (by rw [hh]; rfl) rfl (.inl rfl) rfl rfl
  case swapReleased v flags =>
    cases hex
    refine keep rfl ?_
    split <;> rfl
  case releaseChildren v flags children =>
    cases children <;> cases hex
    · exact keep rfl rfl
    · refine keep rfl ?_
      split <;> rfl
  case pushChild => cases hex; exact keep rfl rfl
  case drainDependents v flags =>
    simp only [LockedGraphScheduler.exec] at hex
    split at hex
    · cases hex
      exact keep rfl rfl
    · rename_i d rest hd
      split at hex <;> cases hex
      · exact h.lookAtHead hh (congrArg List.head? hd)
      · exact h.dropHead hh hd
  case setReady v flags d =>
    obtain ⟨-, he⟩ := whenFree_eq_some hex
    cases he
    exact h.readyHead hh
  case pushReady => cases hex; exact keep rfl rfl
  case lowerMinValidationIdx v flags =>
    simp only [LockedGraphScheduler.exec] at hex
    split at hex <;> cases hex <;> exact keep rfl (afterMinValidation_hold _ _ _ _)
  case compareValidationIdx v flags =>
    cases hex
    refine keep rfl ?_
    split
    · split <;> rfl
    · rfl
  case lowerValidationIdx =>
    cases hex
    refine keep rfl ?_
    split <;> rfl
  case settleValidating v flags =>
    simp only [LockedGraphScheduler.exec, FinishExecFlags.contains_needValidation, if_true] at hex
    cases hex
    exact h.settled hh
  case countTwice v flags =>
    have := h.once (w := w)
    rw [hh] at this
    cases this
  case settle v flags =>
    simp only [LockedGraphScheduler.exec, FinishExecFlags.contains_needValidation, if_true] at hex
    cases hex
    exact h.settled hh
  case validating v => cases a <;> cases hex <;> exact keep rfl rfl
  case tryAbort v =>
    obtain ⟨hfree, he⟩ := whenFree_eq_some hex
    cases hst : (g.transactionsStatus v.txIdx).status <;> simp only [hst] at he <;> cases he
    case validated =>
      exact h.takeLock hfree (by rw [hh]; rfl) (by rw [hh]; rfl) rfl (.inr ⟨rfl, hst⟩) rfl rfl
    case executed => exact h.abortExecuted hh hst
    all_goals exact keep rfl rfl
  case uncount => cases hex; exact keep rfl rfl
  case setAborting v => cases hex; exact h.abortValidated hh
  case aborted v =>
    obtain ⟨-, he⟩ := whenFree_eq_some hex
    cases he
    exact h.readyAborted hh
  case lowerAfterAbort => cases hex; exact keep rfl rfl
  case checkAborted =>
    cases hex
    refine keep rfl ?_
    split <;> rfl
  case confirm v =>
    obtain ⟨hfree, he⟩ := whenFree_eq_some hex
    split at he
    · rename_i hx
      cases he
      exact h.confirmed hh hfree hx
    · cases he
      exact keep rfl rfl
  case count v => cases hex; exact h.giveBack hh

end Steps

/-! ## The whole run -/

theorem HoldInv.new (n : Nat) (graph : TransactionGraph) :
    HoldInv (LockedGraphScheduler.new n graph).ledger fun _ : ω => GraphPoint.loadAborted.hold where
  life :=
    { exec_status := fun h => by cases h
      exec_unique := fun h => by cases h
      abort_status := fun h => by cases h
      abort_unique := fun h => by cases h
      dep_status := fun h => by cases h
      dep_nodup := fun _ => List.nodup_nil
      dep_unique := fun h => by cases h
      dep_free := fun h => by cases h }
  issue :=
    { sorted := List.Pairwise.nil
      le := fun _ h => by cases h
      fresh := fun _ h => by cases h }
  locks :=
    { locked_iff := fun i => iff_of_false
        (by simp [LockedGraphScheduler.new, LockedGraphScheduler.ledger]) fun ⟨_, h⟩ => by cases h
      unique := fun h => by cases h }
  marked := fun h => by cases h
  next := fun h => by cases h
  once := rfl
  readied := fun _ h => by cases h

theorem IssueInv.nodup {status : TxIdx → TxStatus} {issued : List TxVersion}
    (h : IssueInv status issued) : issued.Nodup := by
  refine List.Pairwise.imp ?_ h.sorted
  rintro v v' hlt rfl
  exact Nat.lt_irrefl _ (hlt rfl)

/-- In a run in which `try_execute` never finds an aborting transaction, nothing is executed twice
at the same time or in the same incarnation, and only aborting transactions are made ready. -/
theorem exclusiveExecution_of_noAbortingExecute [DecidableEq ω] {n : Nat} {graph : TransactionGraph}
    {c : Config LockedGraphScheduler GraphPoint ω}
    (h : Reach ((LockedGraphScheduler.program n graph).system ω) NoAbortingExecute c) :
    ExclusiveExecution c.shared c.threads := by
  have hinv : HoldInv c.shared.ledger fun w => (c.threads w).hold := by
    refine Program.invariant (I := fun g points => HoldInv g.ledger fun w => (points w).hold)
      (HoldInv.new n graph) ?_ h
    intro g points w a g' l hI hok hex
    refine hI.step ?_ hex
    intro i hi
    simpa only [NoAbortingExecute, hi] using hok
  exact ⟨hinv.life.exec_unique, hinv.issue.nodup, hinv.readied⟩

def stepsOf {k : Nat} (w : Fin k) (count : Nat) : List (Fin k × TaskEnd) :=
  List.replicate count (w, .valid)

/-- Three workers on three transactions without edges. Worker 2 steals the last transaction while it
is in the heap and leaves it waiting for the middle one; worker 0 pops it from the heap and executes
it though it is aborting; when worker 1 ends the middle transaction it makes the last one ready
while it is executing, and worker 2 executes it as well. -/
theorem aborting_transaction_executed_twice : ∃ c : Config LockedGraphScheduler GraphPoint (Fin 3),
    Reachable ((LockedGraphScheduler.program 3 (edgelessGraph 3)).system (Fin 3)) c ∧
    (c.threads 0).hold.role = .executing ⟨2, 1⟩ ∧ (c.threads 2).hold.role = .executing ⟨2, 2⟩ ∧
    c.shared.readied = [.executing] ∧ ¬ ExclusiveExecution c.shared c.threads := by
  obtain ⟨c, hc, hp⟩ := exists_reachable_of_run
    (S := (LockedGraphScheduler.program 3 (edgelessGraph 3)).system (Fin 3))
    (stepsOf 0 10 ++ [(0, .executed .wroteNewLocation)] ++ stepsOf 0 11 ++ stepsOf 1 10 ++
      stepsOf 0 7 ++ stepsOf 2 7 ++ stepsOf 0 1 ++ stepsOf 2 4 ++ [(2, .blocked 1)] ++
      stepsOf 2 2 ++ stepsOf 0 5 ++ [(1, .executed ⟨0⟩)] ++ stepsOf 1 6 ++ stepsOf 2 10)
    (p := fun c => (c.threads 0).hold.role = .executing ⟨2, 1⟩ ∧
      (c.threads 2).hold.role = .executing ⟨2, 2⟩ ∧ c.shared.readied = [.executing])
    (by decide +kernel)
  obtain ⟨h0, h2, hr⟩ := of_decide_eq_true hp
  refine ⟨c, hc, h0, h2, hr, fun hex => ?_⟩
  exact absurd (hex.one_execution h0 h2 rfl) (by decide)

/-- A run of two workers in which the second transaction waits for the first and is resumed. -/
theorem exclusiveExecution_resumed : ∃ c : Config LockedGraphScheduler GraphPoint (Fin 2),
    Reach ((LockedGraphScheduler.program 2 (edgelessGraph 2)).system (Fin 2)) NoAbortingExecute c ∧
    c.shared.readied = [.aborting] ∧ ExclusiveExecution c.shared c.threads := by
  obtain ⟨c, hc, hp⟩ := exists_reach_of_run
    (S := (LockedGraphScheduler.program 2 (edgelessGraph 2)).system (Fin 2))
    (fun c a (h : decide (NoAbortingExecute c a) = true) => of_decide_eq_true h)
    (stepsOf 0 10 ++ stepsOf 1 10 ++ [(1, .blocked 0)] ++ stepsOf 1 2 ++ [(0, .executed ⟨0⟩)] ++
      stepsOf 0 6)
    (p := fun c => c.shared.readied = [.aborting]) (by decide +kernel)
  exact ⟨c, hc, of_decide_eq_true hp, exclusiveExecution_of_noAbortingExecute hc⟩

end CongestionControl.Pevm
