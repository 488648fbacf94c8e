import CongestionControl.Pevm.StaleAbort
import CongestionControl.Pevm.Proofs.SerializabilityProofs

/-!
# Proofs: which incarnation an abort is about

A stale validation can abort a later incarnation. It cannot when no execution finishes while a
validation of the same transaction is open.
-/

namespace CongestionControl.Pevm

open Function (update update_eq_self_iff update_idem update_of_ne update_self)
open Transition Scheduler MvMemory

variable {L V ω : Type} [DecidableEq ω] {task : Option Task}

/-! ## One step -/

section Moves

variable {n : Nat} {s s' : Scheduler} {threads : ω → Worker L V} {w : ω} {l l' : Worker L V}

theorem SafeInv.move (h : SafeInv n s threads) (hsize : s'.blockSize = s.blockSize)
    (hlife : LifeInv s'.transactionsStatus s'.transactionsDependents
      (update (fun w => (threads w).role) w l.role))
    (hdep : ∀ {b i}, i ∈ s'.transactionsDependents b → b < i)
    (hbound : ∀ v, l.version = some v → v.txIdx < n)
    (hblocked : ∀ v b, l = .blocked v b → b < v.txIdx) : SafeInv n s' (update threads w l) where
  blockSize := hsize.trans h.blockSize
  life := by rw [map_update Worker.role]; exact hlife
  dep_lt := hdep
  bound := by
    intro w' v hv
    by_cases hw : w' = w
    · subst hw; exact hbound v (by simpa using hv)
    · exact h.bound (by rwa [update_of_ne hw] at hv)
  blocked_lt := by
    intro w' v b hb
    by_cases hw : w' = w
    · subst hw; exact hblocked v b (by simpa using hb)
    · exact h.blocked_lt (by rwa [update_of_ne hw] at hb)

theorem LifeInv.dropped {status : TxIdx → TxStatus} {dependents : TxIdx → List TxIdx}
    {role : ω → Role} {r r' : Role} (h : LifeInv status dependents (update role w r))
    (hr : r' = r ∨ r' = .free) : LifeInv status dependents (update role w r') := by
  rcases hr with rfl | rfl
  · exact h
  · have := h.drop w
    rwa [update_idem _ _ role] at this

omit [DecidableEq ω] in
theorem StepEffect.of_status (hs : s'.transactionsStatus = s.transactionsStatus)
    (hval : ∀ v, l' = .validating v →
      (s.transactionsStatus v.txIdx).incarnation = v.txIncarnation)
    (href : ∀ v, l' = .refuted v → l = .validating v)
    (hrec : ∀ v flags, l' = .recorded v flags → ∃ ws readSet, l = .running v (.done ws) readSet)
    (hab : ∀ v v', l = .refuted v → l' ≠ .aborting v') : StepEffect s s' l l' where
  finished := fun hf => .inl ⟨by simpa only [Finished, hs] using hf, by rw [hs]⟩
  advance := fun i => .inr ⟨by rw [hs], by rw [hs]; exact id⟩
  validating := fun hl => by rw [hs]; exact hval _ hl
  refuted := fun hl => href _ hl
  recorded := fun hl => hrec _ _ hl
  aborting := fun hl hl' => absurd hl' (hab _ _ hl)

omit [DecidableEq ω] in
theorem StepEffect.of_update {i : TxIdx} {x : TxStatus}
    (hs : s'.transactionsStatus = update s.transactionsStatus i x)
    (hxe : x.status ≠ .executed) (hxv : x.status ≠ .validated)
    (hadv : (s.transactionsStatus i).incarnation < x.incarnation ∨
      ((s.transactionsStatus i).incarnation = x.incarnation ∧
        ((s.transactionsStatus i).status = .aborting → x.status = .aborting)))
    (hval : ∀ v, l' ≠ .validating v) (href : ∀ v, l' ≠ .refuted v)
    (hrec : ∀ v flags, l' ≠ .recorded v flags)
    (hab : ∀ v v', l = .refuted v → l' = .aborting v' → s.Finished v.txIdx ∧
      s'.transactionsStatus v.txIdx = ⟨(s.transactionsStatus v.txIdx).incarnation, .aborting⟩) :
    StepEffect s s' l l' where
  finished := fun hf => by
    obtain ⟨hne, hf⟩ := finished_of_update hs hxe hxv hf
    exact .inl ⟨hf, by rw [hs, update_of_ne hne]⟩
  advance := fun j => by
    by_cases hj : j = i
    · subst hj; rw [hs, update_self]; exact hadv
    · rw [hs, update_of_ne hj]; exact .inr ⟨rfl, id⟩
  validating := fun hl => absurd hl (hval _)
  refuted := fun hl => absurd hl (href _)
  recorded := fun hl => absurd hl (hrec _ _)
  aborting := fun hl hl' => hab _ _ hl hl'

omit [DecidableEq ω] in
theorem StepEffect.of_update_quiet {i : TxIdx} {x : TxStatus}
    (hs : s'.transactionsStatus = update s.transactionsStatus i x)
    (hxe : x.status ≠ .executed) (hxv : x.status ≠ .validated)
    (hadv : (s.transactionsStatus i).incarnation < x.incarnation ∨
      ((s.transactionsStatus i).incarnation = x.incarnation ∧
        ((s.transactionsStatus i).status = .aborting → x.status = .aborting)))
    (hl : l'.Quiet) : StepEffect s s' l l' := by
  refine .of_update hs hxe hxv hadv ?_ ?_ ?_ ?_
  · rintro v rfl; exact hl
  · rintro v rfl; exact hl
  · rintro v flags rfl; exact hl
  · rintro v v' - rfl; exact hl.elim

omit [DecidableEq ω] in
theorem Worker.idle (hl : l = .left ∨ l = .polling) :
    l.Quiet ∧ l.role = .free ∧ l.version = none := by
  rcases hl with rfl | rfl <;> exact ⟨trivial, rfl, rfl⟩

theorem SafeInv.moveIdle (h : SafeInv n s threads) (hl : l = .left ∨ l = .polling)
    (hsize : s'.blockSize = s.blockSize)
    (hlife : LifeInv s'.transactionsStatus s'.transactionsDependents
      (update (fun w => (threads w).role) w .free))
    (hdep : ∀ {b i}, i ∈ s'.transactionsDependents b → b < i) :
    SafeInv n s' (update threads w l) := by
  obtain ⟨hquiet, hrole, hversion⟩ := Worker.idle hl
  refine h.move hsize (by rw [hrole]; exact hlife) hdep ?_ ?_
  · intro v hv
    rw [hversion] at hv
    cases hv
  · rintro v b rfl
    exact hquiet.elim

end Moves

variable {block : Block L V} {n : Nat} {s s' : Scheduler} {notes : Notes}

theorem continueWith_cases {g g' : Shared L V} {l : Worker L V}
    (h : some (Engine.continueWith block g task) = some (g', l)) :
    g' = g ∧ (l = .left ∨ l = nextWorker block task) := by
  unfold Engine.continueWith at h
  split at h
  · cases h; exact ⟨rfl, .inl rfl⟩
  · split at h <;> cases h <;> exact ⟨rfl, .inr rfl⟩

theorem nextTask_of_aborted (fuel : Nat) (hab : s.aborted = true) :
    s.nextTask fuel = (s, none) ∨ s.nextTask fuel = (s, some none) := by
  cases fuel with
  | zero => exact .inl rfl
  | succ fuel => exact .inr (by simp [nextTask, pollTask, hab])

section Calls

variable {threads : ω → Worker L V} {w : ω} {l : Worker L V} {v : TxVersion}

section

variable (h : SafeInv n s threads)

include h

theorem SafeInv.poll (block : Block L V) (hw : threads w = .polling) {r : Poll}
    (hp : PollSpec s s' r) : SafeInv n s' (update threads w (pollWorker block r)) ∧
      StepEffect s s' (threads w) (pollWorker block r) := by
  have hrole : (pollWorker block r).role = pollRole r := by
    rcases r with _ | _ | _ | _ <;> rfl
  have hout := hp.outcome
  constructor
  · refine h.move hp.blockSize ?_ (by rw [hp.dependents]; exact h.dep_lt) ?_ ?_
    · rw [hrole, hp.dependents]
      rcases hp.outcome.status_cases with ⟨hs, hr⟩ | ⟨v, rfl, hr, hs⟩
      · rw [hs, hr]
        exact h.life.drop w
      · rw [hs]
        exact h.life.issue hr w
    · intro v hv
      rcases r with _ | _ | v' | v' <;> cases hv
      · exact h.blockSize ▸ hout.1
      · exact h.blockSize ▸ hout.2.1
    · intro v b hl
      rcases r with _ | _ | v' | v' <;> cases hl
  · rw [hw]
    rcases r with _ | _ | v | v
    · exact .of_status hout (fun _ hl => by cases hl) (fun _ hl => by cases hl)
        (fun _ _ hl => by cases hl) fun _ _ hl => by cases hl
    · exact .of_status hout.1 (fun _ hl => by cases hl) (fun _ hl => by cases hl)
        (fun _ _ hl => by cases hl) fun _ _ hl => by cases hl
    · refine .of_update_quiet hout.2.2 (by simp) (by simp) (.inr ⟨by rw [hout.2.1], ?_⟩) trivial
      rw [hout.2.1]
      intro hx
      cases hx
    · exact .of_status hout.1 (fun _ hl => by cases hl; exact hout.2.2.1)
        (fun _ hl => by cases hl) (fun _ _ hl => by cases hl) fun _ _ hl => by cases hl

theorem SafeInv.stay (hsize : s'.blockSize = s.blockSize)
    (hs : s'.transactionsStatus = s.transactionsStatus)
    (hd : s'.transactionsDependents = s.transactionsDependents)
    (hrole : l.role = (threads w).role ∨ l.role = .free)
    (hbound : ∀ v, l.version = some v → (threads w).version = some v)
    (hblocked : ∀ v b, l = .blocked v b → b < v.txIdx) : SafeInv n s' (update threads w l) := by
  refine h.move hsize ?_ (by rw [hd]; exact h.dep_lt)
    (fun v hv => h.bound (hbound v hv)) hblocked
  rw [hs, hd]
  refine LifeInv.dropped ?_ hrole
  rw [update_eq_self_iff.mpr rfl]
  exact h.life

theorem SafeInv.wait {b : TxIdx} (hw : threads w = .blocked v b) (hl : l = .left ∨ l = .polling)
    (hs : s' = { s with
      transactionsStatus := update s.transactionsStatus v.txIdx
        { s.transactionsStatus v.txIdx with status := .aborting }
      transactionsDependents := update s.transactionsDependents b
        (s.transactionsDependents b ++ [v.txIdx]) }) :
    SafeInv n s' (update threads w l) ∧ StepEffect s s' (threads w) l := by
  subst hs
  have hrole : (fun w => (threads w).role) w = .executing v := by simp only [hw]; rfl
  constructor
  · refine h.moveIdle hl rfl (h.life.wait hrole b) fun {b' i} hi => ?_
    rcases mem_update_append hi with hi | ⟨rfl, rfl⟩
    · exact h.dep_lt hi
    · exact h.blocked_lt hw
  · exact .of_update_quiet rfl (by simp) (by simp) (.inr ⟨rfl, fun _ => rfl⟩) (Worker.idle hl).1

theorem SafeInv.finish {flags : FinishExecFlags} (hw : threads w = .recorded v flags)
    (hl : l = .left ∨ l = nextWorker block task) (hf : FinishSpec s s' v flags task) :
    SafeInv n s' (update threads w l) ∧ StepEffect s s' (threads w) l := by
  have hrole : (fun w => (threads w).role) w = .executing v := by simp only [hw]; rfl
  have hst := h.life.exec_status hrole
  have hl' : l = .left ∨ l = .polling ∨ l = .validating v := by
    rcases hl with hl | hl
    · exact .inl hl
    · rcases hf.validation with ⟨-, rfl, -⟩ | ⟨-, rfl, -⟩
      · exact .inr (.inr hl)
      · exact .inr (.inl hl)
  have hinc : (s'.transactionsStatus v.txIdx).incarnation = v.txIncarnation := by
    rw [hf.status, update_self, hst]
  constructor
  · refine h.move hf.blockSize ?_ ?_ ?_ ?_
    · rw [show l.role = .free by rcases hl' with rfl | rfl | rfl <;> rfl, hf.status, hf.dependents]
      exact (h.life.drain v.txIdx).finish hrole _
    · rw [hf.dependents]
      intro b i hi
      by_cases hb : b = v.txIdx
      · subst hb; simp at hi
      · rw [update_of_ne hb] at hi
        exact h.dep_lt hi
    · intro v' hv'
      rcases hl' with rfl | rfl | rfl <;> cases hv'
      exact h.bound (by rw [hw]; rfl)
    · intro v' b' hb'; rcases hl' with rfl | rfl | rfl <;> cases hb'
  · rw [hw]
    exact
      { finished := by
          intro i hfi
          rcases hf.finished hfi with rfl | ⟨hd, hfi⟩
          · exact .inr ⟨v, flags, rfl, rfl, hinc⟩
          · by_cases hi : i = v.txIdx
            · subst hi; exact .inr ⟨v, flags, rfl, rfl, hinc⟩
            · exact .inl ⟨hfi, by rw [hf.status_other hi, resumed, if_neg hd]⟩
        advance := by
          intro i
          by_cases hi : i = v.txIdx
          · subst hi
            rw [hf.status, update_self, hst]
            exact .inr ⟨rfl, fun hx => by cases hx⟩
          · rw [hf.status_other hi, resumed]
            split
            · exact .inl (Nat.lt_succ_self _)
            · exact .inr ⟨rfl, id⟩
        validating := by
          intro v' hv'
          rcases hl' with rfl | rfl | rfl <;> cases hv'
          exact hinc
        refuted := by intro v' hv'; rcases hl' with rfl | rfl | rfl <;> cases hv'
        recorded := by intro v' _ hv'; rcases hl' with rfl | rfl | rfl <;> cases hv'
        aborting := fun hx => by cases hx }

theorem SafeInv.abort {k : Nat} (hw : threads w = .refuted v) (hfin : s.Finished v.txIdx)
    (hs : s' = { s with
      transactionsStatus := update s.transactionsStatus v.txIdx
        { s.transactionsStatus v.txIdx with status := .aborting }
      numValidated := k }) :
    SafeInv n s' (update threads w (.aborting v)) ∧ StepEffect s s' (threads w) (.aborting v) := by
  subst hs
  constructor
  · refine h.move rfl ?_ h.dep_lt ?_ ?_
    · refine h.life.abort ?_ ?_ w <;> rcases hfin with hx | hx <;> rw [hx] <;> simp
    · intro v' hv'; cases hv'; exact h.bound (by rw [hw]; rfl)
    · intro v' b hb; cases hb
  · rw [hw]
    refine .of_update rfl (by simp) (by simp) (.inr ⟨rfl, fun _ => rfl⟩) (by simp) (by simp)
      (by simp) ?_
    intro v1 v2 h1 _
    cases h1
    exact ⟨hfin, by simp⟩

theorem SafeInv.release (hw : threads w = .finishing v true) (hl : l = .left ∨ l = .polling) :
    SafeInv n (s.readied v.txIdx) (update threads w l) ∧
      StepEffect s (s.readied v.txIdx) (threads w) l := by
  have hrole : (fun w => (threads w).role) w = .aborting v.txIdx := by simp only [hw]; rfl
  constructor
  · exact h.moveIdle hl rfl (h.life.release hrole _) h.dep_lt
  · exact .of_update_quiet
      rfl (by simp) (by simp) (.inl (Nat.lt_succ_self _)) (Worker.idle hl).1

theorem SafeInv.reissue (hw : threads w = .finishing v true)
    (hl : l = .left ∨ l = Engine.start block (.execution
      ⟨v.txIdx, (s.transactionsStatus v.txIdx).incarnation + 1⟩)) :
    SafeInv n (s.reissued v.txIdx) (update threads w l) ∧
      StepEffect s (s.reissued v.txIdx) (threads w) l := by
  have hrole : (fun w => (threads w).role) w = .aborting v.txIdx := by simp only [hw]; rfl
  have hst : (s.reissued v.txIdx).transactionsStatus = update s.transactionsStatus v.txIdx
      ⟨(s.transactionsStatus v.txIdx).incarnation + 1, .executing⟩ := by
    simp [reissued, readied, setReadyStatus, lowerValidation, setStatus]
  constructor
  · refine h.move rfl ?_ h.dep_lt ?_ ?_
    · have hready := h.life.release hrole
        ⟨(s.transactionsStatus v.txIdx).incarnation + 1, .readyToExecute⟩
      have hissue := hready.issue
        (v := ⟨v.txIdx, (s.transactionsStatus v.txIdx).incarnation + 1⟩) (by simp) w
      rw [update_idem _ _ fun w => (threads w).role, update_idem] at hissue
      rw [hst]
      exact hissue.dropped (by rcases hl with rfl | rfl; exacts [.inr rfl, .inl rfl])
    · intro v' hv'
      rcases hl with rfl | rfl <;> cases hv'
      exact h.bound (v := v) (by rw [hw]; rfl)
    · intro v' b' hb'; rcases hl with rfl | rfl <;> cases hb'
  · exact .of_update_quiet hst (by simp) (by simp) (.inl (Nat.lt_succ_self _))
      (by rcases hl with rfl | rfl <;> trivial)

theorem SafeInv.confirm (hw : threads w = .finishing v false) (hl : l = .left ∨ l = .polling)
    (hx : (s.transactionsStatus v.txIdx).status = .executed) (hs : s' = { s with
      transactionsStatus := update s.transactionsStatus v.txIdx
        { s.transactionsStatus v.txIdx with status := .validated }
      numValidated := s.numValidated + 1 }) :
    SafeInv n s' (update threads w l) ∧ StepEffect s s' (threads w) l := by
  subst hs
  constructor
  · exact h.moveIdle hl rfl
      ((h.life.setStatus (h.life.unheld (by rw [hx]; simp) (by rw [hx]; simp)) _).drop w) h.dep_lt
  · rw [hw]
    exact
      { finished := by
          intro i hf
          by_cases hi : i = v.txIdx
          · subst hi; exact .inl ⟨.inl hx, by simp⟩
          · exact .inl ⟨by simpa only [Finished, update_of_ne hi] using hf, by simp [hi]⟩
        advance := by
          intro i
          by_cases hi : i = v.txIdx
          · subst hi
            refine .inr ⟨by simp, fun ha => ?_⟩
            rw [hx] at ha
            cases ha
          · exact .inr ⟨by simp [hi], by simp [hi]⟩
        validating := by intro v' hv'; rcases hl with rfl | rfl <;> cases hv'
        refuted := by intro v' hv'; rcases hl with rfl | rfl <;> cases hv'
        recorded := by intro v' _ hv'; rcases hl with rfl | rfl <;> cases hv'
        aborting := fun hx => by cases hx }

theorem SafeInv.quiet {aborted : Bool} (hl : l.Quiet)
    (hrole : l.role = (threads w).role ∨ l.role = .free)
    (hversion : l.version = (threads w).version ∨ l.version = none) :
    SafeInv n { s with aborted } (update threads w l) ∧
      StepEffect s { s with aborted } (threads w) l := by
  refine ⟨h.stay rfl rfl rfl hrole ?_ ?_, .of_status rfl ?_ ?_ ?_ ?_⟩
  · rintro v hv
    rcases hversion with he | he <;> rw [he] at hv
    · exact hv
    · cases hv
  · rintro v b rfl; exact hl.elim
  · rintro v rfl; exact hl.elim
  · rintro v rfl; exact hl.elim
  · rintro v flags rfl; exact hl.elim
  · rintro v v' - rfl; exact hl.elim

end

variable [DecidableEq L]

/-- Every step keeps `SafeInv`, and does to the statuses what `StepEffect` says. -/
theorem SafeInv.step {g g' : Shared L V} {fuel : Nat} (h : SafeInv n g.scheduler threads)
    (hex : Engine.exec block g (threads w) fuel = some (g', l)) :
    SafeInv n g'.scheduler (update threads w l) ∧
      StepEffect g.scheduler g'.scheduler (threads w) l := by
  obtain ⟨p, hw⟩ : ∃ p, threads w = p := ⟨_, rfl⟩
  have quiet : ∀ {aborted l}, l.Quiet → (l.role = p.role ∨ l.role = .free) →
      (l.version = p.version ∨ l.version = none) →
      SafeInv n { g.scheduler with aborted } (update threads w l) ∧
        StepEffect g.scheduler { g.scheduler with aborted } (threads w) l := hw ▸ h.quiet
  rw [hw] at hex
  cases p with
  | polling =>
    simp only [Engine.exec] at hex
    cases hab : g.scheduler.aborted with
    | false =>
      have hp := nextTask_spec fuel hab
      rcases hn : g.scheduler.nextTask fuel with ⟨s, _ | _ | task⟩
      all_goals
        rw [hn] at hex hp
        cases hex
        exact h.poll block hw hp
    | true =>
      rcases nextTask_of_aborted fuel hab with hn | hn
      all_goals
        rw [hn] at hex
        cases hex
        exact quiet trivial (.inr rfl) (.inr rfl)
  | left => cases hex
  | running v rest readSet =>
    have hversion : (threads w).version = some v := by rw [hw]; rfl
    cases rest with
    | read location next =>
      simp only [Engine.exec] at hex
      split at hex
      · cases hex
        exact quiet trivial (.inl rfl) (.inl rfl)
      · rename_i hr
        cases hex
        exact ⟨h.stay rfl rfl rfl (.inl (by rw [hw]; rfl)) (fun _ hv => hv ▸ hversion)
            (fun _ _ hb => by cases hb; exact readStorage_blocking hr),
          .of_status rfl (fun _ hl => by cases hl) (fun _ hl => by cases hl)
            (fun _ _ hl => by cases hl) fun _ _ _ hl => by cases hl⟩
      · split at hex
        · obtain ⟨rfl, rfl | rfl⟩ := continueWith_cases hex <;>
            exact quiet trivial (.inr rfl) (.inr rfl)
        · cases hex
          exact quiet trivial (.inl rfl) (.inl rfl)
    | done ws =>
      cases hex
      exact ⟨h.stay rfl rfl rfl (.inl (by rw [hw]; rfl)) (fun _ hv => hv ▸ hversion)
          (fun _ _ hb => by cases hb),
        .of_status rfl (fun _ hl => by cases hl) (fun _ hl => by cases hl)
          (fun _ _ hl => by cases hl; exact ⟨ws, readSet, hw⟩) fun _ _ _ hl => by cases hl⟩
    | fail =>
      obtain ⟨rfl, rfl | rfl⟩ := continueWith_cases hex <;>
        exact quiet trivial (.inr rfl) (.inr rfl)
  | blocked v b =>
    simp only [Engine.exec] at hex
    rcases addDependency_cases g.scheduler v.txIdx b with ⟨-, -, hd⟩ | hd
    · rw [hd] at hex
      obtain ⟨rfl, hl⟩ := continueWith_cases hex
      exact h.wait hw hl rfl
    · rw [hd] at hex
      simp only at hex
      split at hex
      · obtain ⟨rfl, rfl | rfl⟩ := continueWith_cases hex <;>
          exact quiet trivial (.inr rfl) (.inr rfl)
      · cases hex
        exact quiet trivial (.inl rfl) (.inl rfl)
  | recorded v flags =>
    have hself : v.txIdx ∉ g.scheduler.transactionsDependents v.txIdx :=
      fun hd => Nat.lt_irrefl _ (h.dep_lt hd)
    have hn : v.txIdx < g.scheduler.blockSize := by
      rw [h.blockSize]; exact h.bound (by rw [hw]; rfl)
    obtain ⟨rfl, hl⟩ := continueWith_cases hex
    exact h.finish hw hl (finishExecution_spec flags hn (h.life.dep_nodup _) hself)
  | validating v =>
    simp only [Engine.exec] at hex
    split at hex
    · cases hex
      exact quiet trivial (.inl rfl) (.inl rfl)
    · cases hex
      exact ⟨h.stay rfl rfl rfl (.inl (by rw [hw]; rfl)) (fun _ hv => by rw [hw]; exact hv)
          (fun _ _ hb => by cases hb),
        .of_status rfl (fun _ hl => by cases hl) (fun _ hl => by cases hl; exact hw)
          (fun _ _ hl => by cases hl) fun _ _ _ hl => by cases hl⟩
  | refuted v =>
    simp only [Engine.exec] at hex
    rcases tryValidationAbort_cases g.scheduler v with ⟨hx, ht⟩ | ⟨hx, ht⟩ | ⟨-, -, ht⟩
    · rw [ht] at hex
      cases hex
      exact h.abort hw (.inl hx) rfl
    · rw [ht] at hex
      cases hex
      exact h.abort hw (.inr hx) rfl
    · rw [ht] at hex
      cases hex
      exact quiet trivial (.inl rfl) (.inl rfl)
  | aborting v =>
    cases hex
    exact quiet trivial (.inl rfl) (.inl rfl)
  | finishing v aborted =>
    simp only [Engine.exec] at hex
    obtain ⟨rfl, hl⟩ := continueWith_cases hex
    have hn : v.txIdx < g.scheduler.blockSize := by
      rw [h.blockSize]; exact h.bound (by rw [hw]; rfl)
    cases aborted with
    | true =>
      rcases finishValidation_aborted g.scheduler v hn with ⟨-, hf⟩ | ⟨-, hf⟩
      · rw [hf] at hl ⊢
        exact h.reissue hw hl
      · rw [hf] at hl ⊢
        exact h.release hw hl
    | false =>
      rcases finishValidation_passed g.scheduler v with ⟨hx, hf⟩ | ⟨-, hf⟩
      · rw [hf] at hl ⊢
        exact h.confirm hw hl hx rfl
      · rw [hf] at hl ⊢
        rcases hl with rfl | rfl <;>
          exact quiet trivial (.inr rfl) (.inr rfl)

end Calls

/-! ## Open validations -/

section Notes

variable {l l' : Worker L V}

omit [DecidableEq ω] in
theorem note_recorded_of_ne {i : TxIdx}
    (h : ∀ v ws readSet, l = .running v (.done ws) readSet → i ≠ v.txIdx) :
    (Engine.note notes l l').recorded i = notes.recorded i := by
  unfold Engine.note
  split
  · exact update_of_ne (h _ _ _ rfl) _ _
  · rfl
  · rfl

omit [DecidableEq ω] in
theorem note_aborts (notes : Notes) (l l' : Worker L V) : (Engine.note notes l l').aborts = notes.aborts ∨
    ∃ v v', l = .refuted v ∧ l' = .aborting v' ∧
      (Engine.note notes l l').aborts = notes.aborts ++ [v] := by
  unfold Engine.note
  split
  · exact .inl rfl
  · exact .inr ⟨_, _, rfl, rfl, rfl⟩
  · exact .inl rfl

end Notes

variable {threads : ω → Worker L V × Option TxIncarnation} {w : ω} {l : Worker L V}

omit [DecidableEq ω] in
/-- A transaction that is finished after a step of `w` was finished before, in the same incarnation,
if somebody has a validation of it open. -/
theorem FreshInv.finished_of_open (heff : StepEffect s s' (threads w).1 l)
    (hok : ∀ v flags, (threads w).1 = .recorded v flags → ∀ w' v',
      ((threads w').1 = .validating v' ∨ (threads w').1 = .refuted v') → v'.txIdx ≠ v.txIdx)
    {w' : ω} {v : TxVersion}
    (hv : (threads w').1 = .validating v ∨ (threads w').1 = .refuted v)
    (hf : s'.Finished v.txIdx) : s.Finished v.txIdx ∧
      (s'.transactionsStatus v.txIdx).incarnation = (s.transactionsStatus v.txIdx).incarnation := by
  rcases heff.finished hf with h | ⟨v1, flags, h1, he, -⟩
  · exact h
  · exact absurd he (hok v1 flags h1 w' v hv)

/-- A step that does not finish an execution under an open validation. -/
theorem FreshInv.step (h : FreshInv n s notes threads) (heff : StepEffect s s' (threads w).1 l)
    (hsafe : SafeInv n s' (update (fun w => (threads w).1) w l))
    (hok : ∀ v flags, (threads w).1 = .recorded v flags → ∀ w' v',
      ((threads w').1 = .validating v' ∨ (threads w').1 = .refuted v') → v'.txIdx ≠ v.txIdx) :
    FreshInv n s' (Engine.note notes (threads w).1 l)
      (update threads w (l, Engine.examine notes (threads w).2 (threads w).1)) where
  safe := by
    have he : (fun w' => (update threads w
        (l, Engine.examine notes (threads w).2 (threads w).1) w').1) =
        update (fun w => (threads w).1) w l := by
      funext w'
      by_cases hw : w' = w
      · subst hw; simp
      · simp [hw]
    rw [he]
    exact hsafe
  recorded := by
    intro w' v flags hw'
    by_cases hw : w' = w
    · subst hw
      rw [update_self] at hw'
      obtain ⟨ws, readSet, hl⟩ := heff.recorded hw'
      rw [hl]
      simp [Engine.note]
    · rw [update_of_ne hw] at hw'
      rw [note_recorded_of_ne, h.recorded hw']
      rintro v1 ws readSet h1 he
      have hrole : (fun w => (threads w).1.role) w = .executing v1 := by simp only [h1]; rfl
      have hrole' : (fun w => (threads w).1.role) w' = .executing v := by simp only [hw']; rfl
      exact hw (h.safe.life.exec_unique hrole' hrole he)
  finished := by
    intro i hf
    rcases heff.finished hf with ⟨hold, hinc⟩ | ⟨v, flags, hl, rfl, hinc⟩
    · rw [note_recorded_of_ne, h.finished hold, hinc]
      rintro v ws readSet hl rfl
      have := h.safe.life.exec_status (w := w) (by simp only [hl]; rfl)
      rcases hold with hx | hx <;> rw [this] at hx <;> cases hx
    · rw [note_recorded_of_ne, h.recorded hl, hinc]
      rintro v1 ws readSet h1 -
      rw [h1] at hl
      cases hl
  held := by
    intro w' v hw' hf
    by_cases hw : w' = w
    · subst hw
      rw [update_self] at hw'
      rcases hw' with hl | hl
      · exact heff.validating hl
      · have hval : (threads w').1 = .validating v ∨ (threads w').1 = .refuted v :=
          .inl (heff.refuted hl)
        obtain ⟨hold, hinc⟩ := FreshInv.finished_of_open heff hok hval hf
        rw [hinc, h.held hval hold]
    · rw [update_of_ne hw] at hw'
      obtain ⟨hold, hinc⟩ := FreshInv.finished_of_open heff hok hw' hf
      rw [hinc, h.held hw' hold]
  examined := by
    intro w' v hw' hf
    by_cases hw : w' = w
    · subst hw
      rw [update_self] at hw' ⊢
      have hval := heff.refuted hw'
      obtain ⟨hold, -⟩ := FreshInv.finished_of_open heff hok (.inl hval) hf
      rw [hval]
      show notes.recorded v.txIdx = _
      rw [h.finished hold, h.held (.inl hval) hold]
    · rw [update_of_ne hw] at hw' ⊢
      exact h.examined hw' (FreshInv.finished_of_open heff hok (.inr hw') hf).1
  aborts := by
    have hkeep : ∀ {v}, v ∈ notes.aborts →
        v.txIncarnation < (s'.transactionsStatus v.txIdx).incarnation ∨
        (v.txIncarnation = (s'.transactionsStatus v.txIdx).incarnation ∧
          (s'.transactionsStatus v.txIdx).status = .aborting) := by
      intro v hv
      rcases h.aborts hv with hlt | ⟨heq, hab⟩ <;> rcases heff.advance v.txIdx with hi | ⟨hi, ha⟩
      · exact .inl (hlt.trans hi)
      · exact .inl (hi ▸ hlt)
      · exact .inl (heq ▸ hi)
      · exact .inr ⟨heq.trans hi, ha hab⟩
    intro v hv
    rcases note_aborts notes (threads w).1 l with
      he | ⟨v1, v2, h1, h2, he⟩ <;> rw [he] at hv
    · exact hkeep hv
    · rcases List.mem_append.mp hv with hv | hv
      · exact hkeep hv
      · rw [List.mem_singleton.mp hv]
        obtain ⟨hfin, hst⟩ := heff.aborting h1 h2
        rw [hst]
        exact .inr ⟨(h.held (.inr h1) hfin).symm, rfl⟩
  once := by
    rcases note_aborts notes (threads w).1 l with
      he | ⟨v1, v2, h1, h2, he⟩ <;> rw [he]
    · exact h.once
    · obtain ⟨hfin, -⟩ := heff.aborting h1 h2
      refine List.nodup_append.mpr ⟨h.once, List.nodup_singleton _, ?_⟩
      rintro a ha b hb rfl
      rw [List.mem_singleton.mp hb] at ha
      rcases h.aborts ha with hlt | ⟨-, hab⟩
      · rw [h.held (.inr h1) hfin] at hlt
        exact Nat.lt_irrefl _ hlt
      · rcases hfin with hx | hx <;> rw [hx] at hab <;> cases hab

/-! ## The whole run -/

variable [DecidableEq L]

/-- In a run in which no execution finishes while a validation of the same transaction is open, only
the validated incarnation is aborted. -/
theorem onlyExaminedAborted_of_noOpenValidation {c : ObservedConfig L V ω}
    (h : Reach ((Engine.observed block).system ω) NoOpenValidation c) : OnlyExaminedAborted c := by
  have hinv : FreshInv block.txs.length c.shared.1.scheduler c.shared.2 c.threads := by
    refine Program.invariant (I := fun g threads =>
      FreshInv block.txs.length g.1.scheduler g.2 threads) ?_ ?_ h
    · have hnf : ∀ i, ¬ (Scheduler.new block.txs.length).Finished i := by
        rintro i (h | h) <;> cases h
      exact
        { safe :=
            { blockSize := rfl
              life := (SchedInv.new (n := block.txs.length) _ fun _ => rfl).cycle.life
              dep_lt := fun h => by cases h
              bound := fun h => by cases h
              blocked_lt := fun h => by cases h }
          recorded := fun h => by cases h
          finished := fun h => absurd h (hnf _)
          held := fun _ h => absurd h (hnf _)
          examined := fun _ h => absurd h (hnf _)
          aborts := fun h => by cases h
          once := List.nodup_nil }
    · rintro g threads w fuel g' l hI hok hex
      obtain ⟨⟨g1, l1⟩, hex1, he⟩ := Option.map_eq_some_iff.mp hex
      cases he
      obtain ⟨hsafe, heff⟩ := hI.safe.step (w := w) hex1
      refine hI.step heff hsafe fun v flags hw w' v' hw' he => ?_
      simp only [NoOpenValidation, hw, Worker.finishes] at hok
      refine hok w' ?_
      rcases hw' with hw' | hw' <;> rw [hw', ← he] <;> rfl
  refine ⟨fun w v examined hw ht => ?_, hinv.once⟩
  have hw1 : (c.threads w).1 = .refuted v := by rw [hw]
  have hfin : c.shared.1.scheduler.Finished v.txIdx ∧
      (c.shared.1.scheduler.tryValidationAbort v).1.transactionsStatus v.txIdx =
        ⟨(c.shared.1.scheduler.transactionsStatus v.txIdx).incarnation, .aborting⟩ := by
    rcases tryValidationAbort_cases c.shared.1.scheduler v with ⟨hx, he⟩ | ⟨hx, he⟩ | ⟨-, -, he⟩
    · rw [he]; exact ⟨.inl hx, by simp⟩
    · rw [he]; exact ⟨.inr hx, by simp⟩
    · rw [he] at ht; cases ht
  refine ⟨by rw [hfin.2, hinv.held (.inr hw1) hfin.1], ?_⟩
  have := hinv.examined hw1 hfin.1
  rwa [hw] at this

/-- The condition allows re-executions: the run in which the second transaction of `pairBlock` is
aborted and executed again meets it. -/
theorem onlyExaminedAborted_pair : ∃ c : ObservedConfig Nat Nat (Fin 2),
    Reach ((Engine.observed pairBlock).system (Fin 2)) NoOpenValidation c ∧
    c.shared.2.aborts = [⟨1, 0⟩] ∧ OnlyExaminedAborted c := by
  obtain ⟨c, hc, hp⟩ := exists_reach_of_run
    (S := (Engine.observed pairBlock).system (Fin 2))
    (fun c a (h : decide (NoOpenValidation c a) = true) => of_decide_eq_true h) pairRun (p := fun c => c.shared.2.aborts = [⟨1, 0⟩])
    (by decide +kernel)
  exact ⟨c, hc, of_decide_eq_true hp, onlyExaminedAborted_of_noOpenValidation hc⟩

/-- Both workers find the first incarnation of the second transaction invalid. The first one aborts
it and executes it again before the second one calls `try_validation_abort`. -/
def staleRun : List (Fin 2 × Nat) :=
  let first : Fin 2 := ⟨0, Nat.zero_lt_two⟩
  let second : Fin 2 := ⟨1, Nat.one_lt_two⟩
  [(first, 1), (second, 1), (second, 0), (second, 0), (second, 0), (first, 0), (first, 0), (first, 0),
    (first, 0), (first, 1), (first, 0), (second, 0), (first, 0), (first, 0), (first, 0), (first, 0),
    (first, 0), (first, 0)]

/-- A failing validation of the first incarnation aborts the second one, which is valid. -/
theorem stale_validation_aborts : ∃ c : ObservedConfig Nat Nat (Fin 2),
    Reachable ((Engine.observed pairBlock).system (Fin 2)) c ∧
    c.shared.1.memory.validateReadLocations 1 = true ∧ ¬ OnlyExaminedAborted c := by
  obtain ⟨c, hc, hp⟩ := exists_reachable_of_run
    (S := (Engine.observed pairBlock).system (Fin 2)) staleRun
    (p := fun c => c.shared.1.memory.validateReadLocations 1 &&
      match (c.threads 1).1 with
      | .refuted v => (c.shared.1.scheduler.tryValidationAbort v).2 &&
          decide ((c.shared.1.scheduler.tryValidationAbort v).1.transactionsStatus v.txIdx ≠
            ⟨v.txIncarnation, .aborting⟩)
      | _ => false)
    (by decide +kernel)
  obtain ⟨hvalid, hp⟩ := Bool.and_eq_true_iff.mp hp
  refine ⟨c, hc, hvalid, fun hgood => ?_⟩
  rcases hw : c.threads 1 with ⟨l, examined⟩
  rw [hw] at hp
  cases l with
  | refuted v =>
    obtain ⟨ht, hne⟩ := Bool.and_eq_true_iff.mp hp
    exact of_decide_eq_true hne (hgood.aborted 1 v examined hw ht).1
  | _ => cases hp

end CongestionControl.Pevm
