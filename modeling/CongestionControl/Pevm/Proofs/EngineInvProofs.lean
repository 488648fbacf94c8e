import CongestionControl.Pevm.Proofs.MvMemoryProofs
import CongestionControl.Pevm.Proofs.SchedInvProofs

/-!
# Proofs: the steps of the workers keep the invariant of the engine

`Inv.of_sched` covers every step that leaves the memory alone; `record` and
`convert_writes_to_estimates` are treated on their own.
-/

namespace CongestionControl.Pevm

open Function (update update_eq_self update_eq_self_iff update_of_ne update_self)
open Transition Scheduler VersionMap

variable {L V ω : Type} {v : TxVersion}

section Threads

variable [DecidableEq ω] {threads : ω → Worker L V}

theorem live_congr {s s' : Scheduler} {w : ω} {l : Worker L V}
    (h : ∀ j, s'.Finished j ∨ l.Shows j ↔ s.Finished j ∨ (threads w).Shows j) :
    Live s' (update threads w l) = Live s threads := by
  funext j
  unfold Live
  rw [exists_update, exists_split w, ← or_assoc, ← or_assoc, h j]

end Threads

variable [DecidableEq L] [DecidableEq ω] {block : Block L V} {g : Shared L V} {threads : ω → Worker L V}
  {records : TxIdx → Record L V} {s' : Scheduler} {w : ω} {l : Worker L V}

/-- A step that leaves the memory alone: it keeps the invariant if its call keeps the bookkeeping
and no transaction loses a validation it needs. -/
theorem Inv.of_sched (h : Inv block g threads records)
    (hrun : s'.aborted = false)
    (hsched : SchedInv block.txs.length s' (update (fun w => (threads w).role) w l.role))
    (hlive : ∀ j, s'.Finished j ∨ l.Shows j ↔ g.scheduler.Finished j ∨ (threads w).Shows j)
    (hinc : ∀ j, (g.scheduler.transactionsStatus j).incarnation ≤
      (s'.transactionsStatus j).incarnation)
    (hready : ∀ j, (s'.transactionsStatus j).status = .readyToExecute →
      s'.transactionsStatus j = g.scheduler.transactionsStatus j ∨
      (g.scheduler.transactionsStatus j).incarnation < (s'.transactionsStatus j).incarnation)
    (hbound : ∀ v, l.version = some v → v.txIdx < block.txs.length)
    (hsound : l.Sound block g.memory records)
    (hvalid : ∀ i, i < block.txs.length → s'.Finished i →
      (g.scheduler.Finished i → g.memory.validateReadLocations i = true ∨
        g.scheduler.validationIdx ≤ i ∨ (threads w).Pends i) →
      g.memory.validateReadLocations i = true ∨ s'.validationIdx ≤ i ∨ l.Pends i)
    (hleft : l = .left → block.txs.length ≤ s'.executionIdx ∧
      block.txs.length ≤ s'.validationIdx ∧
      block.txs.length - s'.minValidationIdx ≤ s'.numValidated) :
    Inv block { g with scheduler := s' } (update threads w l) records where
  running := hrun
  sched := by rw [map_update Worker.role]; exact hsched
  mem := by rw [live_congr hlive]; exact h.mem
  published_le := fun j => (h.published_le j).trans (Nat.succ_le_succ (hinc j))
  published_ready := by
    intro j hj
    rcases hready j hj with he | hlt
    · show (records j).published ≤ (s'.transactionsStatus j).incarnation
      rw [he] at hj ⊢
      exact h.published_ready hj
    · exact (h.published_le j).trans hlt
  outside := h.outside
  bound := by
    intro w' v hv
    by_cases hw : w' = w
    · subst hw; exact hbound v (by simpa using hv)
    · exact h.bound (by rwa [update_of_ne hw] at hv)
  sound := by
    intro w'
    by_cases hw : w' = w
    · subst hw; simpa using hsound
    · rw [update_of_ne hw]; exact h.sound w'
  valid := by
    intro i hi hf
    by_cases hother : ∃ w', w' ≠ w ∧ (threads w').Pends i
    · exact .inr (.inr (exists_update.mpr (.inr hother)))
    have hold : g.scheduler.Finished i → g.memory.validateReadLocations i = true ∨
        g.scheduler.validationIdx ≤ i ∨ (threads w).Pends i := by
      intro hfi
      rcases h.valid hi hfi with hv | hv | hv
      · exact .inl hv
      · exact .inr (.inl hv)
      · exact .inr (.inr (((exists_split w).mp hv).resolve_right hother))
    rcases hvalid i hi hf hold with hv | hv | hv
    · exact .inl hv
    · exact .inr (.inl hv)
    · exact .inr (.inr (exists_update.mpr (.inl hv)))
  done := by
    intro hall
    exact hleft (by simpa using hall w)

theorem Inv.of_local (h : Inv block g threads records)
    (hrole : l.role = (threads w).role)
    (hshows : ∀ j, l.Shows j ↔ (threads w).Shows j)
    (hbound : ∀ v, l.version = some v → v.txIdx < block.txs.length)
    (hsound : l.Sound block g.memory records)
    (hvalid : ∀ i, g.scheduler.Finished i → (threads w).Pends i →
      g.memory.validateReadLocations i = true ∨ l.Pends i)
    (hleft : l ≠ .left) : Inv block g (update threads w l) records := by
  refine h.of_sched h.running ?_ (fun j => by rw [hshows]) (fun j => le_rfl)
    (fun j _ => .inl rfl) hbound hsound ?_ fun he => absurd he hleft
  · rw [hrole, update_eq_self_iff.mpr rfl]
    exact h.sched
  · intro i _ hf hold
    rcases hold hf with hv | hv | hv
    · exact .inl hv
    · exact .inr (.inl hv)
    · exact (hvalid i hf hv).imp id .inr

def pollWorker (block : Block L V) : Poll → Worker L V
  | .again => .polling
  | .done none => .left
  | .done (some task) => Engine.start block task

omit [DecidableEq L] in
theorem sound_start {m : MvMemory L V} (h : (records v.txIdx).published ≤ v.txIncarnation) :
    (Engine.start block (.execution v)).Sound block m records :=
  ⟨h, [], rfl, List.nodup_nil, fun _ hr => absurd hr List.not_mem_nil, .start⟩

theorem Inv.poll (h : Inv block g threads records) (hw : threads w = .polling) {r : Poll}
    (hp : PollSpec g.scheduler s' r) :
    Inv block { g with scheduler := s' } (update threads w (pollWorker block r)) records := by
  have hrole : (pollWorker block r).role = pollRole r := by
    rcases r with _ | _ | _ | _ <;> rfl
  have hshows : ∀ j, ¬ (pollWorker block r).Shows j := by
    rcases r with _ | _ | _ | _ <;> exact fun _ hs => hs
  refine h.of_sched (hp.aborted.trans h.running) ?_ ?_ ?_ ?_ ?_ ?_ ?_ ?_
  · rw [hrole]
    exact h.sched.poll hp (by rw [hw]; rfl)
  · intro j
    rw [hp.outcome.finished_iff, hw]
    exact or_congr_right (iff_of_false (hshows j) id)
  · intro j
    rcases hp.outcome.status_cases with ⟨hs, -⟩ | ⟨v, -, hr, hs⟩
    · rw [hs]
    · by_cases hj : j = v.txIdx
      · subst hj; rw [hs, hr, update_self]
      · rw [hs, update_of_ne hj]
  · intro j hj
    rcases hp.outcome.status_cases with ⟨hs, -⟩ | ⟨v, -, hr, hs⟩
    · rw [hs]; exact .inl rfl
    · by_cases hjv : j = v.txIdx
      · subst hjv; rw [hs, update_self] at hj; cases hj
      · rw [hs, update_of_ne hjv]; exact .inl rfl
  · intro v hv
    have hout := hp.outcome
    rcases r with _ | _ | v' | v' <;> cases hv
    · exact h.sched.blockSize ▸ hout.1
    · exact h.sched.blockSize ▸ hout.2.1
  · have hout := hp.outcome
    rcases r with _ | _ | v | v
    · exact trivial
    · exact trivial
    · refine sound_start ?_
      have := h.published_ready (by rw [hout.2.1])
      rwa [hout.2.1] at this
    · exact trivial
  · intro i hi hf hold
    rcases hold ((hp.outcome.finished_iff i).mp hf) with hv | hv | hv
    · exact .inl hv
    · by_cases hle : s'.validationIdx ≤ i
      · exact .inr (.inl hle)
      -- The validation index has passed `i`: its validation task is in our hands.
      rcases hp.validation_skip i hv (by omega) (by rw [h.sched.blockSize]; exact hi) with
        hx | hx | ⟨k, rfl⟩
      · rcases hf with hf | hf <;> rw [hx] at hf <;> cases hf
      · rcases hf with hf | hf <;> rw [hx] at hf <;> cases hf
      · exact .inr (.inr rfl)
    · rw [hw] at hv; exact hv.elim
  · intro hl
    have hout := hp.outcome
    rcases r with _ | _ | v | v <;> cases hl
    obtain ⟨-, h1, h2, h3⟩ := hout
    rw [hp.blockSize, h.sched.blockSize] at h1 h2 h3
    exact ⟨h1, h2, h3⟩

theorem Inv.wait (h : Inv block g threads records) {b : TxIdx} (hw : threads w = .blocked v b)
    (hb : ¬ g.scheduler.Finished b) :
    Inv block { g with scheduler := { g.scheduler with
      transactionsStatus := update g.scheduler.transactionsStatus v.txIdx
        { g.scheduler.transactionsStatus v.txIdx with status := .aborting }
      transactionsDependents := update g.scheduler.transactionsDependents b
        (g.scheduler.transactionsDependents b ++ [v.txIdx]) } }
      (update threads w .polling) records := by
  have hrole : (fun w => (threads w).role) w = .executing v := by simp only [hw]; rfl
  have hst := h.sched.cycle.life.exec_status hrole
  have hsound := h.sound w
  rw [hw] at hsound
  refine h.of_sched h.running
    (h.sched.wait hrole hb hsound.2 (h.bound (by rw [hw]; rfl))) ?_ ?_ ?_ ?_ trivial ?_ ?_
  · intro j
    rw [hw]
    refine or_congr_left ⟨fun hf => (finished_of_update rfl (by simp) (by simp) hf).2, fun hf => ?_⟩
    have hj : j ≠ v.txIdx := by
      rintro rfl; rcases hf with hf | hf <;> rw [hst] at hf <;> cases hf
    simpa only [Finished, update_of_ne hj] using hf
  · intro j
    by_cases hj : j = v.txIdx
    · subst hj; simp
    · simp [hj]
  · intro j hj
    by_cases hjv : j = v.txIdx
    · subst hjv; simp at hj
    · exact .inl (by simp [hjv])
  · intro v' hv'; cases hv'
  · intro i _ hf hold
    rcases hold (finished_of_update rfl (by simp) (by simp) hf).2 with hv | hv | hv
    · exact .inl hv
    · exact .inr (.inl hv)
    · rw [hw] at hv; exact hv.elim
  · intro hl; cases hl

def nextWorker (block : Block L V) : Option Task → Worker L V
  | some task => Engine.start block task
  | none => .polling

section

variable (h : Inv block g threads records)

include h

theorem Inv.finish {flags : FinishExecFlags} {task : Option Task}
    (hw : threads w = .recorded v flags) (hf : FinishSpec g.scheduler s' v flags task) :
    Inv block { g with scheduler := s' } (update threads w (nextWorker block task)) records := by
  have hrole : (fun w => (threads w).role) w = .executing v := by simp only [hw]; rfl
  have hn := h.bound (by rw [hw]; rfl)
  -- The worker polls again, or validates the transaction at once.
  have hnext : nextWorker block task = .polling ∨
      nextWorker block task = (.validating v : Worker L V) := by
    rcases hf.validation with ⟨-, rfl, -⟩ | ⟨-, rfl, -⟩
    · exact .inr rfl
    · exact .inl rfl
  have hfin : s'.Finished v.txIdx := by simp [Finished, hf.status]
  have hidx : s'.validationIdx ≤ g.scheduler.validationIdx := by
    rcases hf.validation with ⟨-, -, hx⟩ | ⟨-, -, hx⟩
    · rw [hx]; split
      · exact Nat.min_le_left _ _
      · exact le_rfl
    · exact hx.le
  refine h.of_sched (hf.aborted.trans h.running) ?_ ?_ ?_ ?_ ?_ ?_ ?_ ?_
  · have : (nextWorker block task).role = .free := by rcases hnext with hl | hl <;> rw [hl] <;> rfl
    rw [this]
    exact h.sched.finish hrole hf
  · intro j
    have hno : ¬ (nextWorker block task).Shows j := by
      rcases hnext with hl | hl <;> rw [hl] <;> exact id
    rw [hw]
    constructor
    · rintro (hj | hj)
      · exact (hf.finished hj).elim (fun he => .inr he.symm) fun hj => .inl hj.2
      · exact absurd hj hno
    · rintro (hj | hj)
      · refine .inl ?_
        by_cases hjv : j = v.txIdx
        · exact hjv ▸ hfin
        · have hd : j ∉ g.scheduler.transactionsDependents v.txIdx := by
            intro hd
            have := h.sched.cycle.life.dep_status hd
            rcases hj with hj | hj <;> rw [hj] at this <;> cases this
          simpa only [Finished, hf.status_other hjv, resumed, if_neg hd] using hj
      · exact .inl ((show v.txIdx = j from hj) ▸ hfin)
  · intro j
    by_cases hj : j = v.txIdx
    · subst hj; rw [hf.status, update_self]
    · rw [hf.status_other hj, resumed]
      split
      · exact Nat.le_succ _
      · exact le_rfl
  · intro j hj
    by_cases hjv : j = v.txIdx
    · subst hjv; rw [hf.status, update_self] at hj; cases hj
    · rw [hf.status_other hjv, resumed]
      split
      · exact .inr (Nat.lt_succ_self _)
      · exact .inl rfl
  · intro v' hv'
    rcases hnext with hl | hl <;> rw [hl] at hv' <;> cases hv'
    exact hn
  · rcases hnext with hl | hl <;> rw [hl] <;> exact trivial
  · intro i _ hfi hold
    rcases hf.finished hfi with rfl | ⟨-, hfi⟩
    · rcases hf.validation with ⟨-, rfl, -⟩ | ⟨hle, -, hx⟩
      · exact .inr (.inr rfl)
      · exact .inr (.inl (hx.le.trans hle))
    · rcases hold hfi with hv | hv | hv
      · exact .inl hv
      · exact .inr (.inl (hidx.trans hv))
      · -- New locations were written below `i`: the validation index goes back.
        rw [hw] at hv
        have hlt := Nat.succ_le_of_lt hv.2
        rcases hf.validation with ⟨-, -, hx⟩ | ⟨hle, -, hx⟩
        · rw [hv.1, if_pos rfl] at hx
          exact .inr (.inl (by omega))
        · exact .inr (.inl (by omega))
  · intro hl
    rcases hnext with hl' | hl' <;> rw [hl'] at hl <;> cases hl

theorem Inv.abort {k : Nat} (hw : threads w = .refuted v)
    (hk : ((g.scheduler.transactionsStatus v.txIdx).status = .executed ∧
        k = g.scheduler.numValidated) ∨
      ((g.scheduler.transactionsStatus v.txIdx).status = .validated ∧
        k = g.scheduler.numValidated - 1)) :
    Inv block { g with scheduler := { g.scheduler with
      transactionsStatus := update g.scheduler.transactionsStatus v.txIdx
        { g.scheduler.transactionsStatus v.txIdx with status := .aborting }
      numValidated := k } } (update threads w (.aborting v)) records := by
  have hrole : (fun w => (threads w).role) w = .free := by simp only [hw]; rfl
  have hn := h.bound (by rw [hw]; rfl)
  have hfin : g.scheduler.Finished v.txIdx := hk.imp And.left And.left
  refine h.of_sched h.running (h.sched.abort hrole hfin hn hk) ?_ ?_ ?_ ?_ trivial ?_ ?_
  · intro j
    rw [hw]
    constructor
    · rintro (hj | hj)
      · exact .inl (finished_of_update rfl (by simp) (by simp) hj).2
      · exact .inl ((show v.txIdx = j from hj) ▸ hfin)
    · rintro (hj | hj)
      · by_cases hjv : j = v.txIdx
        · exact .inr hjv.symm
        · exact .inl (by simpa only [Finished, update_of_ne hjv] using hj)
      · exact hj.elim
  · intro j
    by_cases hj : j = v.txIdx
    · subst hj; simp
    · simp [hj]
  · intro j hj
    by_cases hjv : j = v.txIdx
    · subst hjv; simp at hj
    · exact .inl (by simp [hjv])
  · intro v' hv'; cases hv'; exact hn
  · intro i _ hf hold
    obtain ⟨hne, hf'⟩ := finished_of_update rfl (by simp) (by simp) hf
    rcases hold hf' with hv | hv | hv
    · exact .inl hv
    · exact .inr (.inl hv)
    · rw [hw] at hv; exact absurd hv.symm hne
  · intro hl; cases hl

section

variable (hw : threads w = .finishing v true)

include hw

theorem Inv.of_release {x : TxStatus} (hrun : s'.aborted = false)
    (hsched : SchedInv block.txs.length s' (update (fun w => (threads w).role) w l.role))
    (hs : s'.transactionsStatus = update g.scheduler.transactionsStatus v.txIdx x)
    (hinc : x.incarnation = (g.scheduler.transactionsStatus v.txIdx).incarnation + 1)
    (hxe : x.status ≠ .executed) (hxv : x.status ≠ .validated)
    (hidx : s'.validationIdx = min g.scheduler.validationIdx (v.txIdx + 1))
    (hshows : ∀ j, ¬ l.Shows j) (hbound : ∀ v', l.version = some v' → v'.txIdx = v.txIdx)
    (hsound : l.Sound block g.memory records) (hleft : l ≠ .left) :
    Inv block { g with scheduler := s' } (update threads w l) records := by
  have hrole : (fun w => (threads w).role) w = .aborting v.txIdx := by simp only [hw]; rfl
  have hst := h.sched.cycle.life.abort_status hrole
  refine h.of_sched hrun hsched ?_ ?_ ?_ ?_ hsound ?_ fun he => absurd he hleft
  · intro j
    rw [hw]
    refine (or_iff_left (hshows j)).trans (Iff.trans ?_ (or_iff_left id).symm)
    refine ⟨fun hf => (finished_of_update hs hxe hxv hf).2, fun hf => ?_⟩
    have hj : j ≠ v.txIdx := by
      rintro rfl; rcases hf with hf | hf <;> rw [hst] at hf <;> cases hf
    simpa only [Finished, hs, update_of_ne hj] using hf
  · intro j
    by_cases hj : j = v.txIdx
    · subst hj; rw [hs, update_self, hinc]; exact Nat.le_succ _
    · rw [hs, update_of_ne hj]
  · intro j _
    by_cases hj : j = v.txIdx
    · subst hj; rw [hs, update_self, hinc]; exact .inr (Nat.lt_succ_self _)
    · rw [hs, update_of_ne hj]; exact .inl rfl
  · intro v' hv'
    rw [hbound v' hv']
    exact h.bound (by rw [hw]; rfl)
  · intro i _ hf hold
    rcases hold (finished_of_update hs hxe hxv hf).2 with hv | hv | hv
    · exact .inl hv
    · exact .inr (.inl (by omega))
    · rw [hw] at hv
      have hlt := Nat.succ_le_of_lt hv
      exact .inr (.inl (by omega))

theorem Inv.release (he : g.scheduler.executionIdx ≤ v.txIdx) :
    Inv block { g with scheduler := g.scheduler.readied v.txIdx } (update threads w .polling)
      records := by
  have hrole : (fun w => (threads w).role) w = .aborting v.txIdx := by simp only [hw]; rfl
  exact h.of_release hw h.running (h.sched.release hrole he) rfl rfl (by simp) (by simp) rfl
    (fun _ hj => hj) (fun _ hv => by cases hv) trivial (by simp)

theorem Inv.reissue :
    Inv block { g with scheduler := g.scheduler.reissued v.txIdx }
      (update threads w (Engine.start block (.execution
        ⟨v.txIdx, (g.scheduler.transactionsStatus v.txIdx).incarnation + 1⟩))) records := by
  have hrole : (fun w => (threads w).role) w = .aborting v.txIdx := by simp only [hw]; rfl
  refine h.of_release
    (x := ⟨(g.scheduler.transactionsStatus v.txIdx).incarnation + 1, .executing⟩) hw h.running
    (h.sched.reissue hrole) ?_ rfl (by simp) (by simp) rfl (fun _ hj => hj)
    (fun _ hv => by cases hv; rfl) (sound_start (h.published_le v.txIdx)) (by simp [Engine.start])
  simp [reissued, readied, setReadyStatus, lowerValidation, setStatus]

end

theorem Inv.confirm (hw : threads w = .finishing v false)
    (hx : (g.scheduler.transactionsStatus v.txIdx).status = .executed) :
    Inv block { g with scheduler := { g.scheduler with
      transactionsStatus := update g.scheduler.transactionsStatus v.txIdx
        { g.scheduler.transactionsStatus v.txIdx with status := .validated }
      numValidated := g.scheduler.numValidated + 1 } } (update threads w .polling) records := by
  have hrole : (fun w => (threads w).role) w = .free := by simp only [hw]; rfl
  have hn := h.bound (by rw [hw]; rfl)
  have hfin : ∀ j, Finished { g.scheduler with
      transactionsStatus := update g.scheduler.transactionsStatus v.txIdx
        { g.scheduler.transactionsStatus v.txIdx with status := .validated }
      numValidated := g.scheduler.numValidated + 1 } j ↔ g.scheduler.Finished j := by
    intro j
    by_cases hj : j = v.txIdx
    · subst hj; simp [Finished, hx]
    · simp only [Finished, update_of_ne hj]
  refine h.of_sched h.running ?_ ?_ ?_ ?_ (fun _ hv => by cases hv) trivial ?_
    (fun hl => by cases hl)
  · rw [show (Worker.polling : Worker L V).role = (fun w => (threads w).role) w from hrole.symm,
      update_eq_self]
    exact h.sched.confirm hx hn
  · intro j
    rw [hfin, hw]
    rfl
  · intro j
    by_cases hj : j = v.txIdx
    · subst hj; simp
    · simp [hj]
  · intro j hj
    by_cases hjv : j = v.txIdx
    · subst hjv; simp at hj
    · exact .inl (by simp [hjv])
  · intro i _ hf hold
    rcases hold ((hfin i).mp hf) with hv | hv | hv
    · exact .inl hv
    · exact .inr (.inl hv)
    · rw [hw] at hv; exact hv.elim

end

end CongestionControl.Pevm
