import CongestionControl.Pevm.Proofs.EngineStepProofs

/-!
# Proofs: the Block-STM engine is serializable

Once every worker has left, the invariant of the engine says that all transactions are validated
with valid read sets, and valid read sets make the memory the result of a sequential execution.
-/

namespace CongestionControl.Pevm

open Function (update)
open Transition Scheduler VersionMap MvMemory

variable {L V ω : Type}

/-- With no worker at work and nothing left to execute, every transaction is finished: the lowest
one that waits would wait for an unfinished lower one. -/
theorem SchedInv.all_finished {n : Nat} {s : Scheduler} {role : ω → Role} (h : SchedInv n s role)
    (hfree : ∀ w, role w = .free) (he : n ≤ s.executionIdx) : ∀ i, i < n → s.Finished i := by
  intro i
  induction i using Nat.strong_induction_on with
  | _ i ih =>
    intro hi
    cases hst : (s.transactionsStatus i).status with
    | readyToExecute => exact absurd (h.ready hi hst) (by omega)
    | executing =>
      obtain ⟨w, hw⟩ := (h.cycle.owned i).executing hst
      rw [hfree w] at hw
      cases hw
    | executed => exact .inl hst
    | validated => exact .inr hst
    | aborting =>
      rcases (h.cycle.owned i).aborting hst with ⟨b, hb⟩ | ⟨w, hw⟩
      · have hlt := (h.dep_lt hb).1
        exact absurd (ih b hlt (Nat.lt_trans hlt hi)) (h.dep_wait hb)
      · rw [hfree w] at hw
        cases hw

theorem SchedInv.all_validated {n : Nat} {s : Scheduler} {role : ω → Role} (h : SchedInv n s role)
    (hfin : ∀ i, i < n → s.Finished i) (hnum : n - s.minValidationIdx ≤ s.numValidated) :
    ∀ i, i < n → (s.transactionsStatus i).status = .validated := by
  intro i hi
  have hmin : s.minValidationIdx = 0 := Nat.le_zero.mp (h.min (hfin 0 (by omega)))
  rw [h.count, hmin] at hnum
  exact of_le_count hnum i hi

theorem Follows.run_eq {log : List (Read L V)} {body rest : Body L V} {state : L → V}
    (h : Follows log body rest) (hlog : ∀ r ∈ log, state r.location = r.value) :
    body.run state = rest.run state := by
  induction h with
  | start => rfl
  | read _ hr hl ih => rw [ih, Body.run, ← hl, hlog _ hr]

variable [DecidableEq L] {block : Block L V} {m : MvMemory L V} {records : TxIdx → Record L V}
  {live : TxIdx → Prop}

def MvMemory.stateBelow (m : MvMemory L V) (storage : L → V) (i : TxIdx) (l : L) : V :=
  match lastBelow (m.entry l) i with
  | some (_, .data _ x) => x
  | _ => storage l

section

variable (h : MemInv block m records live)

include h

theorem MemInv.read_stateBelow {i : TxIdx} (hv : m.validateReadLocations i = true) {r : Read L V}
    (hr : r ∈ (records i).log) :
    m.stateBelow block.storage i r.location = r.value := by
  have ho := (validateReadLocations_iff (h.read i)).mp hv r hr
  have hj := h.justified hr
  unfold Justified at hj
  cases hor : r.origin with
  | storage =>
    rw [hor] at ho hj
    rw [stateBelow, currentOrigin_eq_storage.mp ho]
    exact hj.symm
  | mvMemory v =>
    rw [hor] at ho hj
    obtain ⟨x, hx⟩ := currentOrigin_eq_mvMemory.mp ho
    rw [stateBelow, hx]
    exact hj.2 x (lastBelow_eq_some.mp hx).2.1

theorem MemInv.applyWrites_stateBelow {i : TxIdx} (hi : live i) :
    applyWrites (m.stateBelow block.storage i) (records i).writes =
      m.stateBelow block.storage (i + 1) := by
  obtain ⟨k, -, hall⟩ := h.shown hi
  funext l
  rw [applyWrites_apply]
  cases hl : lastWrite (records i).writes l with
  | none =>
    have he : m.entry l i = none := by rw [hall, hl]; rfl
    rw [stateBelow, stateBelow, lastBelow_succ_none he]
    rfl
  | some x =>
    have he : m.entry l i = some (.data k x) := by rw [hall, hl]; rfl
    rw [Option.getD_some, stateBelow, lastBelow_succ_some he]

/-- If all transactions below `i` are live and valid, then the entries below `i` are the state of
the sequential execution before `i`. -/
theorem MemInv.stateBefore_eq {n : Nat} (hlive : ∀ i, i < n → live i)
    (hvalid : ∀ i, i < n → m.validateReadLocations i = true) :
    ∀ i, i ≤ n → block.stateBefore i = some (m.stateBelow block.storage i) ∧
      (i < n → block.sequentialWrites i = some (records i).writes) := by
  have hrun : ∀ i, i < n →
      (block.body i).run (m.stateBelow block.storage i) = some (records i).writes := by
    intro i hi
    rw [(h.follows (hlive i hi)).run_eq fun r hr => h.read_stateBelow (hvalid i hi) hr]
    rfl
  have hstate : ∀ i, i ≤ n → block.stateBefore i = some (m.stateBelow block.storage i) := by
    intro i
    induction i with
    | zero => exact fun _ => rfl
    | succ i ih =>
      intro hi
      simp only [Block.stateBefore, ih (by omega), hrun i (by omega), Option.bind_eq_bind,
        Option.bind_some, ← h.applyWrites_stateBelow (hlive i (by omega))]
      rfl
  intro i hi
  refine ⟨hstate i hi, fun hlt => ?_⟩
  simp only [Block.sequentialWrites, hstate i hi, Option.bind_eq_bind, Option.bind_some]
  exact hrun i hlt

/-- If all transactions of the block are live and valid, the memory is the sequential result. -/
theorem MemInv.sequentialResult (hlive : ∀ i, i < block.txs.length → live i)
    (hvalid : ∀ i, i < block.txs.length → m.validateReadLocations i = true)
    (hout : ∀ j, block.txs.length ≤ j → (records j).writes = []) : SequentialResult block m where
  writes := by
    intro i hi
    obtain ⟨k, -, hall⟩ := h.shown (hlive i hi)
    exact ⟨_, k, (h.stateBefore_eq hlive hvalid i hi.le).2 hi, hall⟩
  nothing_above := by
    intro j hj l
    refine h.entry_of_not_mem fun hl => ?_
    obtain ⟨x, hx⟩ := (h.write j l).mp hl
    rw [hout j hj] at hx
    cases hx
  state := by
    refine ⟨_, (h.stateBefore_eq hlive hvalid _ le_rfl).1, fun l => ?_⟩
    rcases hb : lastBelow (m.entry l) block.txs.length with _ | ⟨j, ⟨k, x⟩ | _⟩
    · exact ⟨.storage, hb, by simp [stateBelow, hb]⟩
    · exact ⟨.mvMemory ⟨j, k⟩, by simp [Sees, stateBelow, hb]⟩
    · -- An ESTIMATE would belong to a transaction that is not live.
      obtain ⟨hj, he, -⟩ := lastBelow_eq_some.mp hb
      obtain ⟨k, -, hall⟩ := h.shown (hlive j hj)
      rw [hall] at he
      obtain ⟨y, -, hy⟩ := Option.map_eq_some_iff.mp he
      cases hy

end

omit [DecidableEq L] in
theorem continueWith_shared {g g' : Shared L V} {task : Option Task} {l : Worker L V}
    (h : some (Engine.continueWith block g task) = some (g', l)) : g' = g := by
  unfold Engine.continueWith at h
  split at h
  · cases h; rfl
  · split at h <;> cases h <;> rfl

/-- A step stops the block and its scheduler, or neither. -/
theorem exec_stops {g g' : Shared L V} {l l' : Worker L V} {fuel : Nat}
    (h : Engine.exec block g l fuel = some (g', l')) :
    (g'.abortReason = true ∧ g'.scheduler.aborted = true) ∨
    (g'.abortReason = g.abortReason ∧ g'.scheduler.aborted = g.scheduler.aborted) := by
  cases l with
  | polling =>
    have hn := nextTask_aborted fuel g.scheduler
    simp only [Engine.exec] at h
    rcases hp : g.scheduler.nextTask fuel with ⟨s, _ | _ | task⟩
    all_goals
      rw [hp] at h hn
      cases h
      exact .inr ⟨rfl, hn⟩
  | left => cases h
  | running v rest readSet =>
    cases rest with
    | read location next =>
      simp only [Engine.exec] at h
      split at h
      · cases h; exact .inr ⟨rfl, rfl⟩
      · cases h; exact .inr ⟨rfl, rfl⟩
      · split at h
        · rw [continueWith_shared h]; exact .inr ⟨rfl, rfl⟩
        · cases h; exact .inr ⟨rfl, rfl⟩
    | done ws => cases h; exact .inr ⟨rfl, rfl⟩
    | fail => rw [continueWith_shared h]; exact .inl ⟨rfl, rfl⟩
  | blocked v b =>
    have hd := addDependency_aborted g.scheduler v.txIdx b
    simp only [Engine.exec] at h
    rcases hp : g.scheduler.addDependency v.txIdx b with ⟨s, _ | _⟩
    · rw [hp] at h hd
      simp only at h
      split at h
      · rw [continueWith_shared h]; exact .inr ⟨rfl, hd⟩
      · cases h; exact .inr ⟨rfl, hd⟩
    · rw [hp] at h hd
      rw [continueWith_shared h]
      exact .inr ⟨rfl, hd⟩
  | recorded v flags =>
    rw [continueWith_shared h]
    exact .inr ⟨rfl, finishExecution_aborted _ _ _⟩
  | validating v =>
    simp only [Engine.exec] at h
    split at h <;> cases h <;> exact .inr ⟨rfl, rfl⟩
  | refuted v =>
    have hd := tryValidationAbort_aborted g.scheduler v
    simp only [Engine.exec] at h
    rcases hp : g.scheduler.tryValidationAbort v with ⟨s, _ | _⟩
    all_goals
      rw [hp] at h hd
      cases h
      exact .inr ⟨rfl, hd⟩
  | aborting v => cases h; exact .inr ⟨rfl, rfl⟩
  | finishing v aborted =>
    rw [continueWith_shared h]
    exact .inr ⟨rfl, finishValidation_stopped _ _ _⟩

variable [DecidableEq ω] [Nonempty ω] {c : Config (Shared L V) (Worker L V) ω}

/-- In every reachable state either the block was stopped, or the invariant holds. -/
theorem engine_inv (h : Reachable ((Engine.program block).system ω) c) :
    (c.shared.abortReason = true ∧ c.shared.scheduler.aborted = true) ∨
    (c.shared.abortReason = false ∧ ∃ records, Inv block c.shared c.threads records) := by
  refine Program.invariant (I := fun g threads =>
    (g.abortReason = true ∧ g.scheduler.aborted = true) ∨
    (g.abortReason = false ∧ ∃ records, Inv block g threads records))
    (.inr ⟨rfl, _, Inv.init block⟩) ?_ h
  rintro g threads w fuel g' l hI - hex
  rcases exec_stops hex with hs | ⟨ha, hs⟩
  · exact .inl hs
  · rcases hI with ⟨hab, hst⟩ | ⟨hab, records, hinv⟩
    · exact .inl ⟨ha.trans hab, hs.trans hst⟩
    · exact .inr ⟨ha.trans hab, hinv.step hab hex (ha.trans hab)⟩

/-- Serializability: when every worker has left and the scheduler was not aborted, all transactions
are validated and the memory holds what executing them one after the other leaves. -/
theorem engine_serializable (h : Reachable ((Engine.program block).system ω) c)
    (hleft : ∀ w, c.threads w = .left) (hab : c.shared.scheduler.aborted = false) :
    (∀ i, i < block.txs.length →
      (c.shared.scheduler.transactionsStatus i).status = .validated) ∧
    SequentialResult block c.shared.memory := by
  obtain ⟨records, hinv⟩ : ∃ records, Inv block c.shared c.threads records := by
    rcases engine_inv h with ⟨-, hs⟩ | ⟨-, hinv⟩
    · rw [hab] at hs; cases hs
    · exact hinv
  obtain ⟨hexec, hval, hnum⟩ := hinv.done hleft
  have hfin := hinv.sched.all_finished (fun w => by rw [hleft w]; rfl) hexec
  refine ⟨hinv.sched.all_validated hfin hnum, ?_⟩
  refine hinv.mem.sequentialResult (fun i hi => .inl (hfin i hi)) (fun i hi => ?_)
    fun j hj => hinv.outside hj
  rcases hinv.valid hi (hfin i hi) with hv | hv | ⟨w, hw⟩
  · exact hv
  · omega
  · rw [hleft w] at hw
    exact hw.elim

def pairBlock : Block Nat Nat where
  storage _ := 0
  txs := [.done [(7, 1)], .read 7 fun x => .done [(8, x)]]

def Worker.isLeft : Worker L V → Bool
  | .left => true
  | _ => false

/-- A run of two workers to the end: the second transaction reads too early, is aborted and executed
again. -/
def pairRun : List (Fin 2 × Nat) :=
  [(0, 1), (1, 1), (1, 0), (1, 0), (0, 0), (0, 0), (1, 0), (1, 1), (1, 0), (1, 0), (1, 0), (1, 0),
    (1, 0), (1, 0), (1, 0), (0, 0), (0, 0), (1, 0), (1, 0), (0, 1), (1, 1)]

theorem engine_serializable_pair :
    ∃ c : Config (Shared Nat Nat) (Worker Nat Nat) (Fin 2),
      Reachable ((Engine.program pairBlock).system (Fin 2)) c ∧ (∀ w, c.threads w = .left) ∧
      c.shared.scheduler.aborted = false ∧
      (∀ i, i < 2 → (c.shared.scheduler.transactionsStatus i).status = .validated) ∧
      SequentialResult pairBlock c.shared.memory := by
  obtain ⟨c, hc, hp⟩ := exists_reachable_of_run
    (S := (Engine.program pairBlock).system (Fin 2)) pairRun
    (p := fun c => (c.threads 0).isLeft && (c.threads 1).isLeft && !c.shared.scheduler.aborted)
    (by decide +kernel)
  simp only [Bool.and_eq_true, Bool.not_eq_true'] at hp
  obtain ⟨⟨h0, h1⟩, hab⟩ := hp
  have hisLeft : ∀ l : Worker Nat Nat, l.isLeft = true → l = .left := by
    intro l hl
    cases l <;> first | rfl | cases hl
  have hleft : ∀ w, c.threads w = .left := by
    intro w
    fin_cases w
    · exact hisLeft _ h0
    · exact hisLeft _ h1
  exact ⟨c, hc, hleft, hab, engine_serializable hc hleft hab⟩

end CongestionControl.Pevm
