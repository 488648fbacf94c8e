import CongestionControl.Pevm.GraphProgress
import CongestionControl.Pevm.Proofs.LifecycleProofs

/-!
# Proofs: what the calls on the graph scheduler do

One specification for each function of `GraphScheduler`, and the changes of the heap.
-/

namespace CongestionControl.Pevm

open Function (update update_of_ne update_self)
open Transition

/-! ## The heap -/

variable {i : TxIdx}

section Heap

variable {status : TxIdx → TxStatus} {heap : List TxIdx} {remaining pending : TxIdx → Nat}

section

variable (h : HeapInv status heap remaining pending)

include h

theorem HeapInv.not_mem_of_lt {i k : Nat} (hi : i < heap.head?.getD k) : i ∉ heap := by
  intro hmem
  cases heap with
  | nil => cases hmem
  | cons top rest =>
    have htop : top ≤ i := by
      rcases List.mem_cons.mp hmem with rfl | hmem
      · exact le_rfl
      · exact List.rel_of_pairwise_cons h.sorted hmem
    exact absurd (show i < top from hi) (Nat.not_lt.mpr htop)

theorem HeapInv.setStatus {x : TxStatus} (hi : i ∉ heap)
    (hs : remaining i = 0 ∨ pending i < remaining i) :
    HeapInv (update status i x) heap remaining pending where
  sorted := h.sorted
  nodup := h.nodup
  ready := by
    intro j hj
    have hne : j ≠ i := by rintro rfl; exact hi hj
    rw [update_of_ne hne]
    exact h.ready j hj
  spent := by
    intro c hc
    by_cases hci : c = i
    · subst hci; exact hs
    · rw [update_of_ne hci] at hc
      exact h.spent c hc
  bound := h.bound

theorem HeapInv.of_not_ready (hs : (status i).status ≠ .readyToExecute) :
    i ∉ heap ∧ (remaining i = 0 ∨ pending i < remaining i) :=
  ⟨fun hi => hs (h.ready i hi), h.spent i (.inr fun he => hs (by rw [he]))⟩

end

theorem HeapInv.pop {top : TxIdx} {rest : List TxIdx}
    (h : HeapInv status (top :: rest) remaining pending) :
    HeapInv status rest remaining pending ∧ top ∉ rest where
  left :=
    { sorted := (List.pairwise_cons.mp h.sorted).2
      nodup := (List.nodup_cons.mp h.nodup).2
      ready := fun i hi => h.ready i (List.mem_cons_of_mem top hi)
      spent := fun c hc => h.spent c (hc.imp_left (List.mem_cons_of_mem top))
      bound := h.bound }
  right := (List.nodup_cons.mp h.nodup).1

theorem HeapInv.push (h : HeapInv status heap remaining pending) (hi : i ∉ heap)
    (hr : (status i).status = .readyToExecute) (hs : remaining i = 0 ∨ pending i < remaining i) :
    HeapInv status (heap.orderedInsert (· ≤ ·) i) remaining pending where
  sorted := List.Pairwise.orderedInsert i heap h.sorted
  nodup := (List.perm_orderedInsert _ i heap).nodup_iff.mpr (List.nodup_cons.mpr ⟨hi, h.nodup⟩)
  ready := by
    intro j hj
    rcases (List.mem_orderedInsert (r := (· ≤ ·))).mp hj with rfl | hj
    · exact hr
    · exact h.ready j hj
  spent := by
    intro c hc
    rcases hc with hc | hc
    · rcases (List.mem_orderedInsert (r := (· ≤ ·))).mp hc with rfl | hc
      · exact hs
      · exact h.spent c (.inl hc)
    · exact h.spent c (.inr hc)
  bound := h.bound

def releasedHeap (remaining : TxIdx → Nat) (heap : List TxIdx) (c : TxIdx) : List TxIdx :=
  if remaining c = 1 then heap.orderedInsert (· ≤ ·) c else heap

theorem HeapInv.release (h : HeapInv status heap remaining pending) {c : TxIdx}
    {pending' : TxIdx → Nat} (hc : pending c = pending' c + 1)
    (hother : ∀ c', c' ≠ c → pending' c' = pending c') :
    HeapInv status (releasedHeap remaining heap c)
      (update remaining c (fetchSub (remaining c))) pending' := by
  have hspent : ∀ c', c' ∈ heap ∨ status c' ≠ ⟨0, .readyToExecute⟩ →
      update remaining c (fetchSub (remaining c)) c' = 0 ∨
        pending' c' < update remaining c (fetchSub (remaining c)) c' := by
    intro c' hc'
    have hold := h.spent c' hc'
    by_cases hcc : c' = c
    · subst hcc
      rw [update_self, fetchSub]
      have hb := h.bound c'
      split
      · omega
      · omega
    · rw [update_of_ne hcc, hother c' hcc]
      exact hold
  have hbound : ∀ c', pending' c' < 2 ^ 64 ∨
      pending' c' ≤ update remaining c (fetchSub (remaining c)) c' := by
    intro c'
    have hold := h.bound c'
    by_cases hcc : c' = c
    · subst hcc
      rw [update_self, fetchSub]
      split <;> omega
    · rw [update_of_ne hcc, hother c' hcc]
      exact hold
  have hsame : HeapInv status heap (update remaining c (fetchSub (remaining c))) pending' :=
    ⟨h.sorted, h.nodup, h.ready, hspent, hbound⟩
  unfold releasedHeap
  split
  · rename_i hone
    -- The count has not been zero before, so the transaction has never been pushed.
    have hnew : ¬ (c ∈ heap ∨ status c ≠ ⟨0, .readyToExecute⟩) := by
      intro hc'
      have := h.spent c hc'
      omega
    obtain ⟨hmem, hst⟩ := not_or.mp hnew
    refine hsame.push hmem (by rw [not_not.mp hst]) (.inl ?_)
    rw [update_self, hone]
    rfl
  · exact hsame

end Heap

namespace GraphScheduler

/-! ## `next_task` -/

theorem tryExecute_cases (s : GraphScheduler) (i : TxIdx) :
    (∃ k, i < s.blockSize ∧ s.remainingDependencies i = 0 ∧
      s.transactionsStatus i = ⟨k, .readyToExecute⟩ ∧
      s.tryExecute i = (s.setStatus i ⟨k, .executing⟩, some ⟨i, k⟩)) ∨
    (s.transactionsStatus i).status = .aborting ∨
    ((i < s.blockSize → s.remainingDependencies i = 0 →
      (s.transactionsStatus i).status ≠ .readyToExecute) ∧ s.tryExecute i = (s, none)) := by
  unfold tryExecute allDependenciesSatisfied
  by_cases hi : i < s.blockSize ∧ s.remainingDependencies i = 0
  · cases hst : (s.transactionsStatus i).status with
    | readyToExecute =>
      refine .inl ⟨(s.transactionsStatus i).incarnation, hi.1, hi.2, ?_, ?_⟩
      · rw [← hst]
      · simp [hi, hst]
    | aborting => exact .inr (.inl rfl)
    | executing => exact .inr (.inr ⟨by simp, by simp [hi, hst]⟩)
    | executed => exact .inr (.inr ⟨by simp, by simp [hi, hst]⟩)
    | validated => exact .inr (.inr ⟨by simp, by simp [hi, hst]⟩)
  · refine .inr (.inr ⟨fun h1 h2 => absurd ⟨h1, h2⟩ hi, ?_⟩)
    rw [if_neg (by simpa using hi)]

def execIdx (s : GraphScheduler) : Nat := s.executableTxs.head?.getD s.blockSize

/-- `try_validation_task` returns nothing: the validation index has reached the top of the heap, or
it passes a transaction that is not finished. -/
def Passes (s s1 : GraphScheduler) : Prop :=
  (s1 = s ∧ s.execIdx ≤ s.validationIdx) ∨
    (s1 = { s with validationIdx := s.validationIdx + 1 } ∧
      (s.validationIdx < s.blockSize → ¬ s.Finished s.validationIdx))

theorem tryValidationTask_cases (s : GraphScheduler) :
    (∃ k, s.validationIdx < s.execIdx ∧ s.validationIdx < s.blockSize ∧
      s.transactionsStatus s.validationIdx = ⟨k, .readyToExecute⟩ ∧
      s.remainingDependencies s.validationIdx = 0 ∧
      s.tryValidationTask = ({ s with validationIdx := s.validationIdx + 1 }.setStatus
        s.validationIdx ⟨k, .executing⟩, some (.execution ⟨s.validationIdx, k⟩))) ∨
    (s.validationIdx < s.blockSize ∧ s.Finished s.validationIdx ∧
      s.tryValidationTask = ({ s with validationIdx := s.validationIdx + 1 },
        some (.validation ⟨s.validationIdx,
          (s.transactionsStatus s.validationIdx).incarnation⟩))) ∨
    ∃ s1, s.Passes s1 ∧ s.tryValidationTask = (s1, none) := by
  unfold tryValidationTask
  by_cases hlt : s.validationIdx < s.execIdx
  · rw [execIdx] at hlt
    simp only [hlt, if_true]
    by_cases hn : s.validationIdx < s.blockSize
    · simp only [hn, if_true]
      by_cases hsteal : (s.transactionsStatus s.validationIdx).status = .readyToExecute ∧
          s.remainingDependencies s.validationIdx = 0
      · refine .inl ⟨(s.transactionsStatus s.validationIdx).incarnation, hlt, trivial, ?_,
          hsteal.2, ?_⟩
        · rw [← hsteal.1]
        · rw [if_pos (by simpa [allDependenciesSatisfied] using hsteal)]
      · rw [if_neg (by simpa [allDependenciesSatisfied] using hsteal)]
        cases hst : (s.transactionsStatus s.validationIdx).status with
        | executed => exact .inr (.inl ⟨trivial, .inl hst, rfl⟩)
        | validated => exact .inr (.inl ⟨trivial, .inr hst, rfl⟩)
        | readyToExecute => exact .inr (.inr ⟨_, .inr ⟨rfl, fun _ => by simp [Finished, hst]⟩, rfl⟩)
        | executing => exact .inr (.inr ⟨_, .inr ⟨rfl, fun _ => by simp [Finished, hst]⟩, rfl⟩)
        | aborting => exact .inr (.inr ⟨_, .inr ⟨rfl, fun _ => by simp [Finished, hst]⟩, rfl⟩)
    · simp only [hn, if_false]
      exact .inr (.inr ⟨_, .inr ⟨rfl, fun h => absurd h hn⟩, rfl⟩)
  · refine .inr (.inr ⟨s, .inl ⟨rfl, Nat.not_lt.mp hlt⟩, ?_⟩)
    rw [execIdx] at hlt
    simp only [hlt, if_false]

theorem tryExecutionTask_cases (s : GraphScheduler) :
    (s.executableTxs = [] ∧ s.tryExecutionTask = (s, none)) ∨
    ∃ i rest, s.executableTxs = i :: rest ∧
      s.tryExecutionTask = (({ s with executableTxs := rest }.tryExecute i).1,
        ({ s with executableTxs := rest }.tryExecute i).2.map .execution) := by
  unfold tryExecutionTask
  cases hh : s.executableTxs with
  | nil => exact .inl ⟨rfl, rfl⟩
  | cons i rest => exact .inr ⟨i, rest, rfl, rfl⟩

def afterPoll : Poll → GraphWorker
  | .again => .polling
  | .done none => .left
  | .done (some task) => .take (some task)

def afterNext : Option (Option Task) → GraphWorker
  | none => .polling
  | some task => afterPoll (.done task)

theorem nextTask_induction {I : GraphScheduler → GraphWorker → Prop}
    (hpoll : ∀ s, I s .polling → I s.pollTask.1 (afterPoll s.pollTask.2)) :
    ∀ (fuel : Nat) {s : GraphScheduler}, I s .polling →
      I (s.nextTask fuel).1 (afterNext (s.nextTask fuel).2)
  | 0, _, h => h
  | fuel + 1, s, h => by
    have h1 := hpoll s h
    unfold nextTask
    cases hp : s.pollTask with
    | mk s' r =>
      rw [hp] at h1
      cases r with
      | done task => exact h1
      | again => exact nextTask_induction hpoll fuel h1

theorem exec_nextTask (s : GraphScheduler) (fuel : Nat) :
    s.exec .polling (.nextTask fuel) =
      some ((s.nextTask fuel).1, afterNext (s.nextTask fuel).2) := by
  simp only [exec]
  rcases s.nextTask fuel with ⟨s', _ | _ | task⟩ <;> rfl

theorem pollTask_cases (s : GraphScheduler) :
    s.pollTask = (s, .done none) ∨
    (∃ s1 task, s.tryValidationTask = (s1, some task) ∧ s.pollTask = (s1, .done (some task))) ∨
    ∃ s1, s.tryValidationTask = (s1, none) ∧
      ((∃ s2 task, s1.tryExecutionTask = (s2, some task) ∧ s.pollTask = (s2, .done (some task))) ∨
        ∃ s2, s1.tryExecutionTask = (s2, none) ∧ s.pollTask = (s2, .again)) := by
  unfold pollTask
  split
  · exact .inl rfl
  split
  · exact .inl rfl
  rcases s.tryValidationTask with ⟨s1, _ | task⟩
  · refine .inr (.inr ⟨s1, rfl, ?_⟩)
    rcases hx : s1.tryExecutionTask with ⟨s2, _ | task⟩
    · exact .inr ⟨s2, rfl, by simp [hx]⟩
    · exact .inl ⟨s2, task, rfl, by simp [hx]⟩
  · exact .inr (.inl ⟨s1, task, rfl, rfl⟩)

/-! ## `add_dependency` -/

theorem addDependency_cases (s : GraphScheduler) (i b : TxIdx) :
    (¬ s.Finished b ∧
      s.addDependency i b = ({ s with
        transactionsStatus := update s.transactionsStatus i
          { s.transactionsStatus i with status := .aborting }
        transactionsDependents := update s.transactionsDependents b
          (s.transactionsDependents b ++ [i]) }, true)) ∨
    s.addDependency i b = (s, false) := by
  unfold addDependency Finished
  cases hb : (s.transactionsStatus b).status with
  | executed => exact .inr rfl
  | validated => exact .inr rfl
  | readyToExecute => exact .inl ⟨by simp, rfl⟩
  | executing => exact .inl ⟨by simp, rfl⟩
  | aborting => exact .inl ⟨by simp, rfl⟩

/-! ## `finish_execution` -/

theorem releaseChild_eq (s : GraphScheduler) (c : TxIdx) :
    s.releaseChild c = { s with
      executableTxs := releasedHeap s.remainingDependencies s.executableTxs c
      remainingDependencies := update s.remainingDependencies c
        (fetchSub (s.remainingDependencies c)) } := by
  by_cases hone : s.remainingDependencies c = 1
  · simp [releaseChild, releasedHeap, hone, pushExecutable]
  · simp [releaseChild, releasedHeap, hone]

variable {s : GraphScheduler}

theorem resumeDependent_of_zero (h : s.remainingDependencies i = 0) :
    s.resumeDependent i = (s.setReadyStatus i).pushExecutable i := by
  simp [resumeDependent, allDependenciesSatisfied, h]

theorem resumeDependent_of_ne_zero (h : s.remainingDependencies i ≠ 0) :
    s.resumeDependent i = s := by
  simp [resumeDependent, allDependenciesSatisfied, h]

def executed (s : GraphScheduler) (i : TxIdx) (validationIdx : Nat) : GraphScheduler :=
  { s with
    transactionsStatus := update s.transactionsStatus i
      { s.transactionsStatus i with status := .executed }
    minValidationIdx := min s.minValidationIdx i
    validationIdx }

/-- A transaction of the block becomes executed, and it is validated next unless the validation
index has yet to pass it. -/
theorem scheduleValidation_cases {v : TxVersion} (flags : FinishExecFlags)
    (hn : v.txIdx < s.blockSize) :
    (∃ k, k ≤ s.validationIdx ∧
      s.scheduleValidation v flags = (s.executed v.txIdx k, some (.validation v))) ∨
    (s.validationIdx ≤ v.txIdx ∧
      s.scheduleValidation v flags = (s.executed v.txIdx s.validationIdx, none)) := by
  have hmin : min s.minValidationIdx v.txIdx < s.blockSize := (Nat.min_le_right _ _).trans_lt hn
  have hmin' : ¬ v.txIdx < min s.minValidationIdx v.txIdx := Nat.not_lt.mpr (Nat.min_le_right _ _)
  unfold scheduleValidation lowerMinValidation
  simp only [FinishExecFlags.contains_needValidation, if_true, hmin, hmin', if_false]
  by_cases hv : v.txIdx < s.validationIdx
  · simp only [hv, if_true]
    refine .inl ?_
    cases hf : flags.contains .wroteNewLocation with
    | true => exact ⟨min s.validationIdx (v.txIdx + 1), Nat.min_le_left _ _, rfl⟩
    | false => exact ⟨s.validationIdx, le_rfl, rfl⟩
  · refine .inr ⟨Nat.not_lt.mp hv, ?_⟩
    simp only [hv, if_false, settle, FinishExecFlags.contains_needValidation, if_true]
    rfl

/-! ## `try_validation_abort` and `finish_validation` -/

theorem tryValidationAbort_cases (s : GraphScheduler) (v : TxVersion) :
    ((s.transactionsStatus v.txIdx).status = .executed ∧
      s.tryValidationAbort v = ({ s with
        transactionsStatus := update s.transactionsStatus v.txIdx
          { s.transactionsStatus v.txIdx with status := .aborting } }, true)) ∨
    ((s.transactionsStatus v.txIdx).status = .validated ∧
      s.tryValidationAbort v = ({ s with
        transactionsStatus := update s.transactionsStatus v.txIdx
          { s.transactionsStatus v.txIdx with status := .aborting }
        numValidated := fetchSub s.numValidated }, true)) ∨
    (¬ s.Finished v.txIdx ∧ s.tryValidationAbort v = (s, false)) := by
  unfold tryValidationAbort Finished
  cases hb : (s.transactionsStatus v.txIdx).status with
  | executed => exact .inl ⟨rfl, by simp [setStatus, hb]⟩
  | validated => exact .inr (.inl ⟨rfl, by simp [setStatus, hb]⟩)
  | readyToExecute => exact .inr (.inr ⟨by simp, by simp [hb]⟩)
  | executing => exact .inr (.inr ⟨by simp, by simp [hb]⟩)
  | aborting => exact .inr (.inr ⟨by simp, by simp [hb]⟩)

def readied (s : GraphScheduler) (i : TxIdx) : GraphScheduler :=
  (s.setReadyStatus i).lowerValidation (i + 1)

/-- After an abort the transaction is ready again; it is issued at once if it has no remaining
dependencies. -/
theorem finishValidation_aborted (s : GraphScheduler) (v : TxVersion) (hn : v.txIdx < s.blockSize) :
    (s.remainingDependencies v.txIdx = 0 ∧
      s.finishValidation v true = ((s.readied v.txIdx).setStatus v.txIdx
          ⟨(s.transactionsStatus v.txIdx).incarnation + 1, .executing⟩,
        some (.execution ⟨v.txIdx, (s.transactionsStatus v.txIdx).incarnation + 1⟩))) ∨
    (s.remainingDependencies v.txIdx ≠ 0 ∧
      s.finishValidation v true = (s.readied v.txIdx, none)) := by
  have hready : (s.readied v.txIdx).transactionsStatus v.txIdx =
      ⟨(s.transactionsStatus v.txIdx).incarnation + 1, .readyToExecute⟩ := by
    simp [readied, lowerValidation, setReadyStatus, setStatus]
  have hrem : (s.readied v.txIdx).remainingDependencies v.txIdx =
      s.remainingDependencies v.txIdx := rfl
  have hfinish : s.finishValidation v true =
      if (s.readied v.txIdx).allDependenciesSatisfied v.txIdx then
        (((s.readied v.txIdx).tryExecute v.txIdx).1,
          ((s.readied v.txIdx).tryExecute v.txIdx).2.map .execution)
      else (s.readied v.txIdx, none) := rfl
  by_cases hz : s.remainingDependencies v.txIdx = 0
  · have hsat : (s.readied v.txIdx).allDependenciesSatisfied v.txIdx = true := by
      simpa [allDependenciesSatisfied, hrem] using hz
    have hn' : v.txIdx < (s.readied v.txIdx).blockSize := hn
    refine .inl ⟨hz, ?_⟩
    rw [hfinish]
    simp [tryExecute, hn', hsat, hready]
  · have hsat : ¬ (s.readied v.txIdx).allDependenciesSatisfied v.txIdx = true := by
      simpa [allDependenciesSatisfied, hrem] using hz
    exact .inr ⟨hz, by rw [hfinish, if_neg hsat]⟩

theorem finishValidation_passed (s : GraphScheduler) (v : TxVersion) :
    ((s.transactionsStatus v.txIdx).status = .executed ∧
      s.finishValidation v false = ({ s with
        transactionsStatus := update s.transactionsStatus v.txIdx
          { s.transactionsStatus v.txIdx with status := .validated }
        numValidated := s.numValidated + 1 }, none)) ∨
    ((s.transactionsStatus v.txIdx).status ≠ .executed ∧
      s.finishValidation v false = (s, none)) := by
  unfold finishValidation
  by_cases he : (s.transactionsStatus v.txIdx).status = .executed
  · exact .inl ⟨he, by simp [he, setStatus]⟩
  · exact .inr ⟨he, by simp [he]⟩

/-! ## The graph does not change -/

theorem tryExecute_graph (s : GraphScheduler) (i : TxIdx) :
    (s.tryExecute i).1.dependencyGraph = s.dependencyGraph := by
  simp only [tryExecute]
  split
  · split <;> rfl
  · rfl

theorem pollTask_graph (s : GraphScheduler) :
    s.pollTask.1.dependencyGraph = s.dependencyGraph := by
  have hval : s.tryValidationTask.1.dependencyGraph = s.dependencyGraph := by
    rcases tryValidationTask_cases s with ⟨k, -, -, -, -, he⟩ | ⟨-, -, he⟩ | ⟨s1, hp, he⟩
    · rw [he]; rfl
    · rw [he]
    · rw [he]; rcases hp with ⟨rfl, -⟩ | ⟨rfl, -⟩ <;> rfl
  have hexec : ∀ s1 : GraphScheduler, s1.tryExecutionTask.1.dependencyGraph =
      s1.dependencyGraph := by
    intro s1
    rcases tryExecutionTask_cases s1 with ⟨-, he⟩ | ⟨i, rest, -, he⟩
    · rw [he]
    · rw [he]; exact tryExecute_graph _ i
  rcases pollTask_cases s with he | ⟨s1, task, hv, he⟩ | ⟨s1, hv, hx⟩
  · rw [he]
  · rw [he]; rw [hv] at hval; exact hval
  · rw [hv] at hval
    have h1 := hexec s1
    rcases hx with ⟨s2, task, hx, he⟩ | ⟨s2, hx, he⟩
    · rw [he]; rw [hx] at h1; exact h1.trans hval
    · rw [he]; rw [hx] at h1; exact h1.trans hval

theorem scheduleValidation_graph (s : GraphScheduler) (v : TxVersion) (flags : FinishExecFlags) :
    (s.scheduleValidation v flags).1.dependencyGraph = s.dependencyGraph := by
  have hsettle : ∀ s1 : GraphScheduler, (s1.settle v flags).dependencyGraph = s1.dependencyGraph := by
    intro s1
    simp only [settle]
    split <;> rfl
  simp only [scheduleValidation, lowerMinValidation, FinishExecFlags.contains_needValidation,
    if_true]
  split
  · split
    · rw [hsettle]; split <;> rfl
    · split
      · show (setStatus _ _ _).dependencyGraph = _
        split <;> rfl
      · rw [hsettle]
  · rw [hsettle]

theorem finishExecution_graph (s : GraphScheduler) (v : TxVersion) (flags : FinishExecFlags) :
    (s.finishExecution v flags).1.dependencyGraph = s.dependencyGraph := by
  have hrelease : (s.releaseChildren v.txIdx).dependencyGraph = s.dependencyGraph := by
    unfold releaseChildren
    split
    · rfl
    · exact foldl_rest (I := fun _ (s' : GraphScheduler) => s'.dependencyGraph = s.dependencyGraph)
        (fun c _ s' h => by rw [releaseChild_eq]; exact h) rfl
  have hresume : ∀ s1 : GraphScheduler, (s1.resumeDependents v.txIdx).dependencyGraph =
      s1.dependencyGraph := by
    intro s1
    refine foldl_rest (I := fun _ (s' : GraphScheduler) => s'.dependencyGraph =
      s1.dependencyGraph) (fun d _ s' h => ?_) rfl
    by_cases hz : s'.remainingDependencies d = 0
    · rw [resumeDependent_of_zero hz]; exact h
    · rw [resumeDependent_of_ne_zero hz]; exact h
  exact (scheduleValidation_graph _ v flags).trans ((hresume _).trans hrelease)

theorem exec_graph {s' : GraphScheduler} {l l' : GraphWorker} {a : GraphCall}
    (h : s.exec l a = some (s', l')) : s'.dependencyGraph = s.dependencyGraph := by
  have hfinish : ∀ (v : TxVersion) (aborted : Bool),
      (s.finishValidation v aborted).1.dependencyGraph = s.dependencyGraph := by
    intro v aborted
    simp only [finishValidation]
    split
    · split
      · exact tryExecute_graph _ _
      · rfl
    · split <;> rfl
  cases l <;> cases a <;> try cases h
  case polling.nextTask fuel =>
    rw [exec_nextTask] at h
    cases h
    exact nextTask_induction (I := fun s1 _ => s1.dependencyGraph = s.dependencyGraph)
      (fun s1 h1 => (pollTask_graph s1).trans h1) fuel rfl
  case polling.timeout => simp only [exec] at h; split at h <;> cases h; rfl
  case executing.addDependency v b =>
    simp only [exec] at h
    split at h
    · rcases addDependency_cases s v.txIdx b with ⟨-, he⟩ | he <;> rw [he] at h <;> cases h <;> rfl
    · cases h
  case executing.finishExecution v flags => exact finishExecution_graph s v flags
  case executing.abort => rfl
  case validating.tryValidationAbort v =>
    simp only [exec] at h
    rcases tryValidationAbort_cases s v with ⟨-, he⟩ | ⟨-, he⟩ | ⟨-, he⟩ <;> rw [he] at h <;>
      cases h <;> rfl
  case validating.finishValidation v => exact hfinish v false
  case kept.finishValidation v => exact hfinish v false
  case aborted.finishValidation v => exact hfinish v true

end GraphScheduler

end CongestionControl.Pevm
