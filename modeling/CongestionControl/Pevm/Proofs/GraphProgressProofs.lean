import CongestionControl.Pevm.Proofs.GraphSchedulerProofs

/-!
# Proofs: soundness of `check_all_done`

Every call on the graph scheduler keeps `GraphInv`, whatever the graph is. The calls are taken apart
into the moves of `LifeInv` and the changes of the heap.
-/

namespace CongestionControl.Pevm

open Function (update update_eq_self update_idem update_of_ne update_self)
open Transition GraphScheduler

variable {ω : Type} {n : Nat} {s s' : GraphScheduler} {pending : TxIdx → Nat}
  {threads : ω → GraphWorker} {w : ω} {l : GraphWorker} {i : TxIdx} {v : TxVersion}
  {rest : List TxIdx} {graph : TransactionGraph}

/-! ## The moves -/

section

variable (h : GraphInv n s pending threads)

include h

theorem GraphInv.lt_of_not_ready (hs : (s.transactionsStatus i).status ≠ .readyToExecute) :
    i < n := by
  by_contra hi
  exact hs (by rw [h.outside (Nat.not_lt.mp hi)])

theorem GraphInv.exec_lt (hw : (threads w).role = .executing v) :
    v.txIdx < n :=
  h.lt_of_not_ready (by rw [h.life.exec_status hw]; simp)

theorem GraphInv.count_keep {x : TxStatus} (hold : (s.transactionsStatus i).status ≠ .validated)
    (hx : x.status ≠ .validated) :
    s.numValidated =
      Nat.count (fun j => (update s.transactionsStatus i x j).status = .validated) n := by
  refine h.count.trans (count_congr fun j _ => ?_)
  by_cases hj : j = i
  · subst hj; rw [update_self]; exact iff_of_false hold hx
  · rw [update_of_ne hj]

theorem GraphInv.touch (validationIdx : Nat) (aborted : Bool) :
    GraphInv n { s with validationIdx, aborted } pending threads :=
  ⟨h.blockSize, h.life, h.heap, h.count, h.min, h.outside⟩

theorem GraphInv.pop (hh : s.executableTxs = i :: rest) :
    GraphInv n { s with executableTxs := rest } pending threads ∧ i ∉ rest := by
  have hheap := h.heap
  rw [hh] at hheap
  exact ⟨⟨h.blockSize, h.life, hheap.pop.1, h.count, h.min, h.outside⟩, hheap.pop.2⟩

end

section Moves

variable [DecidableEq ω]

section

variable (h : GraphInv n s pending threads)

include h

theorem GraphInv.keep (hl : l.role = (threads w).role) :
    GraphInv n s pending (update threads w l) where
  blockSize := h.blockSize
  life := by
    rw [map_update GraphWorker.role w l, hl, update_eq_self]
    exact h.life
  heap := h.heap
  count := h.count
  min := h.min
  outside := h.outside

theorem GraphInv.change {x : TxStatus} (hbs : s'.blockSize = s.blockSize)
    (hs : s'.transactionsStatus = update s.transactionsStatus i x) (hi : i < n)
    (life : LifeInv s'.transactionsStatus s'.transactionsDependents
      (update (fun w => (threads w).role) w l.role))
    (heap : HeapInv s'.transactionsStatus s'.executableTxs s'.remainingDependencies pending)
    (count : s'.numValidated =
      Nat.count (fun j => (update s.transactionsStatus i x j).status = .validated) n)
    (hmin : s'.minValidationIdx ≤ s.minValidationIdx)
    (hfin : x.status = .executed ∨ x.status = .validated → s'.minValidationIdx ≤ i) :
    GraphInv n s' pending (update threads w l) where
  blockSize := hbs.trans h.blockSize
  life := by rwa [map_update GraphWorker.role w l]
  heap := heap
  count := by rwa [hs]
  min := by
    intro j hj
    unfold Finished at hj
    by_cases hji : j = i
    · subst hji
      rw [hs, update_self] at hj
      exact hfin hj
    · rw [hs, update_of_ne hji] at hj
      exact hmin.trans (h.min hj)
  outside := by
    intro j hj
    have hji : j ≠ i := by rintro rfl; exact absurd hi (Nat.not_lt.mpr hj)
    rw [hs, update_of_ne hji]
    exact h.outside hj

theorem GraphInv.issue {i k : Nat} (hi : i < n) (hs : s.transactionsStatus i = ⟨k, .readyToExecute⟩)
    (hheap : i ∉ s.executableTxs) (hrem : s.remainingDependencies i = 0) :
    GraphInv n (s.setStatus i ⟨k, .executing⟩) pending
      (update threads w (.executing ⟨i, k⟩)) := by
  have hs' : s.transactionsStatus (TxVersion.mk i k).txIdx =
    ⟨(TxVersion.mk i k).txIncarnation, .readyToExecute⟩ := hs
  exact h.change rfl rfl hi (h.life.issue hs' w) (h.heap.setStatus hheap (.inl hrem))
    (h.count_keep (by rw [hs]; simp) (by simp)) le_rfl (by simp)

theorem GraphInv.wait (hw : (threads w).role = .executing v) (b : TxIdx) :
    GraphInv n { s with
        transactionsStatus := update s.transactionsStatus v.txIdx
          { s.transactionsStatus v.txIdx with status := .aborting }
        transactionsDependents := update s.transactionsDependents b
          (s.transactionsDependents b ++ [v.txIdx]) } pending (update threads w .polling) := by
  have hst := h.life.exec_status hw
  obtain ⟨hheap, hspent⟩ := h.heap.of_not_ready (by rw [hst]; simp)
  exact h.change rfl rfl (h.exec_lt hw) (h.life.wait hw b) (h.heap.setStatus hheap hspent)
    (h.count_keep (by rw [hst]; simp) (by simp)) le_rfl (by simp)

theorem GraphInv.executed (hw : (threads w).role = .executing v) (hl : l.role = .free)
    (validationIdx : Nat) :
    GraphInv n (s.executed v.txIdx validationIdx) pending (update threads w l) := by
  have hst := h.life.exec_status hw
  obtain ⟨hheap, hspent⟩ := h.heap.of_not_ready (by rw [hst]; simp)
  refine h.change rfl rfl (h.exec_lt hw) ?_ (h.heap.setStatus hheap hspent)
    (h.count_keep (by rw [hst]; simp) (by simp)) (Nat.min_le_left _ _)
    fun _ => Nat.min_le_right _ _
  rw [hl]
  exact h.life.finish hw _

theorem GraphInv.abort {numValidated : Nat} (hfin : s.Finished v.txIdx)
    (hnum : ((s.transactionsStatus v.txIdx).status = .executed ∧ numValidated = s.numValidated) ∨
      ((s.transactionsStatus v.txIdx).status = .validated ∧
        numValidated = fetchSub s.numValidated)) :
    GraphInv n { s with
        transactionsStatus := update s.transactionsStatus v.txIdx
          { s.transactionsStatus v.txIdx with status := .aborting }
        numValidated } pending (update threads w (.aborted v)) := by
  have hr : (s.transactionsStatus v.txIdx).status ≠ .readyToExecute := by
    rcases hfin with hf | hf <;> rw [hf] <;> simp
  have he : (s.transactionsStatus v.txIdx).status ≠ .executing := by
    rcases hfin with hf | hf <;> rw [hf] <;> simp
  have ha : (s.transactionsStatus v.txIdx).status ≠ .aborting := by
    rcases hfin with hf | hf <;> rw [hf] <;> simp
  obtain ⟨hheap, hspent⟩ := h.heap.of_not_ready hr
  refine h.change rfl rfl (h.lt_of_not_ready hr) (h.life.abort he ha w)
    (h.heap.setStatus hheap hspent) ?_ le_rfl (by simp)
  rcases hnum with ⟨hx, hnum⟩ | ⟨hx, hnum⟩
  · exact hnum.trans (h.count_keep (by rw [hx]; simp) (by simp))
  · -- Taking the abort back would gain this transaction.
    have hgain : s.numValidated = Nat.count (fun j => (update s.transactionsStatus v.txIdx
        { s.transactionsStatus v.txIdx with status := .aborting } j).status = .validated) n + 1 := by
      refine h.count.trans (count_gain (h.lt_of_not_ready hr) (by simp) hx fun j hj => ?_)
      rw [update_of_ne hj]
    show numValidated = _
    rw [hnum, fetchSub, hgain]
    rfl

theorem GraphInv.readied (hw : (threads w).role = .aborting i) :
    GraphInv n (s.readied i) pending (update threads w .polling) := by
  have hst := h.life.abort_status hw
  obtain ⟨hheap, hspent⟩ := h.heap.of_not_ready (by rw [hst]; simp)
  exact h.change rfl rfl (h.lt_of_not_ready (by rw [hst]; simp)) (h.life.release hw _)
    (h.heap.setStatus hheap hspent) (h.count_keep (by rw [hst]; simp) (by simp)) le_rfl (by simp)

theorem GraphInv.validated (hw : (threads w).role = .free)
    (hs : (s.transactionsStatus i).status = .executed) :
    GraphInv n { s with
        transactionsStatus := update s.transactionsStatus i
          { s.transactionsStatus i with status := .validated }
        numValidated := s.numValidated + 1 } pending (update threads w .polling) := by
  have hi := h.lt_of_not_ready (by rw [hs]; simp)
  obtain ⟨hheap, hspent⟩ := h.heap.of_not_ready (by rw [hs]; simp)
  refine h.change rfl rfl hi ?_ (h.heap.setStatus hheap hspent) ?_ le_rfl
    fun _ => h.min (.inl hs)
  · rw [show GraphWorker.polling.role = (threads w).role from hw.symm, update_eq_self]
    exact h.life.setStatus (h.life.unheld (by rw [hs]; simp) (by rw [hs]; simp)) _
  · refine (congrArg (· + 1) h.count).trans (count_gain hi (by rw [hs]; simp) (by simp) ?_).symm
    intro j hj
    rw [update_of_ne hj]

end

end Moves

/-! ## The loops of `finish_execution` -/

theorem GraphScheduler.pending_release (hi : s.childrenReleased i = false) (c : TxIdx) :
    s.pending c =
      { s with childrenReleased := update s.childrenReleased i true }.pending c +
        (s.dependencyGraph.children i).count c := by
  have hsplit : ∀ p, (if s.childrenReleased p then 0 else (s.dependencyGraph.children p).count c) =
      (if update s.childrenReleased i true p then 0 else (s.dependencyGraph.children p).count c) +
        if p = i then (s.dependencyGraph.children i).count c else 0 := by
    intro p
    by_cases hp : p = i
    · subst hp; simp [hi]
    · simp [hp]
  unfold GraphScheduler.pending
  rw [Finset.sum_congr rfl fun p _ => hsplit p, Finset.sum_add_distrib, Finset.sum_ite_eq']
  split
  · rfl
  · rename_i hout
    have hnone : s.dependencyGraph.nodes[i]? = none :=
      List.getElem?_eq_none (Nat.not_lt.mp fun hlt => hout (Finset.mem_range.mpr hlt))
    simp [TransactionGraph.children, hnone]

theorem GraphInv.releaseChild {later : TxIdx → Nat} {c : TxIdx}
    (h : GraphInv n s (fun c' => later c' + (c :: rest).count c') threads) :
    GraphInv n (s.releaseChild c) (fun c' => later c' + rest.count c') threads := by
  rw [releaseChild_eq]
  refine ⟨h.blockSize, h.life, h.heap.release ?_ ?_, h.count, h.min, h.outside⟩
  · show later c + (c :: rest).count c = later c + rest.count c + 1
    rw [List.count_cons_self, Nat.add_assoc]
  · intro c' hc'
    show later c' + rest.count c' = later c' + (c :: rest).count c'
    rw [List.count_cons_of_ne (Ne.symm hc')]

theorem foldl_releaseChild_graph (children : List TxIdx) (s : GraphScheduler) :
    (children.foldl GraphScheduler.releaseChild s).childrenReleased = s.childrenReleased ∧
      (children.foldl GraphScheduler.releaseChild s).dependencyGraph = s.dependencyGraph := by
  refine foldl_rest (I := fun _ (s' : GraphScheduler) => s'.childrenReleased = s.childrenReleased ∧
    s'.dependencyGraph = s.dependencyGraph) ?_ ⟨rfl, rfl⟩
  intro c rest s' hs'
  rw [releaseChild_eq]
  exact hs'

theorem GraphScheduler.pending_congr (hr : s'.childrenReleased = s.childrenReleased)
    (hg : s'.dependencyGraph = s.dependencyGraph) : s'.pending = s.pending := by
  unfold GraphScheduler.pending
  rw [hr, hg]

theorem GraphInv.releaseChildren (h : GraphInv n s s.pending threads) (i : TxIdx) :
    GraphInv n (s.releaseChildren i) (s.releaseChildren i).pending threads := by
  unfold GraphScheduler.releaseChildren
  split
  · exact h
  · rename_i hi
    let s1 : GraphScheduler := { s with childrenReleased := update s.childrenReleased i true }
    have hpending : s.pending = fun c => s1.pending c + (s.dependencyGraph.children i).count c :=
      funext (pending_release (Bool.eq_false_of_not_eq_true hi))
    have h1 : GraphInv n s1 (fun c => s1.pending c + (s.dependencyGraph.children i).count c)
        threads := by
      rw [hpending] at h
      exact ⟨h.blockSize, h.life, h.heap, h.count, h.min, h.outside⟩
    obtain ⟨hr, hg⟩ := foldl_releaseChild_graph (s.dependencyGraph.children i) s1
    rw [show ((s.dependencyGraph.children i).foldl GraphScheduler.releaseChild s1).pending =
      s1.pending from pending_congr hr hg]
    exact foldl_rest (I := fun rest s' =>
      GraphInv n s' (fun c => s1.pending c + rest.count c) threads)
      (fun _ _ _ h' => h'.releaseChild) h1

def GraphScheduler.setDependents (s : GraphScheduler) (i : TxIdx) (dependents : List TxIdx) :
    GraphScheduler :=
  { s with transactionsDependents := update s.transactionsDependents i dependents }

theorem GraphInv.resumeDependent {b d : TxIdx}
    (h : GraphInv n (s.setDependents b (d :: rest)) pending threads) :
    GraphInv n ((s.resumeDependent d).setDependents b rest) pending threads := by
  have hlist : (s.setDependents b (d :: rest)).transactionsDependents b = d :: rest :=
    update_self b _ _
  have hst : (s.transactionsStatus d).status = .aborting :=
    h.life.dep_status (by rw [hlist]; exact List.mem_cons_self)
  have hdrop : update (s.setDependents b (d :: rest)).transactionsDependents b rest =
      update s.transactionsDependents b rest := update_idem _ _ _
  obtain ⟨hheap, hspent⟩ := h.heap.of_not_ready
    (show (s.transactionsStatus d).status ≠ _ by rw [hst]; simp)
  by_cases hz : s.remainingDependencies d = 0
  · rw [resumeDependent_of_zero hz]
    have hlife := h.life.drainOne hlist ⟨(s.transactionsStatus d).incarnation + 1, .readyToExecute⟩
    rw [hdrop] at hlife
    have hd : d < n := h.lt_of_not_ready (show (s.transactionsStatus d).status ≠ _ by rw [hst]; simp)
    refine ⟨h.blockSize, hlife, (h.heap.setStatus hheap hspent).push hheap (by simp) hspent, ?_, ?_,
      ?_⟩
    · exact h.count_keep (show (s.transactionsStatus d).status ≠ _ by rw [hst]; simp)
        (by simp)
    · intro j hj
      refine h.min ?_
      have hjd : j ≠ d := by
        rintro rfl
        simp [Finished, GraphScheduler.setDependents, pushExecutable, setReadyStatus,
          GraphScheduler.setStatus] at hj
      simpa [Finished, GraphScheduler.setDependents, pushExecutable, setReadyStatus,
        GraphScheduler.setStatus, hjd] using hj
    · intro j hj
      have hjd : j ≠ d := by rintro rfl; exact absurd hd (Nat.not_lt.mpr hj)
      exact (update_of_ne hjd _ _).trans (h.outside hj)
  · rw [resumeDependent_of_ne_zero hz]
    have hsub : rest.Sublist ((s.setDependents b (d :: rest)).transactionsDependents b) := by
      rw [hlist]
      exact List.sublist_cons_self d rest
    have hlife := h.life.shrinkDep hsub
    rw [hdrop] at hlife
    exact ⟨h.blockSize, hlife, h.heap, h.count, h.min, h.outside⟩

theorem foldl_resumeDependent_graph (deps : List TxIdx) (s : GraphScheduler) :
    (deps.foldl GraphScheduler.resumeDependent s).childrenReleased = s.childrenReleased ∧
      (deps.foldl GraphScheduler.resumeDependent s).dependencyGraph = s.dependencyGraph ∧
      (deps.foldl GraphScheduler.resumeDependent s).transactionsDependents =
        s.transactionsDependents := by
  refine foldl_rest (I := fun _ (s' : GraphScheduler) => s'.childrenReleased = s.childrenReleased ∧
    s'.dependencyGraph = s.dependencyGraph ∧
    s'.transactionsDependents = s.transactionsDependents) ?_ ⟨rfl, rfl, rfl⟩
  intro d rest s' hs'
  by_cases hz : s'.remainingDependencies d = 0
  · rw [resumeDependent_of_zero hz]
    exact hs'
  · rw [resumeDependent_of_ne_zero hz]
    exact hs'

theorem resumeDependents_induction {I : GraphScheduler → Prop}
    (hstep : ∀ d rest (s : GraphScheduler), I (s.setDependents i (d :: rest)) →
      I ((s.resumeDependent d).setDependents i rest)) (h : I s) : I (s.resumeDependents i) := by
  let s1 : GraphScheduler := s.setDependents i []
  have h1 : I (s1.setDependents i (s.transactionsDependents i)) := by
    have : s1.setDependents i (s.transactionsDependents i) = s := by
      simp [s1, GraphScheduler.setDependents]
    rwa [this]
  have hend : I ((s.resumeDependents i).setDependents i []) :=
    foldl_rest (I := fun rest (s' : GraphScheduler) => I (s'.setDependents i rest)) hstep h1
  have hdeps : (s.resumeDependents i).transactionsDependents =
      update s.transactionsDependents i [] :=
    (foldl_resumeDependent_graph (s.transactionsDependents i) s1).2.2
  have : (s.resumeDependents i).setDependents i [] = s.resumeDependents i := by
    rw [GraphScheduler.setDependents, hdeps, update_idem, ← hdeps]
  rwa [this] at hend

theorem GraphInv.resumeDependents (h : GraphInv n s s.pending threads) (i : TxIdx) :
    GraphInv n (s.resumeDependents i) (s.resumeDependents i).pending threads := by
  have hgraph := foldl_resumeDependent_graph (s.transactionsDependents i) (s.setDependents i [])
  rw [show (s.resumeDependents i).pending = s.pending from pending_congr hgraph.1 hgraph.2.1]
  exact resumeDependents_induction (I := fun s' => GraphInv n s' s.pending threads)
    (fun _ _ _ h' => h'.resumeDependent) h

/-! ## The calls -/

theorem GraphInv.pass (h : GraphInv n s pending threads) (hp : s.Passes s') :
    GraphInv n s' pending threads := by
  rcases hp with ⟨rfl, -⟩ | ⟨rfl, -⟩
  · exact h
  · exact h.touch _ _

section Calls

variable [DecidableEq ω]

theorem GraphInv.popTask (h : GraphInv n s pending threads) (hw : (threads w).role = .free)
    (hh : s.executableTxs = i :: rest) :
    (∃ k, s.remainingDependencies i = 0 ∧ s.transactionsStatus i = ⟨k, .readyToExecute⟩ ∧ i < n ∧
      { s with executableTxs := rest }.tryExecute i =
        ({ s with executableTxs := rest }.setStatus i ⟨k, .executing⟩, some ⟨i, k⟩) ∧
      GraphInv n ({ s with executableTxs := rest }.setStatus i ⟨k, .executing⟩) pending
        (update threads w (.executing ⟨i, k⟩))) ∨
    (¬ (i < n ∧ s.remainingDependencies i = 0) ∧
      { s with executableTxs := rest }.tryExecute i = ({ s with executableTxs := rest }, none) ∧
      GraphInv n { s with executableTxs := rest } pending (update threads w .polling)) := by
  have hready : (s.transactionsStatus i).status = .readyToExecute :=
    h.heap.ready i (by rw [hh]; exact List.mem_cons_self)
  obtain ⟨hpop, hi⟩ := h.pop hh
  rcases tryExecute_cases { s with executableTxs := rest } i with
    ⟨k, hn, hz, hst, he⟩ | hab | ⟨hno, he⟩
  · have hn' : i < n := by rw [← h.blockSize]; exact hn
    exact .inl ⟨k, hz, hst, hn', he, hpop.issue hn' hst hi hz⟩
  · exact absurd (hab.symm.trans hready) (by simp)
  · refine .inr ⟨fun hc => hno ?_ hc.2 hready, he, hpop.keep hw.symm⟩
    rw [← h.blockSize] at hc
    exact hc.1

section

variable (h : GraphInv n s s.pending threads)

include h

theorem GraphInv.poll (hw : (threads w).role = .free) :
    GraphInv n s.pollTask.1 s.pollTask.1.pending
      (update threads w (afterPoll s.pollTask.2)) := by
  rcases pollTask_cases s with he | ⟨s1, task, hv, he⟩ | ⟨s1, hv, hx⟩
  · rw [he]
    exact h.keep hw.symm
  · rw [he]
    rcases tryValidationTask_cases s with ⟨k, hlt, hn, hst, hz, he'⟩ | ⟨hn, hf, he'⟩ | ⟨s2, -, he'⟩
    · cases he'.symm.trans hv
      rw [h.blockSize] at hn
      exact (h.touch (s.validationIdx + 1) s.aborted).issue hn hst (h.heap.not_mem_of_lt hlt) hz
    · cases he'.symm.trans hv
      exact (h.touch (s.validationIdx + 1) s.aborted).keep hw.symm
    · cases he'.symm.trans hv
  · rcases tryValidationTask_cases s with ⟨k, -, -, -, -, he'⟩ | ⟨-, -, he'⟩ | ⟨s2, hp, he'⟩
    · cases he'.symm.trans hv
    · cases he'.symm.trans hv
    cases he'.symm.trans hv
    have hpending : s1.pending = s.pending := by
      rcases hp with ⟨rfl, -⟩ | ⟨rfl, -⟩ <;> rfl
    have h1 : GraphInv n s1 s1.pending threads := hpending ▸ h.pass hp
    -- What remains is the top of the heap.
    rcases tryExecutionTask_cases s1 with ⟨-, ht⟩ | ⟨i, rest, hh, ht⟩
    · rcases hx with ⟨s2, task, hx, he⟩ | ⟨s2, hx, he⟩
      · cases ht.symm.trans hx
      · cases ht.symm.trans hx
        rw [he]
        exact h1.keep hw.symm
    · rcases h1.popTask hw hh with ⟨k, -, -, -, hex, hinv⟩ | ⟨-, hex, hinv⟩
      · rw [hex] at ht
        rcases hx with ⟨s2, task, hx, he⟩ | ⟨s2, hx, he⟩
        · cases ht.symm.trans hx
          rw [he]
          exact hinv
        · cases ht.symm.trans hx
      · rw [hex] at ht
        rcases hx with ⟨s2, task, hx, he⟩ | ⟨s2, hx, he⟩
        · cases ht.symm.trans hx
        · cases ht.symm.trans hx
          rw [he]
          exact hinv

theorem GraphInv.finishExecution (hw : (threads w).role = .executing v) (flags : FinishExecFlags) :
    GraphInv n (s.finishExecution v flags).1 (s.finishExecution v flags).1.pending
      (update threads w (.take (s.finishExecution v flags).2)) := by
  have h1 := (h.releaseChildren v.txIdx).resumeDependents v.txIdx
  have hn : v.txIdx < ((s.releaseChildren v.txIdx).resumeDependents v.txIdx).blockSize := by
    rw [h1.blockSize]
    exact h.exec_lt hw
  unfold GraphScheduler.finishExecution
  rcases scheduleValidation_cases flags hn with ⟨k, -, he⟩ | ⟨-, he⟩
  · rw [he]
    exact h1.executed hw rfl k
  · rw [he]
    exact h1.executed hw rfl _

theorem GraphInv.finishAborted (hw : (threads w).role = .aborting v.txIdx) :
    GraphInv n (s.finishValidation v true).1 (s.finishValidation v true).1.pending
      (update threads w (.take (s.finishValidation v true).2)) := by
  have hst := h.life.abort_status hw
  have hn : v.txIdx < n := h.lt_of_not_ready (by rw [hst]; simp)
  have h1 := h.readied hw
  rcases finishValidation_aborted s v (by rw [h.blockSize]; exact hn) with ⟨hz, he⟩ | ⟨-, he⟩
  · rw [he]
    have hheap := (h.heap.of_not_ready (by rw [hst]; simp)).1
    have hissue := h1.issue (w := w) hn (k := (s.transactionsStatus v.txIdx).incarnation + 1)
      (by simp [GraphScheduler.readied, lowerValidation, setReadyStatus, GraphScheduler.setStatus])
      hheap hz
    rwa [update_idem] at hissue
  · rw [he]
    exact h1

theorem GraphInv.finishPassed (v : TxVersion) (hw : (threads w).role = .free) :
    GraphInv n (s.finishValidation v false).1 (s.finishValidation v false).1.pending
      (update threads w (.take (s.finishValidation v false).2)) := by
  rcases finishValidation_passed s v with ⟨hs, he⟩ | ⟨-, he⟩
  · rw [he]
    exact h.validated hw hs
  · rw [he]
    exact h.keep hw.symm

theorem GraphInv.step {a : GraphCall} (hex : s.exec (threads w) a = some (s', l)) :
    GraphInv n s' s'.pending (update threads w l) := by
  cases hw : threads w <;> rw [hw] at hex
  all_goals have hrole : (threads w).role = _ := congrArg GraphWorker.role hw
  case polling =>
    cases a
    case nextTask fuel =>
      rw [exec_nextTask] at hex
      cases hex
      have hself : update threads w .polling = threads := by rw [← hw, update_eq_self]
      refine nextTask_induction (I := fun s l => GraphInv n s s.pending (update threads w l)) ?_
        fuel (by rwa [hself])
      intro s h
      rw [hself] at h
      exact h.poll hrole
    case timeout =>
      simp only [exec] at hex
      split at hex <;> cases hex
      exact (h.touch s.validationIdx true).keep hrole.symm
    all_goals cases hex
  case left => cases hex
  case executing v =>
    cases a
    case addDependency b =>
      simp only [exec] at hex
      split at hex
      · rcases addDependency_cases s v.txIdx b with ⟨-, he⟩ | he
        · rw [he] at hex
          cases hex
          exact h.wait hrole b
        · rw [he] at hex
          cases hex
          exact h.keep hrole.symm
      · cases hex
    case finishExecution flags => cases hex; exact h.finishExecution hrole flags
    case abort => cases hex; exact (h.touch s.validationIdx true).keep hrole.symm
    all_goals cases hex
  case failed => cases hex
  case validating v =>
    cases a
    case tryValidationAbort =>
      simp only [exec] at hex
      rcases tryValidationAbort_cases s v with ⟨hs, he⟩ | ⟨hs, he⟩ | ⟨-, he⟩
      · rw [he] at hex
        cases hex
        exact h.abort (.inl hs) (.inl ⟨hs, rfl⟩)
      · rw [he] at hex
        cases hex
        exact h.abort (.inr hs) (.inr ⟨hs, rfl⟩)
      · rw [he] at hex
        cases hex
        exact h.keep hrole.symm
    case finishValidation => cases hex; exact h.finishPassed v hrole
    all_goals cases hex
  case kept v =>
    cases a
    case finishValidation => cases hex; exact h.finishPassed v hrole
    all_goals cases hex
  case aborted v =>
    cases a
    case finishValidation => cases hex; exact h.finishAborted hrole
    all_goals cases hex

end

end Calls

/-! ## The whole run -/

theorem HeapInv.new (hb : ∀ c, pending c < 2 ^ 64 ∨ pending c ≤ (graph.parents c).length) :
    HeapInv (GraphScheduler.new n graph).transactionsStatus
      (GraphScheduler.new n graph).executableTxs
      (GraphScheduler.new n graph).remainingDependencies pending where
  sorted := List.pairwise_le_range.filter _
  nodup := List.nodup_range.filter _
  ready := fun _ _ => rfl
  spent := by
    intro c hc
    rcases hc with hc | hc
    · have hnil : graph.parents c = [] := by simpa using (List.mem_filter.mp hc).2
      exact .inl (congrArg List.length hnil)
    · exact absurd rfl hc
  bound := hb

theorem GraphInv.new (hb : ∀ c, pending c < 2 ^ 64 ∨ pending c ≤ (graph.parents c).length) :
    GraphInv n (GraphScheduler.new n graph) pending fun _ : ω => .polling where
  blockSize := rfl
  life :=
    { exec_status := fun h => by cases h
      exec_unique := fun h => by cases h
      abort_status := fun h => by cases h
      abort_unique := fun h => by cases h
      dep_status := fun h => by cases h
      dep_nodup := fun _ => List.nodup_nil
      dep_unique := fun h => by cases h
      dep_free := fun h => by cases h }
  heap := HeapInv.new hb
  count := (count_eq_zero fun i _ h => by cases h).symm
  min := fun h => by rcases h with h | h <;> cases h
  outside := fun _ => rfl

theorem GraphScheduler.pending_le_edgeCount (s : GraphScheduler) (c : TxIdx) :
    s.pending c ≤ s.dependencyGraph.edgeCount := by
  refine Finset.sum_le_sum fun p _ => ?_
  split
  · exact Nat.zero_le _
  · exact List.count_le_length

/-- When `check_all_done` answers yes, the block is validated exactly if `min_validation_idx` is
zero, that is if the first transaction has been executed, or the block is empty. -/
theorem checkAllDone_iff_validated [DecidableEq ω] {graph : TransactionGraph}
    (hedges : graph.edgeCount < 2 ^ 64) {c : Config GraphScheduler GraphWorker ω}
    (h : Reachable ((GraphScheduler.program n graph).system ω) c)
    (hdone : c.shared.checkAllDone = true) :
    (∀ i, i < n → (c.shared.transactionsStatus i).status = .validated) ↔
      n = 0 ∨ c.shared.minValidationIdx = 0 := by
  have hinv : GraphInv n c.shared c.shared.pending c.threads :=
    Program.invariant (I := fun s threads => GraphInv n s s.pending threads)
      (GraphInv.new fun i => .inl ((pending_le_edgeCount _ i).trans_lt hedges))
      (fun _ _ _ _ _ _ hI _ hex => hI.step hex) h
  constructor
  · intro hall
    rcases Nat.eq_zero_or_pos n with h0 | hpos
    · exact .inl h0
    · exact .inr (Nat.le_zero.mp (hinv.min (.inr (hall 0 hpos))))
  · rintro (rfl | hmin)
    · exact fun i hi => absurd hi (Nat.not_lt_zero i)
    · have hnum : c.shared.blockSize - c.shared.minValidationIdx ≤ c.shared.numValidated := by
        simp only [checkAllDone, Bool.and_eq_true, decide_eq_true_eq] at hdone
        exact hdone.2
      rw [hinv.blockSize, hmin, Nat.sub_zero, hinv.count] at hnum
      exact of_le_count hnum

/-- One worker has taken the only transaction for execution: the heap is empty, nothing is to be
validated from the index `min_validation_idx` on, and `check_all_done` answers yes. -/
theorem checkAllDone_while_executing : ∃ c : Config GraphScheduler GraphWorker (Fin 2),
    Reachable ((GraphScheduler.program 1 (edgelessGraph 1)).system (Fin 2)) c ∧
    c.shared.aborted = false ∧ c.shared.checkAllDone = true ∧
    c.threads 0 = .executing ⟨0, 0⟩ ∧ (c.shared.transactionsStatus 0).status = .executing := by
  obtain ⟨c, hc, hp⟩ := exists_reachable_of_run
    (S := (GraphScheduler.program 1 (edgelessGraph 1)).system (Fin 2)) [(0, .nextTask 1)]
    (p := fun c => c.shared.aborted = false ∧ c.shared.checkAllDone = true ∧
      c.threads 0 = .executing ⟨0, 0⟩ ∧ (c.shared.transactionsStatus 0).status = .executing)
    (by decide +kernel)
  exact ⟨c, hc, of_decide_eq_true hp⟩

/-- A run of one worker to the end of a block of one transaction. -/
theorem checkAllDone_iff_validated_single : ∃ c : Config GraphScheduler GraphWorker (Fin 1),
    Reachable ((GraphScheduler.program 1 (edgelessGraph 1)).system (Fin 1)) c ∧
    c.shared.checkAllDone = true ∧ c.shared.minValidationIdx = 0 ∧
    ∀ i, i < 1 → (c.shared.transactionsStatus i).status = .validated := by
  obtain ⟨c, hc, hp⟩ := exists_reachable_of_run
    (S := (GraphScheduler.program 1 (edgelessGraph 1)).system (Fin 1))
    [(0, .nextTask 1), (0, .finishExecution ⟨0⟩), (0, .finishValidation)]
    (p := fun c => c.shared.checkAllDone = true ∧ c.shared.minValidationIdx = 0)
    (by decide +kernel)
  obtain ⟨hdone, hmin⟩ := of_decide_eq_true hp
  exact ⟨c, hc, hdone, hmin,
    (checkAllDone_iff_validated (by decide +kernel) hc hdone).mpr (.inr hmin)⟩

end CongestionControl.Pevm
