import CongestionControl.Pevm.Proofs.DependencyGraphProofs
import CongestionControl.Pevm.Proofs.GraphProgressProofs

/-!
# Proofs: the graph scheduler never gets stuck

Every call keeps `LiveInv` if transactions wait for lower ones only. When no worker has a task, the
lowest transaction that is not validated can then be executed or validated.
-/

namespace CongestionControl.Pevm

open Function (update update_eq_self update_idem update_of_ne update_self)
open Transition GraphScheduler

variable {ω : Type} {n : Nat} {s s' : GraphScheduler} {pending : TxIdx → Nat}
  {threads : ω → GraphWorker} {w : ω} {l : GraphWorker} {i : TxIdx} {rest : List TxIdx}
  {graph : TransactionGraph}

/-! ## The moves -/

theorem LiveInv.cycle (h : LiveInv n s pending threads) :
    LifeCycle s.transactionsStatus s.transactionsDependents fun w => (threads w).role :=
  ⟨h.base.life, h.owned⟩

theorem LiveInv.remaining_zero (h : LiveInv n s pending threads)
    (hi : i ∈ s.executableTxs ∨ s.transactionsStatus i ≠ ⟨0, .readyToExecute⟩) :
    s.remainingDependencies i = 0 := by
  rcases h.base.heap.spent i hi with hz | hlt
  · exact hz
  · rw [h.exact i] at hlt
    exact absurd hlt (Nat.lt_irrefl _)

section Moves

variable [DecidableEq ω]

/-- A transaction to be validated stays so while the validation index does not rise and its
validator goes on. -/
theorem covered_update {j k k' : Nat} (h : k ≤ j ∨ ∃ w', (threads w').validates = some j)
    (hk : k' ≤ k) (hw : (threads w).validates = some j → l.validates = some j) :
    k' ≤ j ∨ ∃ w', (update threads w l w').validates = some j := by
  rcases h with h | ⟨w', h⟩
  · exact .inl (hk.trans h)
  · refine .inr ⟨w', ?_⟩
    by_cases hww : w' = w
    · subst hww; rw [update_self]; exact hw h
    · rwa [update_of_ne hww]

section

variable (h : LiveInv n s pending threads)

include h

theorem LiveInv.idle (validationIdx : Nat) (aborted : Bool) (hl : l.role = (threads w).role)
    (covered : ∀ {i}, (s.transactionsStatus i).status = .executed →
      validationIdx ≤ i ∨ ∃ w', (update threads w l w').validates = some i) :
    LiveInv n { s with validationIdx, aborted } pending (update threads w l) where
  base := (h.base.touch validationIdx aborted).keep hl
  owned := by
    rw [map_update GraphWorker.role w l, hl, update_eq_self]
    exact h.owned
  exact := h.exact
  heap_lt := h.heap_lt
  queued := h.queued
  dep_lt := h.dep_lt
  dep_wait := h.dep_wait
  released := h.released
  covered := covered

theorem LiveInv.change {x : TxStatus} (base : GraphInv n s' pending (update threads w l))
    (owned : Owned s'.transactionsStatus s'.transactionsDependents
      (update (fun w => (threads w).role) w l.role))
    (hs : s'.transactionsStatus = update s.transactionsStatus i x) (hx : x.status ≠ .readyToExecute)
    (hrem : s'.remainingDependencies = s.remainingDependencies)
    (hrel : s'.childrenReleased = s.childrenReleased)
    (hsub : ∀ j ∈ s'.executableTxs, j ∈ s.executableTxs)
    (hsup : ∀ j ∈ s.executableTxs, j ≠ i → j ∈ s'.executableTxs)
    (hdep : ∀ {b j}, j ∈ s'.transactionsDependents b → j ∈ s.transactionsDependents b ∨
      (b < j ∧ ¬ s.Finished b)) (hfin : x.status = .executed ∨ x.status = .validated →
      s.childrenReleased i = true ∧ s'.transactionsDependents i = [])
    (covered : ∀ {j}, j ≠ i → (s.transactionsStatus j).status = .executed →
      s'.validationIdx ≤ j ∨ ∃ w', (update threads w l w').validates = some j)
    (hcov : x.status = .executed → s'.validationIdx ≤ i ∨ l.validates = some i) :
    LiveInv n s' pending (update threads w l) := by
  have hfinished : ∀ {j}, s'.Finished j →
      (j = i ∧ (x.status = .executed ∨ x.status = .validated)) ∨ s.Finished j := by
    intro j hj
    unfold Finished at hj
    by_cases hji : j = i
    · subst hji
      rw [hs, update_self] at hj
      exact .inl ⟨rfl, hj⟩
    · rw [hs, update_of_ne hji] at hj
      exact .inr hj
  exact
    { base := base
      owned := by rwa [map_update GraphWorker.role w l]
      exact := by rw [hrem]; exact h.exact
      heap_lt := fun j hj => h.heap_lt j (hsub j hj)
      queued := by
        intro j hj hr hz
        have hji : j ≠ i := by
          rintro rfl
          rw [hs, update_self] at hr
          exact hx hr
        rw [hs, update_of_ne hji] at hr
        rw [hrem] at hz
        exact hsup j (h.queued hj hr hz) hji
      dep_lt := by
        intro b j hj
        rcases hdep hj with hj | hj
        · exact h.dep_lt hj
        · exact hj.1
      dep_wait := by
        intro b j hj hf
        rcases hfinished hf with ⟨rfl, hf⟩ | hf
        · rw [(hfin hf).2] at hj
          cases hj
        · rcases hdep hj with hj | hj
          · exact h.dep_wait hj hf
          · exact hj.2 hf
      released := by
        intro p hp
        rw [hrel]
        rcases hfinished hp with ⟨rfl, hf⟩ | hf
        · exact (hfin hf).1
        · exact h.released hf
      covered := by
        intro j hj
        by_cases hji : j = i
        · subst hji
          rw [hs, update_self] at hj
          exact (hcov hj).imp_right fun hl => ⟨w, by rwa [update_self]⟩
        · rw [hs, update_of_ne hji] at hj
          exact covered hji hj }

theorem LiveInv.popTask (hw : (threads w).role = .free) (hval : (threads w).validates = none)
    (hh : s.executableTxs = i :: rest) :
    ∃ k, { s with executableTxs := rest }.tryExecute i =
        ({ s with executableTxs := rest }.setStatus i ⟨k, .executing⟩, some ⟨i, k⟩) ∧
      LiveInv n ({ s with executableTxs := rest }.setStatus i ⟨k, .executing⟩) pending
        (update threads w (.executing ⟨i, k⟩)) := by
  have hmem : i ∈ s.executableTxs := by rw [hh]; exact List.mem_cons_self
  rcases h.base.popTask hw hh with ⟨k, -, hst, -, he, hbase⟩ | ⟨hno, -, -⟩
  · have hst' : s.transactionsStatus (TxVersion.mk i k).txIdx =
      ⟨(TxVersion.mk i k).txIncarnation, .readyToExecute⟩ := hst
    refine ⟨k, he, h.change hbase (h.cycle.issue hw hst').owned rfl (by simp) rfl rfl ?_ ?_
      .inl (by simp) (fun _ hj => covered_update (h.covered hj) le_rfl ?_) (by simp)⟩
    · intro j hj
      rw [hh]
      exact List.mem_cons_of_mem i hj
    · intro j hj hji
      rw [hh] at hj
      exact (List.mem_cons.mp hj).resolve_left hji
    · rw [hval]
      exact fun hn => by cases hn
  · exact absurd ⟨h.heap_lt i hmem, h.remaining_zero (.inl hmem)⟩ hno

end

end Moves

/-! ## The loops of `finish_execution` -/

theorem LiveInv.releaseChild {later : TxIdx → Nat} {c : TxIdx} (hc : c < n)
    (h : LiveInv n s (fun c' => later c' + (c :: rest).count c') threads) :
    LiveInv n (s.releaseChild c) (fun c' => later c' + rest.count c') threads := by
  have hbase := h.base.releaseChild
  have hcount : s.remainingDependencies c = later c + rest.count c + 1 := by
    rw [h.exact c, List.count_cons_self, Nat.add_assoc]
  rw [releaseChild_eq] at hbase ⊢
  refine ⟨hbase, h.owned, ?_, ?_, ?_, h.dep_lt, h.dep_wait, h.released, h.covered⟩
  · intro c'
    by_cases hcc : c' = c
    · subst hcc
      show update s.remainingDependencies c' _ c' = _
      rw [update_self, fetchSub, hcount]
      rfl
    · show update s.remainingDependencies c _ c' = _
      rw [update_of_ne hcc, h.exact c', List.count_cons_of_ne (Ne.symm hcc)]
  · intro i hi
    simp only [releasedHeap] at hi
    split at hi
    · rcases (List.mem_orderedInsert (r := (· ≤ ·))).mp hi with rfl | hi
      · exact hc
      · exact h.heap_lt i hi
    · exact h.heap_lt i hi
  · intro i hi hr hz
    show i ∈ releasedHeap s.remainingDependencies s.executableTxs c
    unfold releasedHeap
    by_cases hic : i = c
    · subst hic
      have hz' : fetchSub (s.remainingDependencies i) = 0 :=
        (update_self i _ s.remainingDependencies).symm.trans hz
      rw [fetchSub, if_neg (by omega)] at hz'
      rw [if_pos (by omega)]
      exact (List.mem_orderedInsert (r := (· ≤ ·))).mpr (.inl rfl)
    · have hz' : s.remainingDependencies i = 0 :=
        (update_of_ne hic _ s.remainingDependencies).symm.trans hz
      have hmem := h.queued hi hr hz'
      split
      · exact (List.mem_orderedInsert (r := (· ≤ ·))).mpr (.inr hmem)
      · exact hmem

theorem LiveInv.releaseChildren (h : LiveInv n s s.pending threads) (i : TxIdx)
    (hchildren : ∀ c ∈ s.dependencyGraph.children i, c < n) :
    LiveInv n (s.releaseChildren i) (s.releaseChildren i).pending threads := by
  unfold GraphScheduler.releaseChildren
  split
  · exact h
  · rename_i hi
    let s1 : GraphScheduler := { s with childrenReleased := update s.childrenReleased i true }
    have hpending : s.pending = fun c => s1.pending c + (s.dependencyGraph.children i).count c :=
      funext (pending_release (Bool.eq_false_of_not_eq_true hi))
    have hrel : ∀ {p}, s.Finished p → s1.childrenReleased p = true := by
      intro p hp
      by_cases hpi : p = i
      · subst hpi; exact update_self p _ _
      · exact (update_of_ne hpi _ _).trans (h.released hp)
    have h1 : LiveInv n s1 (fun c => s1.pending c + (s.dependencyGraph.children i).count c)
        threads := by
      rw [hpending] at h
      exact ⟨⟨h.base.blockSize, h.base.life, h.base.heap, h.base.count, h.base.min, h.base.outside⟩,
        h.owned, h.exact, h.heap_lt, h.queued, h.dep_lt, h.dep_wait, hrel, h.covered⟩
    obtain ⟨hr, hg⟩ := foldl_releaseChild_graph (s.dependencyGraph.children i) s1
    rw [show ((s.dependencyGraph.children i).foldl GraphScheduler.releaseChild s1).pending =
      s1.pending from pending_congr hr hg]
    exact (foldl_rest (I := fun rest s' => (∀ c ∈ rest, c < n) ∧
        LiveInv n s' (fun c => s1.pending c + rest.count c) threads)
      (fun c rest s' h' => ⟨fun c' hc' => h'.1 c' (List.mem_cons_of_mem c hc'),
        h'.2.releaseChild (h'.1 c List.mem_cons_self)⟩) ⟨hchildren, h1⟩).2

theorem LiveInv.resumeDependent {b d : TxIdx}
    (h : LiveInv n (s.setDependents b (d :: rest)) pending threads) :
    LiveInv n ((s.resumeDependent d).setDependents b rest) pending threads := by
  have hbase := h.base.resumeDependent
  have hlist : (s.setDependents b (d :: rest)).transactionsDependents b = d :: rest :=
    update_self b _ _
  have hst : (s.transactionsStatus d).status = .aborting :=
    h.base.life.dep_status (by rw [hlist]; exact List.mem_cons_self)
  have hz : s.remainingDependencies d = 0 := by
    refine h.remaining_zero (.inr fun he => ?_)
    have hst' := hst
    rw [show s.transactionsStatus d = _ from he] at hst'
    cases hst'
  have hd : d < n :=
    h.base.lt_of_not_ready (show (s.transactionsStatus d).status ≠ _ by rw [hst]; simp)
  have hdrop : update (s.setDependents b (d :: rest)).transactionsDependents b rest =
      update s.transactionsDependents b rest := update_idem _ _ _
  have howned := (h.cycle.drainOne hlist
    (x := ⟨(s.transactionsStatus d).incarnation + 1, .readyToExecute⟩) (by simp) (by simp)).owned
  rw [hdrop] at howned
  -- The lists only get shorter, and the resumed transaction is not finished.
  have hdep : ∀ {b' j}, j ∈ update s.transactionsDependents b rest b' →
      j ∈ (s.setDependents b (d :: rest)).transactionsDependents b' := by
    intro b' j hj
    by_cases hb : b' = b
    · subst hb
      rw [update_self] at hj
      rw [hlist]
      exact List.mem_cons_of_mem d hj
    · rw [update_of_ne hb] at hj
      exact (congrArg (j ∈ ·) (update_of_ne hb _ _)).mpr hj
  have hfin : ∀ {j}, ((s.resumeDependent d).setDependents b rest).Finished j → j ≠ d ∧
      s.Finished j := by
    intro j hj
    rw [resumeDependent_of_zero hz] at hj
    have hjd : j ≠ d := by
      rintro rfl
      simp [Finished, GraphScheduler.setDependents, pushExecutable, setReadyStatus,
        GraphScheduler.setStatus] at hj
    simpa [Finished, GraphScheduler.setDependents, pushExecutable, setReadyStatus,
      GraphScheduler.setStatus, hjd] using hj
  rw [resumeDependent_of_zero hz] at hbase hfin ⊢
  refine ⟨hbase, howned, h.exact, ?_, ?_, fun hj => h.dep_lt (hdep hj),
    fun hj hf => h.dep_wait (hdep hj) (hfin hf).2, fun hp => h.released (hfin hp).2, ?_⟩
  · intro i hi
    rcases (List.mem_orderedInsert (r := (· ≤ ·))).mp hi with rfl | hi
    · exact hd
    · exact h.heap_lt i hi
  · intro i hi hr hzi
    by_cases hid : i = d
    · exact (List.mem_orderedInsert (r := (· ≤ ·))).mpr (.inl hid)
    · refine (List.mem_orderedInsert (r := (· ≤ ·))).mpr (.inr (h.queued hi ?_ hzi))
      exact (congrArg TxStatus.status (update_of_ne hid _ _)).symm.trans hr
  · intro i hi
    refine h.covered ?_
    have hid : i ≠ d := (hfin (.inl hi)).1
    exact (congrArg TxStatus.status (update_of_ne hid _ _)).symm.trans hi

theorem LiveInv.resumeDependents (h : LiveInv n s s.pending threads) (i : TxIdx) :
    LiveInv n (s.resumeDependents i) (s.resumeDependents i).pending threads := by
  have hgraph := foldl_resumeDependent_graph (s.transactionsDependents i) (s.setDependents i [])
  rw [show (s.resumeDependents i).pending = s.pending from pending_congr hgraph.1 hgraph.2.1]
  exact resumeDependents_induction (I := fun s' => LiveInv n s' s.pending threads)
    (fun _ _ _ h' => h'.resumeDependent) h

/-! ## The calls -/

theorem LiveInv.pass (h : LiveInv n s pending threads) (hp : s.Passes s') :
    LiveInv n s' pending threads := by
  rcases hp with ⟨rfl, -⟩ | ⟨rfl, hnot⟩
  · exact h
  · refine ⟨h.base.touch _ _, h.owned, h.exact, h.heap_lt, h.queued, h.dep_lt, h.dep_wait,
      h.released, ?_⟩
    intro i hi
    refine (h.covered hi).imp_left fun hle => Nat.succ_le_of_lt (Nat.lt_of_le_of_ne hle ?_)
    rintro rfl
    refine hnot ?_ (.inl hi)
    rw [h.base.blockSize]
    exact h.base.lt_of_not_ready (by rw [show (s.transactionsStatus _).status = _ from hi]; simp)

theorem LiveInv.no_dependents (h : LiveInv n s pending threads) (hi : s.Finished i) :
    s.transactionsDependents i = [] :=
  List.eq_nil_iff_forall_not_mem.mpr fun _ hj => h.dep_wait hj hi

section Calls

variable [DecidableEq ω] {v : TxVersion}

/-- A pass of `next_task` never has to steal: what is ready and released is in the heap. -/
theorem LiveInv.poll (h : LiveInv n s s.pending threads) (hw : threads w = .polling) :
    LiveInv n s.pollTask.1 s.pollTask.1.pending
      (update threads w (afterPoll s.pollTask.2)) := by
  have hrole : (threads w).role = .free := by rw [hw]; rfl
  have hval : (threads w).validates = none := by rw [hw]; rfl
  have hgone : ∀ {j} {l : GraphWorker}, (threads w).validates = some j → l.validates = some j := by
    intro j l hj
    rw [hval] at hj
    cases hj
  rcases pollTask_cases s with he | ⟨s1, task, hv, he⟩ | ⟨s1, hv, hx⟩
  · rw [he]
    exact h.idle s.validationIdx s.aborted hrole.symm fun hi =>
      covered_update (h.covered hi) le_rfl hgone
  · rw [he]
    rcases tryValidationTask_cases s with ⟨k, hlt, hn, hst, hz, he'⟩ | ⟨hn, hf, he'⟩ | ⟨s2, -, he'⟩
    · rw [h.base.blockSize] at hn
      exact absurd (h.queued hn (by rw [hst]) hz) (h.base.heap.not_mem_of_lt hlt)
    · cases he'.symm.trans hv
      refine h.idle (s.validationIdx + 1) s.aborted hrole.symm fun {i} hi => ?_
      by_cases hii : i = s.validationIdx
      · subst hii
        exact .inr ⟨w, by rw [update_self]; rfl⟩
      · rcases covered_update (h.covered hi) le_rfl hgone with hle | hex
        · exact .inl (Nat.succ_le_of_lt (Nat.lt_of_le_of_ne hle (Ne.symm hii)))
        · exact .inr hex
    · cases he'.symm.trans hv
  · rcases tryValidationTask_cases s with ⟨k, -, -, -, -, he'⟩ | ⟨-, -, he'⟩ | ⟨s2, hp, he'⟩
    · cases he'.symm.trans hv
    · cases he'.symm.trans hv
    cases he'.symm.trans hv
    have hpending : s1.pending = s.pending := by
      rcases hp with ⟨rfl, -⟩ | ⟨rfl, -⟩ <;> rfl
    have h1 : LiveInv n s1 s1.pending threads := hpending ▸ h.pass hp
    rcases tryExecutionTask_cases s1 with ⟨-, ht⟩ | ⟨i, rest, hh, ht⟩
    · rcases hx with ⟨s2, task, hx, he⟩ | ⟨s2, hx, he⟩
      · cases ht.symm.trans hx
      · cases ht.symm.trans hx
        rw [he]
        exact h1.idle s1.validationIdx s1.aborted hrole.symm fun hi =>
          covered_update (h1.covered hi) le_rfl hgone
    · obtain ⟨k, hex, hinv⟩ := h1.popTask hrole hval hh
      rw [hex] at ht
      rcases hx with ⟨s2, task, hx, he⟩ | ⟨s2, hx, he⟩
      · cases ht.symm.trans hx
        rw [he]
        exact hinv
      · cases ht.symm.trans hx

theorem LiveInv.wait (h : LiveInv n s pending threads) (hw : threads w = .executing v) {b : TxIdx}
    (hb : b < v.txIdx) (hnot : ¬ s.Finished b) :
    LiveInv n { s with
        transactionsStatus := update s.transactionsStatus v.txIdx
          { s.transactionsStatus v.txIdx with status := .aborting }
        transactionsDependents := update s.transactionsDependents b
          (s.transactionsDependents b ++ [v.txIdx]) } pending (update threads w .polling) := by
  have hrole : (threads w).role = .executing v := by rw [hw]; rfl
  refine h.change (h.base.wait hrole b) (h.cycle.wait hrole b).owned rfl (by simp) rfl rfl
    (fun _ => id) (fun _ hj _ => hj) ?_ (by simp)
    (fun _ hj => covered_update (h.covered hj) le_rfl ?_) (by simp)
  · intro b' j hj
    rcases mem_update_append hj with hj | ⟨rfl, rfl⟩
    · exact .inl hj
    · exact .inr ⟨hb, hnot⟩
  · rw [hw]
    exact fun hn => by cases hn

theorem LiveInv.executed (h : LiveInv n s pending threads) {k : Nat} (hw : threads w = .executing v)
    (hl : l.role = .free) (hrel : s.childrenReleased v.txIdx = true)
    (hdeps : s.transactionsDependents v.txIdx = []) (hk : k ≤ s.validationIdx)
    (hcov : k ≤ v.txIdx ∨ l.validates = some v.txIdx) :
    LiveInv n (s.executed v.txIdx k) pending (update threads w l) := by
  have hrole : (threads w).role = .executing v := by rw [hw]; rfl
  refine h.change (h.base.executed hrole hl k) ?_ rfl (by simp) rfl rfl (fun _ => id)
    (fun _ hj _ => hj) .inl (fun _ => ⟨hrel, hdeps⟩)
    (fun _ hj => covered_update (h.covered hj) hk ?_) fun _ => hcov
  · rw [hl]
    exact (h.cycle.finish hrole (by simp) (by simp)).owned
  · rw [hw]
    exact fun hn => by cases hn

theorem releaseChildren_released (s : GraphScheduler) (i : TxIdx) :
    (s.releaseChildren i).childrenReleased i = true := by
  unfold GraphScheduler.releaseChildren
  split
  · assumption
  · rw [(foldl_releaseChild_graph _ _).1]
    exact update_self i _ _

theorem LiveInv.finishExecution (h : LiveInv n s s.pending threads) (hw : threads w = .executing v)
    (hchildren : ∀ c ∈ s.dependencyGraph.children v.txIdx, c < n) (flags : FinishExecFlags) :
    LiveInv n (s.finishExecution v flags).1 (s.finishExecution v flags).1.pending
      (update threads w (.take (s.finishExecution v flags).2)) := by
  have h1 := (h.releaseChildren v.txIdx hchildren).resumeDependents v.txIdx
  have hgraph := foldl_resumeDependent_graph
    ((s.releaseChildren v.txIdx).transactionsDependents v.txIdx)
    ((s.releaseChildren v.txIdx).setDependents v.txIdx [])
  have hrel : ((s.releaseChildren v.txIdx).resumeDependents v.txIdx).childrenReleased v.txIdx =
      true := by
    refine (congrFun hgraph.1 v.txIdx).trans ?_
    exact releaseChildren_released s v.txIdx
  have hdeps : ((s.releaseChildren v.txIdx).resumeDependents v.txIdx).transactionsDependents
      v.txIdx = [] :=
    (congrFun hgraph.2.2 v.txIdx).trans (update_self v.txIdx _ _)
  have hn : v.txIdx < ((s.releaseChildren v.txIdx).resumeDependents v.txIdx).blockSize := by
    rw [h1.base.blockSize]
    exact h.base.exec_lt (by rw [hw]; rfl)
  unfold GraphScheduler.finishExecution
  rcases scheduleValidation_cases flags hn with ⟨k, hk, he⟩ | ⟨hle, he⟩
  · rw [he]
    exact h1.executed hw rfl hrel hdeps hk (.inr rfl)
  · rw [he]
    exact h1.executed hw rfl hrel hdeps le_rfl (.inl hle)

theorem LiveInv.abort (h : LiveInv n s pending threads) {numValidated : Nat}
    (hw : threads w = .validating v) (hfin : s.Finished v.txIdx)
    (hnum : ((s.transactionsStatus v.txIdx).status = .executed ∧ numValidated = s.numValidated) ∨
      ((s.transactionsStatus v.txIdx).status = .validated ∧
        numValidated = fetchSub s.numValidated)) :
    LiveInv n { s with
        transactionsStatus := update s.transactionsStatus v.txIdx
          { s.transactionsStatus v.txIdx with status := .aborting }
        numValidated } pending (update threads w (.aborted v)) := by
  have he : (s.transactionsStatus v.txIdx).status ≠ .executing := by
    rcases hfin with hf | hf <;> rw [hf] <;> simp
  have ha : (s.transactionsStatus v.txIdx).status ≠ .aborting := by
    rcases hfin with hf | hf <;> rw [hf] <;> simp
  refine h.change (h.base.abort hfin hnum) (h.cycle.abort (by rw [hw]; rfl) he ha).owned rfl
    (by simp) rfl rfl (fun _ => id) (fun _ hj _ => hj) .inl (by simp)
    (fun hji hj => covered_update (h.covered hj) le_rfl fun hv => ?_) (by simp)
  rw [hw] at hv
  exact absurd (Option.some.inj hv).symm hji

section

variable (h : LiveInv n s s.pending threads)

include h

theorem LiveInv.finishPassed (hrole : (threads w).role = .free)
    (hval : (threads w).validates = some v.txIdx) :
    LiveInv n (s.finishValidation v false).1 (s.finishValidation v false).1.pending
      (update threads w (.take (s.finishValidation v false).2)) := by
  have hbase := h.base.finishPassed v hrole
  have hother : ∀ {j}, j ≠ v.txIdx → (threads w).validates = some j →
      GraphWorker.polling.validates = some j := by
    intro j hji hv
    rw [hval] at hv
    exact absurd (Option.some.inj hv).symm hji
  rcases finishValidation_passed s v with ⟨hs, he⟩ | ⟨hs, he⟩
  · rw [he] at hbase ⊢
    refine h.change hbase ?_ rfl (by simp) rfl rfl (fun _ => id) (fun _ hj _ => hj) .inl
      (fun _ => ⟨h.released (.inl hs), h.no_dependents (.inl hs)⟩)
      (fun hji hj => covered_update (h.covered hj) le_rfl (hother hji)) (by simp)
    rw [show (GraphWorker.take none).role = (threads w).role from hrole.symm,
      update_eq_self]
    exact (h.cycle.settle (by rw [hs]; simp) (by rw [hs]; simp) (by simp) (by simp)).owned
  · rw [he]
    refine h.idle s.validationIdx s.aborted hrole.symm fun {i} hi =>
      covered_update (h.covered hi) le_rfl (hother ?_)
    rintro rfl
    exact hs hi

theorem LiveInv.finishAborted (hw : threads w = .aborted v) :
    LiveInv n (s.finishValidation v true).1 (s.finishValidation v true).1.pending
      (update threads w (.take (s.finishValidation v true).2)) := by
  have hrole : (threads w).role = .aborting v.txIdx := by rw [hw]; rfl
  have hbase := h.base.finishAborted hrole
  have hst := h.base.life.abort_status hrole
  have hn : v.txIdx < n := h.base.lt_of_not_ready (by rw [hst]; simp)
  have hz : s.remainingDependencies v.txIdx = 0 := by
    refine h.remaining_zero (.inr fun he => ?_)
    rw [he] at hst
    cases hst
  rcases finishValidation_aborted s v (by rw [h.base.blockSize]; exact hn) with ⟨-, he⟩ | ⟨hne, -⟩
  · rw [he] at hbase ⊢
    have hstatus : ((s.readied v.txIdx).setStatus v.txIdx
        ⟨(s.transactionsStatus v.txIdx).incarnation + 1, .executing⟩).transactionsStatus =
        update s.transactionsStatus v.txIdx
          ⟨(s.transactionsStatus v.txIdx).incarnation + 1, .executing⟩ :=
      update_idem _ _ _
    have howned := ((h.cycle.release hrole
      (x := ⟨(s.transactionsStatus v.txIdx).incarnation + 1, .readyToExecute⟩) (by simp)
      (by simp)).issue (w := w)
      (v := ⟨v.txIdx, (s.transactionsStatus v.txIdx).incarnation + 1⟩) (by simp) (by simp)).owned
    simp only [update_idem] at howned
    rw [← hstatus] at howned
    refine h.change hbase howned hstatus (by simp) rfl rfl (fun _ => id) (fun _ hj _ => hj) .inl
      (by simp) (fun _ hj => covered_update (h.covered hj) (Nat.min_le_left _ _) ?_) (by simp)
    rw [hw]
    exact fun hn => by cases hn
  · exact absurd hz hne

theorem LiveInv.step {a : GraphCall} (hchildren : ∀ p c, c ∈ s.dependencyGraph.children p → c < n)
    (hok : BlocksLower ⟨s, threads⟩ (w, a)) (hex : s.exec (threads w) a = some (s', l)) :
    LiveInv n s' s'.pending (update threads w l) := by
  simp only [BlocksLower] at hok
  cases hw : threads w <;> rw [hw] at hex hok
  all_goals have hrole : (threads w).role = _ := congrArg GraphWorker.role hw
  case polling =>
    cases a
    case nextTask fuel =>
      rw [exec_nextTask] at hex
      cases hex
      have hself : update threads w .polling = threads := by rw [← hw, update_eq_self]
      refine nextTask_induction (I := fun s l => LiveInv n s s.pending (update threads w l)) ?_
        fuel (by rwa [hself])
      intro s h
      rw [hself] at h
      exact h.poll hw
    case timeout =>
      simp only [exec] at hex
      split at hex <;> cases hex
      refine h.idle s.validationIdx true hrole.symm fun hi =>
        covered_update (h.covered hi) le_rfl ?_
      rw [hw]
      exact fun hn => by cases hn
    all_goals cases hex
  case left => cases hex
  case executing v =>
    have hnone : ∀ {j} {l : GraphWorker}, (threads w).validates = some j → l.validates = some j := by
      intro j l hj
      rw [hw] at hj
      cases hj
    cases a
    case addDependency b =>
      simp only [exec] at hex
      split at hex
      · rcases addDependency_cases s v.txIdx b with ⟨hnot, he⟩ | he
        · rw [he] at hex
          cases hex
          exact h.wait hw hok hnot
        · rw [he] at hex
          cases hex
          exact h.idle s.validationIdx s.aborted hrole.symm fun hi =>
            covered_update (h.covered hi) le_rfl hnone
      · cases hex
    case finishExecution flags => cases hex; exact h.finishExecution hw (hchildren v.txIdx) flags
    case abort =>
      cases hex
      exact h.idle s.validationIdx true hrole.symm fun hi =>
        covered_update (h.covered hi) le_rfl hnone
    all_goals cases hex
  case failed => cases hex
  case validating v =>
    cases a
    case tryValidationAbort =>
      simp only [exec] at hex
      rcases tryValidationAbort_cases s v with ⟨hs, he⟩ | ⟨hs, he⟩ | ⟨-, he⟩
      · rw [he] at hex
        cases hex
        exact h.abort hw (.inl hs) (.inl ⟨hs, rfl⟩)
      · rw [he] at hex
        cases hex
        exact h.abort hw (.inr hs) (.inr ⟨hs, rfl⟩)
      · rw [he] at hex
        cases hex
        refine h.idle s.validationIdx s.aborted hrole.symm fun hi =>
          covered_update (h.covered hi) le_rfl ?_
        rw [hw]
        exact id
    case finishValidation => cases hex; exact h.finishPassed hrole (by rw [hw]; rfl)
    all_goals cases hex
  case kept v =>
    cases a
    case finishValidation => cases hex; exact h.finishPassed hrole (by rw [hw]; rfl)
    all_goals cases hex
  case aborted v =>
    cases a
    case finishValidation => cases hex; exact h.finishAborted hw
    all_goals cases hex

end

end Calls

/-! ## The start -/

theorem pending_new (hm : graph.Mirrored) (c : TxIdx) :
    (GraphScheduler.new n graph).pending c = (graph.parents c).length := by
  have hparents : (Finset.range graph.nodes.length).filter (· ∈ graph.parents c) =
      (graph.parents c).toFinset := by
    ext p
    simp only [Finset.mem_filter, Finset.mem_range, List.mem_toFinset, and_iff_right_iff_imp]
    exact fun hp => TransactionGraph.lt_of_mem_children ((hm.mem_children p c).mpr hp)
  calc (GraphScheduler.new n graph).pending c
      = ∑ p ∈ Finset.range graph.nodes.length, if p ∈ graph.parents c then 1 else 0 :=
        Finset.sum_congr rfl fun p _ => hm.count_child p c
    _ = ((Finset.range graph.nodes.length).filter (· ∈ graph.parents c)).card := by
        rw [Finset.card_filter]
    _ = (graph.parents c).length := by
        rw [hparents, List.toFinset_card_of_nodup (hm.parents_nodup c)]

theorem LiveInv.new (hn : graph.nodes.length = n) (hm : graph.Mirrored) :
    LiveInv n (GraphScheduler.new n graph) (GraphScheduler.new n graph).pending
      fun _ : ω => .polling where
  base := GraphInv.new fun c => .inr (pending_new hm c).le
  owned := fun _ => ⟨by rintro ⟨⟩, by rintro ⟨⟩⟩
  exact := fun c => (pending_new hm c).symm
  heap_lt := fun _ hi => hn ▸ List.mem_range.mp (List.mem_filter.mp hi).1
  queued := fun hi _ hz =>
    List.mem_filter.mpr ⟨List.mem_range.mpr (hn ▸ hi),
      List.isEmpty_iff.mpr (List.eq_nil_of_length_eq_zero hz)⟩
  dep_lt := fun h => by cases h
  dep_wait := fun h => by cases h
  released := fun h => by rcases h with h | h <;> cases h
  covered := fun h => by cases h

/-! ## Progress -/

theorem pending_eq_zero
    (h : ∀ p, i ∈ s.dependencyGraph.children p → s.childrenReleased p = true) :
    s.pending i = 0 := by
  refine Finset.sum_eq_zero fun p _ => ?_
  by_cases hp : i ∈ s.dependencyGraph.children p
  · rw [if_pos (h p hp)]
  · rw [List.count_eq_zero_of_not_mem hp, ite_self]

def Actionable (s : GraphScheduler) (i : TxIdx) : Prop :=
  ((s.transactionsStatus i).status = .readyToExecute ∧ s.remainingDependencies i = 0 ∧
      i ∈ s.executableTxs) ∨
    ((s.transactionsStatus i).status = .executed ∧ s.validationIdx ≤ i)

/-- If no worker has a task, the lowest transaction that is not validated is ready or executed:
nobody is left to answer for an executing or aborting one. -/
theorem LiveInv.actionable (h : LiveInv n s s.pending threads) (hf : s.dependencyGraph.Forward)
    (hfree : ∀ w, ¬ (threads w).HoldsTask) (hi : i < n)
    (hbelow : ∀ j < i, (s.transactionsStatus j).status = .validated)
    (hnot : (s.transactionsStatus i).status ≠ .validated) : Actionable s i := by
  have hrole : ∀ w, (threads w).role = .free := by
    intro w
    have hw := hfree w
    cases ht : threads w <;> rw [ht] at hw <;> simp_all [GraphWorker.HoldsTask, GraphWorker.role]
  have hval : ∀ w, (threads w).validates = none := by
    intro w
    have hw := hfree w
    cases ht : threads w <;> rw [ht] at hw <;>
      simp_all [GraphWorker.HoldsTask, GraphWorker.validates]
  cases hs : (s.transactionsStatus i).status with
  | readyToExecute =>
    have hz : s.remainingDependencies i = 0 := by
      rw [h.exact i]
      exact pending_eq_zero fun p hp => h.released (.inr (hbelow p (hf p i hp)))
    exact .inl ⟨hs, hz, h.queued hi hs hz⟩
  | executing =>
    obtain ⟨w, hw⟩ := (h.owned i).executing hs
    cases (hrole w).symm.trans hw
  | executed =>
    rcases h.covered hs with hle | ⟨w, hw⟩
    · exact .inr ⟨hs, hle⟩
    · cases (hval w).symm.trans hw
  | validated => exact absurd hs hnot
  | aborting =>
    -- It waits for a lower transaction, which is validated and has resumed its dependents.
    rcases (h.owned i).aborting hs with ⟨b, hb⟩ | ⟨w, hw⟩
    · exact absurd (.inr (hbelow b (h.dep_lt hb))) (h.dep_wait hb)
    · cases (hrole w).symm.trans hw

theorem LiveInv.not_done (h : LiveInv n s pending threads) (hi : i < n) (hact : Actionable s i) :
    s.checkAllDone = false := by
  unfold checkAllDone
  rcases hact with ⟨-, -, hmem⟩ | ⟨-, hle⟩
  · have hne : s.executableTxs.isEmpty = false :=
      List.isEmpty_eq_false_iff.mpr (List.ne_nil_of_mem hmem)
    rw [hne]
    simp
  · have hlt : ¬ s.blockSize ≤ s.validationIdx := by
      rw [h.base.blockSize]
      exact Nat.not_le_of_lt (hle.trans_lt hi)
    simp [hlt]

theorem LiveInv.tryExecutionTask (h : LiveInv n s pending threads)
    (hh : s.executableTxs = i :: rest) :
    ∃ s' task, s.tryExecutionTask = (s', some task) := by
  have hmem : i ∈ s.executableTxs := by rw [hh]; exact List.mem_cons_self
  have hready := h.base.heap.ready i hmem
  have hn : i < s.blockSize := by rw [h.base.blockSize]; exact h.heap_lt i hmem
  unfold GraphScheduler.tryExecutionTask
  rw [hh]
  rcases tryExecute_cases { s with executableTxs := rest } i with
    ⟨k, -, -, -, he⟩ | hab | ⟨hno, -⟩
  · exact ⟨_, _, by simp only [he]; rfl⟩
  · exact absurd (hab.symm.trans hready) (by simp)
  · exact absurd hready (hno hn (h.remaining_zero (.inl hmem)))

theorem LiveInv.progress (h : LiveInv n s s.pending threads) (hrun : s.aborted = false) (hi : i < n)
    (hbelow : ∀ j < i, (s.transactionsStatus j).status = .validated) (hact : Actionable s i) :
    ∃ s' task, s.pollTask = (s', .done (some task)) := by
  have hdone := h.not_done hi hact
  unfold pollTask
  rw [hrun, hdone]
  rcases tryValidationTask_cases s with ⟨k, -, -, -, -, he⟩ | ⟨-, -, he⟩ | ⟨s1, hp, he⟩
  · exact ⟨_, _, by rw [he]; rfl⟩
  · exact ⟨_, _, by rw [he]; rfl⟩
  have h1 := h.pass hp
  cases hh : s1.executableTxs with
  | nil =>
    -- With an empty heap the validation index stands at or below an executed transaction.
    exfalso
    have hheap : s.executableTxs = [] := by
      rcases hp with ⟨rfl, -⟩ | ⟨rfl, -⟩ <;> exact hh
    rcases hact with ⟨-, -, hmem⟩ | ⟨hs, hle⟩
    · rw [hheap] at hmem
      cases hmem
    · have hlt : s.validationIdx < s.blockSize := by
        rw [h.base.blockSize]
        exact hle.trans_lt hi
      have hfin : s.Finished s.validationIdx := by
        rcases Nat.eq_or_lt_of_le hle with he | hl
        · exact .inl (he ▸ hs)
        · exact .inr (hbelow _ hl)
      rcases hp with ⟨-, hge⟩ | ⟨-, hnf⟩
      · rw [execIdx, hheap] at hge
        exact absurd hlt (Nat.not_lt_of_le hge)
      · exact hnf hlt hfin
  | cons j rest =>
    obtain ⟨s2, task, hx⟩ := h1.tryExecutionTask hh
    exact ⟨s2, task, by simp [he, hx]⟩

/-- The graph scheduler neither gets stuck nor strands a transaction. -/
theorem graphScheduler_never_stuck [DecidableEq ω] {graph : TransactionGraph}
    (hn : graph.nodes.length = n) (hm : graph.Mirrored) (hf : graph.Forward)
    {c : Config GraphScheduler GraphWorker ω}
    (h : Reach ((GraphScheduler.program n graph).system ω) BlocksLower c)
    (hfree : ∀ w, ¬ (c.threads w).HoldsTask) {i : TxIdx} (hi : i < n)
    (hbelow : ∀ j < i, (c.shared.transactionsStatus j).status = .validated)
    (hnot : (c.shared.transactionsStatus i).status ≠ .validated) :
    Actionable c.shared i ∧ c.shared.checkAllDone = false ∧
      (c.shared.aborted = false →
        ∃ s' task, c.shared.pollTask = (s', .done (some task))) := by
  obtain ⟨hgraph, hinv⟩ : c.shared.dependencyGraph = graph ∧
      LiveInv n c.shared c.shared.pending c.threads := by
    refine Program.invariant (I := fun (s : GraphScheduler) threads =>
      s.dependencyGraph = graph ∧ LiveInv n s s.pending threads) ⟨rfl, LiveInv.new hn hm⟩ ?_ h
    rintro s threads w a s' l ⟨rfl, hI⟩ hok hex
    exact ⟨exec_graph hex, hI.step (fun _ _ hc => hn ▸ hm.child_lt hc) hok hex⟩
  have hact := hinv.actionable (hgraph ▸ hf) hfree hi hbelow hnot
  refine ⟨hact, hinv.not_done hi hact, fun hrun => ?_⟩
  exact hinv.progress hrun hi hbelow hact

/-- The first of two transactions is validated and no worker has a task: the second is in the heap
and is issued next. -/
theorem graphScheduler_never_stuck_pair : ∃ c : Config GraphScheduler GraphWorker (Fin 1),
    Reach ((GraphScheduler.program 2 pairGraph).system (Fin 1)) BlocksLower c ∧
    (c.shared.transactionsStatus 1).status = .readyToExecute ∧ Actionable c.shared 1 ∧
    c.shared.checkAllDone = false ∧ ∃ s' task, c.shared.pollTask = (s', .done (some task)) := by
  obtain ⟨c, hc, hp⟩ := exists_reach_of_run
    (S := (GraphScheduler.program 2 pairGraph).system (Fin 1))
    (fun c a (h : decide (BlocksLower c a) = true) => of_decide_eq_true h)
    [(0, .nextTask 1), (0, .finishExecution ⟨0⟩), (0, .finishValidation)]
    (p := fun c => c.threads 0 = .polling ∧ c.shared.aborted = false ∧
      (c.shared.transactionsStatus 0).status = .validated ∧
      (c.shared.transactionsStatus 1).status = .readyToExecute) (by decide +kernel)
  obtain ⟨hw, hrun, h0, h1⟩ := of_decide_eq_true hp
  obtain ⟨hact, hdone, hprogress⟩ := graphScheduler_never_stuck
    (pairGraph_represents.length_eq.symm.trans rfl) pairGraph_represents.mirrored
    pairGraph_represents.forward hc
    (by intro w; rw [Subsingleton.elim w 0, hw]; exact id)
    (i := 1) (by decide)
    (by intro j hj; rw [Nat.lt_one_iff.mp hj]; exact h0)
    (by rw [h1]; simp)
  exact ⟨c, hc, h1, hact, hdone, hprogress hrun⟩

end CongestionControl.Pevm
