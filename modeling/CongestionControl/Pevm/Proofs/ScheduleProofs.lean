import CongestionControl.Lib.ListSchedule
import CongestionControl.Pevm.Proofs.ConstructionProofs
import CongestionControl.Pevm.Proofs.SimulationProofs
import Mathlib.Data.UInt

/-!
# Proofs: the simulated execution is a list schedule

The clock of the simulation follows a `Timeline`: the execution order has the slots that have been given
out, the completion heap those that are running.
-/

namespace CongestionControl.Pevm

open TransactionNode Transition
open scoped List

variable {q : Slot Nat}

namespace Simulation

open TransactionGraph

variable {b : BlockGraph} {G : TaskGraph Nat} {k : Nat} {c : Clock} {s : Dispatch Nat}
  {tl : Timeline Nat} {txId : TransactionId} {threads : List ThreadState}
  {events : List EstimatedCompletion} {running : List Nat} {thread : ThreadState}

def gasAt (b : BlockGraph) (i : Nat) : Nat := (b.txs[i]?).elim 0 fun tx => tx.gasCost.toNat

def slotOf (b : BlockGraph) (tx : ScheduledTx) : Slot Nat :=
  ⟨tx.threadId, b.ids.idxOf tx.txId, tx.startTime.toNat, tx.endTime.toNat⟩

structure Timed (b : BlockGraph) (c : Clock) (tl : Timeline Nat) : Prop where
  placed : tl.placed = c.executionOrder.map (slotOf b)
  known : ∀ tx ∈ c.executionOrder, tx.txId ∈ b.ids
  events : c.completionHeap.map (fun event => (event.time.toNat, event.threadId)) ~
    tl.running.map fun q => (q.finish, q.thread)
  sorted : c.completionHeap.Pairwise (· ≤ ·)
  now : c.currentTime.toNat = tl.now
  /-- What a thread has completed and what it runs is what was assigned to it. -/
  history : ∀ thread ∈ c.threads,
    thread.completedTransactions ++ thread.currentTransaction.toList =
      (c.executionOrder.filter (·.threadId = thread.threadId)).map ScheduledTx.txId
  current : ∀ thread ∈ c.threads, ∀ q ∈ tl.running, q.thread = thread.threadId →
    b.ids[q.task]? = thread.currentTransaction

theorem ids_idxOf (h : txId ∈ b.ids) : b.ids[b.ids.idxOf txId]? = some txId :=
  List.getElem?_idxOf h

theorem idxOf_ids {i : Nat} (h : b.ids[i]? = some txId) :
    b.ids.idxOf txId = i :=
  b.nodup.getElem?_unique (ids_idxOf (List.mem_of_getElem? h)) h

theorem Timed.ids_task (h : Timed b c tl) (hq : q ∈ tl.placed) :
    ∃ txId, b.ids[q.task]? = some txId := by
  rw [h.placed] at hq
  obtain ⟨tx, htx, rfl⟩ := List.mem_map.mp hq
  exact ⟨tx.txId, ids_idxOf (h.known tx htx)⟩

theorem Timed.init (b : BlockGraph) (k : Nat) :
    Timed b ⟨(List.range k).map ThreadState.new, [], [], 0⟩ ⟨[], [], 0⟩ where
  placed := rfl
  known := by simp
  events := .nil
  sorted := .nil
  now := rfl
  history := by
    intro thread hthread
    obtain ⟨j, -, rfl⟩ := List.mem_map.mp hthread
    rfl
  current := by simp

theorem time_le_of_le {e e' : EstimatedCompletion} (h : e ≤ e') : e.time.toNat ≤ e'.time.toNat := by
  have hlex : toLex (e.time.toNat, e.threadId) ≤ toLex (e'.time.toNat, e'.threadId) := h
  rcases Prod.Lex.toLex_le_toLex.mp hlex with hlt | ⟨heq, -⟩
  · exact hlt.le
  · exact heq.le

theorem Tracks.threadId_lt (h : Tracks b k threads events running) (hthread : thread ∈ threads) :
    thread.threadId < k := by
  have hmem : thread.threadId ∈ threads.map ThreadState.threadId := List.mem_map_of_mem hthread
  rw [h.threadIds] at hmem
  exact List.mem_range.mp hmem

theorem Tracks.threadId_eq (h : Tracks b k threads events running) {j : Nat}
    (hj : threads[j]? = some thread) : thread.threadId = j := by
  have hat : (threads.map ThreadState.threadId)[j]? = some thread.threadId := by
    rw [List.getElem?_map, hj]
    rfl
  rw [h.threadIds] at hat
  obtain ⟨hlt, hval⟩ := List.getElem?_eq_some_iff.mp hat
  rw [List.getElem_range] at hval
  exact hval.symm

theorem Timed.threads_perm (h : Timed b c tl) :
    tl.running.map Slot.thread ~ c.completionHeap.map EstimatedCompletion.threadId := by
  have hmap := h.events.map Prod.snd
  rw [List.map_map, List.map_map] at hmap
  exact hmap.symm

theorem Timed.threads_nodup (h : Timed b c tl)
    (ht : Tracks b k c.threads c.completionHeap s.running) : (tl.running.map Slot.thread).Nodup := by
  refine (h.threads_perm.trans ht.events).nodup_iff.mpr ?_
  have hsub : (c.threads.filter (!·.isIdle)).map ThreadState.threadId <+ List.range k := by
    rw [← ht.threadIds]
    exact List.filter_sublist.map _
  exact hsub.nodup List.nodup_range

theorem work_le_total (h : Timeline.Inv G (gasAt b) k s tl) (hs : s.Inv G []) :
    Schedule.work (gasAt b) tl.placed ≤ (G.tasks.map (gasAt b)).sum := by
  rw [Schedule.work, h.started]
  have hsub : s.started ⊆ G.tasks := fun i hi => hs.mem i (List.mem_append_left _ hi)
  obtain ⟨l, hperm, hl⟩ := (List.nodup_append.mp hs.nodup).1.subperm hsub
  rw [← (hperm.map (gasAt b)).sum_eq]
  exact (hl.map (gasAt b)).sum_le_sum fun _ _ => Nat.zero_le _

theorem Timed.start (h : Timed b c tl) {pre rest : List ThreadState} {tx : TransactionNode}
    {i : Nat} (hthreads : c.threads = pre ++ thread :: rest)
    (hids : (c.threads.map ThreadState.threadId).Nodup) (hidle : thread.isIdle = true)
    (hfree : ∀ q ∈ tl.running, q.thread ≠ thread.threadId) (hi : b.ids[i]? = some tx.transactionId)
    (hadd : (c.currentTime + tx.gasCost).toNat = tl.now + gasAt b i) :
    Timed b (c.start pre rest thread tx)
      ⟨tl.placed ++ [⟨thread.threadId, i, tl.now, tl.now + gasAt b i⟩],
        ⟨thread.threadId, i, tl.now, tl.now + gasAt b i⟩ :: tl.running, tl.now⟩ := by
  have hnone : thread.currentTransaction = none := Option.isNone_iff_eq_none.mp hidle
  have hmem : thread ∈ c.threads := by rw [hthreads]; simp
  -- The other threads have other numbers.
  have hother : ∀ t ∈ pre ++ rest, t ∈ c.threads ∧ t.threadId ≠ thread.threadId := by
    intro t ht
    rw [hthreads] at hids ⊢
    rw [((List.perm_middle).map ThreadState.threadId).nodup_iff, List.map_cons,
      List.nodup_cons] at hids
    exact ⟨List.perm_middle.symm.subset (List.mem_cons_of_mem thread ht),
      fun he => hids.1 (he ▸ List.mem_map_of_mem ht)⟩
  have hcases : ∀ {P : ThreadState → Prop}, (∀ t ∈ pre ++ rest, P t) →
      P (thread.assignTransaction tx.transactionId c.currentTime tx.gasCost) →
      ∀ t ∈ (c.start pre rest thread tx).threads, P t := by
    intro P hold hnew t ht
    rcases List.mem_cons.mp (List.perm_middle.subset ht) with rfl | ht
    · exact hnew
    · exact hold t ht
  refine ⟨?_, ?_, ?_, ?_, h.now, ?_, ?_⟩
  · have hslot : slotOf b ⟨thread.threadId, tx.transactionId, c.currentTime,
        c.currentTime + tx.gasCost⟩ = ⟨thread.threadId, i, tl.now, tl.now + gasAt b i⟩ := by
      unfold slotOf
      rw [idxOf_ids hi, hadd, h.now]
    simp only [Clock.start, List.map_append, List.map_cons, List.map_nil, hslot, h.placed]
  · intro e he
    rcases List.mem_append.mp he with he | he
    · exact h.known e he
    · rw [List.mem_singleton.mp he]
      exact List.mem_of_getElem? hi
  · refine ((List.perm_orderedInsert _ _ _).map _).trans ?_
    rw [List.map_cons, hadd]
    exact h.events.cons _
  · exact (List.Pairwise.orderedInsert _ _ h.sorted)
  · refine hcases (fun t ht => ?_) ?_
    · obtain ⟨ht, hne⟩ := hother t ht
      rw [h.history t ht, Clock.start]
      simp [Ne.symm hne]
    · have hold := h.history thread hmem
      rw [hnone, Option.toList_none, List.append_nil] at hold
      simp [ThreadState.assignTransaction, Clock.start, List.filter_append, hold]
  · refine hcases (fun t ht q hq hthread => ?_) fun q hq hthread => ?_
    · obtain ⟨ht, hne⟩ := hother t ht
      rcases List.mem_cons.mp hq with rfl | hq
      · exact absurd hthread.symm hne
      · exact h.current t ht q hq hthread
    · rcases List.mem_cons.mp hq with rfl | hq
      · exact hi
      · exact absurd hthread (hfree q hq)

theorem Timed.complete (h : Timed b c tl) {event : EstimatedCompletion}
    (hheap : c.completionHeap = event :: events) {running : List (Slot Nat)}
    (hrunning : tl.running ~ q :: running)
    (hevent : (q.finish, q.thread) = (event.time.toNat, event.threadId))
    (hnodup : (tl.running.map Slot.thread).Nodup) (hahead : tl.now ≤ q.finish)
    {thread' : ThreadState} (hmem : thread ∈ c.threads) (hid : thread.threadId = event.threadId)
    (hcomplete : thread.completeTransaction = some (txId, thread')) :
    Timed b (c.complete event events thread') ⟨tl.placed, running, q.finish⟩ := by
  obtain ⟨hfinish, hthread⟩ := Prod.mk.inj hevent
  obtain ⟨cur, hcur, hpair⟩ := Option.map_eq_some_iff.mp hcomplete
  cases hpair
  have hsub : ∀ r ∈ running, r ∈ tl.running := fun r hr =>
    hrunning.symm.subset (List.mem_cons_of_mem q hr)
  have hsorted := h.sorted
  have hevents := h.events
  rw [hheap] at hsorted hevents
  refine ⟨h.placed, h.known, ?_, (List.pairwise_cons.mp hsorted).2, ?_, fun t ht => ?_,
    fun t ht r hr hrt => ?_⟩
  · have hperm := hevents.trans (hrunning.map fun q => (q.finish, q.thread))
    rw [List.map_cons, List.map_cons, hevent] at hperm
    exact hperm.cons_inv
  · -- The event is not earlier than the time, so the time becomes that of the event.
    rw [← h.now] at hahead
    show (if event.time > c.currentTime then event.time else c.currentTime).toNat = q.finish
    rw [hfinish]
    split
    · rfl
    · rename_i hnot
      have hle : event.time.toNat ≤ c.currentTime.toNat := by
        rw [gt_iff_lt, UInt64.lt_iff_toNat_lt] at hnot
        omega
      omega
  · rcases List.mem_or_eq_of_mem_set ht with ht | rfl
    · exact h.history t ht
    · have hold := h.history thread hmem
      rw [hcur] at hold
      rw [Option.toList_none, List.append_nil]
      exact hold
  · rcases List.mem_or_eq_of_mem_set ht with ht | rfl
    · exact h.current t ht r (hsub r hr) hrt
    · -- No other slot is running on the thread of the event.
      have hcons := (hrunning.map Slot.thread).nodup_iff.mp hnodup
      rw [List.map_cons, List.nodup_cons] at hcons
      have hsame : q.thread = r.thread := by rw [hthread, ← hid]; exact hrt.symm
      exact absurd (hsame ▸ List.mem_map_of_mem hr) hcons.1

/-- The simulation keeps to a timeline as long as the gas costs do not overflow. -/
theorem kept_timed (htotal : (G.tasks.map (gasAt b)).sum < 2 ^ 64) :
    Kept b G k fun c s => ∃ tl, Timed b c tl ∧ Timeline.Inv G (gasAt b) k s tl := by
  constructor
  · rintro c s pre rest thread tx i ready ⟨tl, h, htl⟩ hs ht hthreads hidle htx hready
    have hmem : thread ∈ c.threads := by rw [hthreads]; simp
    have hids : (c.threads.map ThreadState.threadId).Nodup := by
      rw [ht.threadIds]
      exact List.nodup_range
    have hi : b.ids[i]? = some tx.transactionId := by
      rw [BlockGraph.ids, List.getElem?_map, htx]
      rfl
    have hgas : gasAt b i = tx.gasCost.toNat := by rw [gasAt, htx, Option.elim_some]
    have hfree : ∀ q ∈ tl.running, q.thread ≠ thread.threadId := by
      intro q hq hthread
      obtain ⟨txId, htask⟩ := h.ids_task (htl.placed q hq)
      rw [h.current thread hmem q hq hthread, Option.isNone_iff_eq_none.mp hidle] at htask
      cases htask
    have htl' := htl.start hs hready (ht.threadId_lt hmem) hfree
    have hadd : (c.currentTime + tx.gasCost).toNat = tl.now + gasAt b i := by
      have hle := htl'.bounded ⟨thread.threadId, i, tl.now, tl.now + gasAt b i⟩ (by simp)
      have hwork := work_le_total htl' (hs.start hready)
      rw [UInt64.toNat_add, h.now, ← hgas, Nat.mod_eq_of_lt]
      exact lt_of_le_of_lt (hle.trans hwork) htotal
    exact ⟨_, h.start hthreads hids hidle hfree hi hadd, htl'⟩
  · rintro c s s' event events thread thread' txId i ⟨tl, h, htl⟩ hs ht hgreedy hheap hthread
      hcomplete hi hrunning hstarted
    have hmem : thread ∈ c.threads := List.mem_of_getElem? hthread
    have hid := ht.threadId_eq hthread
    -- The slot of the event.
    have hevents := h.events
    rw [hheap] at hevents
    obtain ⟨q, hq, hevent⟩ := List.mem_map.mp (hevents.subset List.mem_cons_self)
    obtain ⟨l, r, hsplit⟩ := List.append_of_mem hq
    have hperm : tl.running ~ q :: (l ++ r) := hsplit ▸ List.perm_middle
    have hmin : ∀ r ∈ tl.running, q.finish ≤ r.finish := by
      intro r hr
      have hr' := h.events.symm.subset (List.mem_map_of_mem hr)
      obtain ⟨e, he, heq⟩ := List.mem_map.mp hr'
      rw [← (Prod.mk.inj heq).1, (Prod.mk.inj hevent).1]
      have hsorted := h.sorted
      rw [hheap] at hsorted he
      rcases List.mem_cons.mp he with rfl | he
      · exact le_rfl
      · exact time_le_of_le ((List.pairwise_cons.mp hsorted).1 e he)
    have htask : q.task = i := by
      obtain ⟨cur, hcur, hpair⟩ := Option.map_eq_some_iff.mp hcomplete
      have hq' := h.current thread hmem q hq ((Prod.mk.inj hevent).2.trans hid.symm)
      rw [hcur, (Prod.mk.inj hpair).1] at hq'
      exact b.nodup.getElem?_unique hq' hi
    have hfull : s.ready = [] ∨ ∀ j < k, ∃ r ∈ tl.running, r.thread = j := by
      refine hgreedy.imp_right fun hbusy j hj => ?_
      have hall : c.threads.filter (!·.isIdle) = c.threads :=
        List.filter_eq_self.mpr fun t ht => by simp [hbusy t ht]
      have hperm := h.threads_perm.trans ht.events
      rw [hall, ht.threadIds] at hperm
      exact List.mem_map.mp (hperm.symm.subset (List.mem_range.mpr hj))
    refine ⟨⟨tl.placed, l ++ r, q.finish⟩, ?_, ?_⟩
    · exact h.complete hheap hperm hevent (h.threads_nodup ht) (htl.ahead q hq) hmem hid hcomplete
    · exact htl.finish hs hperm hmin hfull hstarted (htask ▸ hrunning)

end Simulation

/-! ## The result of the simulation -/

def largest (l : List Nat) : Nat := l.foldr max 0

theorem le_largest {l : List Nat} {x : Nat} (h : x ∈ l) : x ≤ largest l := by
  induction l with
  | nil => exact absurd h List.not_mem_nil
  | cons a l ih =>
    have hcons : largest (a :: l) = max a (largest l) := rfl
    rcases List.mem_cons.mp h with rfl | h
    · omega
    · have hle := ih h
      omega

theorem largest_le {l : List Nat} {m : Nat} (h : ∀ x ∈ l, x ≤ m) : largest l ≤ m := by
  induction l with
  | nil => exact Nat.zero_le m
  | cons a l ih =>
    have hcons : largest (a :: l) = max a (largest l) := rfl
    have ha := h a List.mem_cons_self
    have hle := ih fun x hx => h x (List.mem_cons_of_mem a hx)
    omega

namespace TransactionGraph

def IsParent (g : TransactionGraph) (pid cid : TransactionId) : Prop :=
  ∃ p c, g.ids[p]? = some pid ∧ g.ids[c]? = some cid ∧ p ∈ g.parents c

structure ValidResult (g : TransactionGraph) (k : Nat) (result : SimulationResult) : Prop where
  perm : result.executionOrder.map ScheduledTx.txId ~ g.ids
  parents : ∀ p ∈ result.executionOrder, ∀ c ∈ result.executionOrder,
    g.IsParent p.txId c.txId → p.endTime ≤ c.startTime
  gasCost : ∀ tx ∈ result.executionOrder, ∀ node ∈ g.nodes, node.transactionId = tx.txId →
    tx.endTime.toNat = tx.startTime.toNat + node.gasCost.toNat
  threadId_lt : ∀ tx ∈ result.executionOrder, tx.threadId < k
  apart : result.executionOrder.Pairwise fun tx tx' =>
    tx.threadId = tx'.threadId → tx.endTime ≤ tx'.startTime
  totalTime : result.totalTime.toNat =
    largest (result.executionOrder.map fun tx => tx.endTime.toNat)
  threads : result.threadResults.map ThreadState.threadId = List.range k
  completed : ∀ thread ∈ result.threadResults, thread.completedTransactions =
    (result.executionOrder.filter (·.threadId = thread.threadId)).map ScheduledTx.txId

open Simulation

variable {g : TransactionGraph} {b : BlockGraph} {k : Nat} {f : Nat → UInt64}

theorem Represents.gasAt_eq (h : g.Represents b) : gasAt b = g.gas := by
  funext i
  rw [gasAt, gas, ← h.nodes, List.getElem?_map]
  cases g.nodes[i]? <;> rfl

theorem Represents.simulate_timed (h : g.Represents b) (hk : 1 ≤ k)
    (hheap : g.nodes = [] → g.txnsWithoutParent = []) (htotal : g.totalGas < 2 ^ 64)
    (hf : g.Suffixes f) :
    ∃ g' c s tl, g.simulateParallelExecution k = some g' ∧ g'.nodes = g.withSuffixes f ∧
      g'.simulationResult = some (.new c.currentTime c.threads c.executionOrder) ∧
      Ended b (g.taskGraph h.mirrored h.forward) k c s ∧ Timed b c tl ∧
      Timeline.Inv (g.taskGraph h.mirrored h.forward) (gasAt b) k s tl ∧ tl.running = [] := by
  have htotal' : (((g.taskGraph h.mirrored h.forward).tasks).map (gasAt b)).sum < 2 ^ 64 := by
    rw [h.gasAt_eq]
    exact totalGas_eq ▸ htotal
  obtain ⟨g', c, s, he, -, hnodes, -, hresult, hend, tl, htimed, htl⟩ :=
    h.simulate_kept hk hheap hf (kept_timed htotal') fun ready remaining =>
      ⟨_, .init b k, .init ready remaining⟩
  have hrunning : tl.running = [] := by
    have hperm := htl.running
    rw [hend.running] at hperm
    exact List.map_eq_nil_iff.mp hperm.eq_nil
  exact ⟨g', c, s, tl, he, hnodes, hresult, hend, htimed, htl, hrunning⟩

section Result

variable {c : Clock} {s : Dispatch Nat} {tl : Timeline Nat} {G : TaskGraph Nat} {cost : Nat → Nat}

theorem slot_mem (htimed : Timed b c tl) {tx : ScheduledTx} (htx : tx ∈ c.executionOrder) :
    slotOf b tx ∈ tl.placed := by
  rw [htimed.placed]
  exact List.mem_map_of_mem htx

theorem finish_le_now (htl : Timeline.Inv G cost k s tl) (hrunning : tl.running = [])
    (hq : q ∈ tl.placed) : q.finish ≤ tl.now :=
  (htl.past q hq).resolve_left (by simp [hrunning])

theorem now_eq_largest (htimed : Timed b c tl) (htl : Timeline.Inv G cost k s tl)
    (hrunning : tl.running = []) :
    c.currentTime.toNat = largest (c.executionOrder.map fun tx => tx.endTime.toNat) := by
  rw [htimed.now]
  refine le_antisymm ?_ (largest_le fun x hx => ?_)
  · rcases htl.reached with hzero | ⟨q, hq, hnow⟩
    · omega
    · rw [htimed.placed] at hq
      obtain ⟨tx, htx, rfl⟩ := List.mem_map.mp hq
      rw [← hnow]
      exact le_largest (List.mem_map_of_mem htx)
  · obtain ⟨tx, htx, rfl⟩ := List.mem_map.mp hx
    exact finish_le_now htl hrunning (slot_mem htimed htx)

theorem Represents.validResult (h : g.Represents b)
    (hend : Ended b (g.taskGraph h.mirrored h.forward) k c s) (htimed : Timed b c tl)
    (htl : Timeline.Inv (g.taskGraph h.mirrored h.forward) (gasAt b) k s tl)
    (hrunning : tl.running = []) :
    g.ValidResult k (.new c.currentTime c.threads c.executionOrder) := by
  have hschedule := htl.schedule
  have hslot : ∀ tx ∈ c.executionOrder, slotOf b tx ∈ tl.placed := fun tx => slot_mem htimed
  constructor
  · rw [h.ids_eq]
    refine (schedule_of_started h rfl rfl hend.inv
      hend.ready hend.running ?_).perm
    rw [← hend.order]
    exact List.map_map
  · rintro p hp c' hc' ⟨i, j, hi, hj, hparent⟩
    rw [h.ids_eq] at hi hj
    have hj' : (slotOf b c').task = j := idxOf_ids hj
    obtain ⟨r, hr, hrtask, hle⟩ := hschedule.parents _ (hslot c' hc') i (hj' ▸ hparent)
    cases hschedule.eq_of_task hr (hslot p hp) (hrtask.trans (idxOf_ids hi).symm)
    exact UInt64.le_iff_toNat_le.mpr hle
  · intro tx htx node hnode hid
    obtain ⟨i, hi⟩ := List.mem_iff_getElem?.mp hnode
    have hids := h.getElem?_ids hi
    rw [hid] at hids
    have hfinish := hschedule.finish_eq _ (hslot tx htx)
    have hgas : gasAt b (slotOf b tx).task = node.gasCost.toNat := by
      rw [show (slotOf b tx).task = i from idxOf_ids hids, h.gasAt_eq, gas, hi, Option.elim_some]
    rw [hgas] at hfinish
    exact hfinish
  · exact fun tx htx => hschedule.thread_lt _ (hslot tx htx)
  · have hapart := hschedule.apart
    rw [htimed.placed] at hapart
    exact (List.pairwise_map.mp hapart).imp fun himp hthread =>
      UInt64.le_iff_toNat_le.mpr (himp hthread)
  · exact now_eq_largest htimed htl hrunning
  · exact hend.tracks.threadIds
  · intro thread hthread
    have hevents := htimed.events
    rw [hrunning] at hevents
    have htracks := hend.tracks
    rw [List.map_eq_nil_iff.mp hevents.eq_nil] at htracks
    have hnone := Option.isNone_iff_eq_none.mp (htracks.idle.2 thread hthread)
    have hhistory := htimed.history thread hthread
    rw [hnone, Option.toList_none, List.append_nil] at hhistory
    exact hhistory

end Result

/-- The simulation of a graph that was built by the calls ends with a schedule of its transactions. -/
theorem simulate_valid (g : TransactionGraph) (h : g.Constructed) (htotal : g.totalGas < 2 ^ 64)
    (k : Nat) (hk : 1 ≤ k) :
    ∃ g' result, g.simulateParallelExecution k = some g' ∧ g'.simulationResult = some result ∧
      g.ValidResult k result := by
  obtain ⟨b, hb⟩ := h.represents
  have hheap : g.txnsWithoutParent = [] := congrArg Prod.fst h.simulationState
  obtain ⟨f, hf⟩ := exists_suffixes hb.acyclic
  obtain ⟨g', c, s, tl, he, -, hresult, hend, htimed, htl, hrunning⟩ :=
    hb.simulate_timed hk (fun _ => hheap) htotal hf
  exact ⟨g', _, he, hresult, hb.validResult hend htimed htl hrunning⟩

theorem pairGraph_simulate_valid : ∃ g' result, pairGraph.simulateParallelExecution 2 = some g' ∧
    g'.simulationResult = some result ∧ pairGraph.ValidResult 2 result :=
  simulate_valid pairGraph pairGraph_constructed (by decide +kernel) 2 (by decide)

/-! ## The time of the schedule -/

/-- The suffixes are the weights of the heaviest chains. -/
theorem Represents.heaviest (h : g.Represents b) (htotal : g.totalGas < 2 ^ 64)
    (hf : g.Suffixes f) :
    Schedule.Heaviest (g.taskGraph h.mirrored h.forward) (gasAt b) fun i => (f i).toNat := by
  rw [h.gasAt_eq]
  have hlt : ∀ i, i ∈ (g.taskGraph h.mirrored h.forward).tasks ↔ i < g.nodes.length :=
    fun i => List.mem_range
  have hstep : ∀ i < g.nodes.length, (f i).toNat = g.gas i + (maxSuffix f (g.children i)).toNat :=
    fun i hi => (hf.step h.acyclic h.inRange htotal hi fun c hc =>
      hf.isGreatest h.acyclic h.inRange htotal (h.inRange i c hc)).1
  refine ⟨fun i hi => ?_, fun i hi c hc => ?_, fun i hi => ?_⟩
  · have hval := hstep i ((hlt i).mp hi)
    omega
  · have hval := hstep i ((hlt i).mp hi)
    have hle : (f c).toNat ≤ (maxSuffix f (g.children i)).toNat :=
      (foldl_max_spec f (g.children i) 0).2.1 c hc
    omega
  · have hval := hstep i ((hlt i).mp hi)
    rcases (foldl_max_spec f (g.children i) 0).2.2 with hzero | ⟨c, hc, heq⟩
    · have hzero' : (maxSuffix f (g.children i)).toNat = 0 := hzero
      exact .inl (by omega)
    · refine .inr ⟨c, (hlt c).mpr (h.inRange i c hc), hc, ?_⟩
      rw [hval]
      exact congrArg (g.gas i + ·) heq.symm

/-- As long as the gas costs do not overflow, a thread is idle only while no transaction is ready,
and the time keeps to the bounds of list schedules. -/
theorem simulate_list_schedule (g : TransactionGraph) (h : g.Constructed)
    (htotal : g.totalGas < 2 ^ 64) (k : Nat) (hk : 1 ≤ k) :
    ∃ g' result, g.simulateParallelExecution k = some g' ∧ g'.simulationResult = some result ∧
      result.executionOrder.map ScheduledTx.txId ~ g.ids ∧
      (∀ tx ∈ result.executionOrder, ∀ t < tx.startTime.toNat,
        (∀ p ∈ result.executionOrder, g.IsParent p.txId tx.txId → p.endTime.toNat ≤ t) →
        ∀ j < k, ∃ tx' ∈ result.executionOrder,
          tx'.threadId = j ∧ tx'.startTime.toNat ≤ t ∧ t < tx'.endTime.toNat) ∧
      k * result.totalTime.toNat ≤ g.totalGas +
        (k - 1) * largest (g'.nodes.map fun node => node.longestSuffix.toNat) ∧
      largest (g'.nodes.map fun node => node.longestSuffix.toNat) ≤ result.totalTime.toNat ∧
      g.totalGas ≤ k * result.totalTime.toNat := by
  obtain ⟨b, hb⟩ := h.represents
  have hheap : g.txnsWithoutParent = [] := congrArg Prod.fst h.simulationState
  obtain ⟨f, hf⟩ := exists_suffixes hb.acyclic
  obtain ⟨g', c, s, tl, he, hnodes, hresult, hend, htimed, htl, hrunning⟩ :=
    hb.simulate_timed hk (fun _ => hheap) htotal hf
  have hvalid := hb.validResult hend htimed htl hrunning
  have hschedule := htl.schedule
  have hheaviest := hb.heaviest htotal hf
  let G := g.taskGraph hb.mirrored hb.forward
  have hstarted : s.started ~ G.tasks := hend.inv.complete hend.ready hend.running
  have hall : ∀ i, i ∈ G.tasks ↔ ∃ q ∈ tl.placed, q.task = i := by
    intro i
    rw [← hstarted.mem_iff, ← htl.started, List.mem_map]
  have hwork : Schedule.work (gasAt b) tl.placed = g.totalGas := by
    rw [Schedule.work, htl.started, (hstarted.map _).sum_eq, hb.gasAt_eq, totalGas_eq]
    rfl
  have hfinish : ∀ q ∈ tl.placed, q.finish ≤ tl.now := fun q => finish_le_now htl hrunning
  have hsuffix : ∀ i ∈ G.tasks,
      (f i).toNat ≤ largest (g'.nodes.map fun node => node.longestSuffix.toNat) := by
    intro i hi
    obtain ⟨old, hold⟩ : ∃ old, g.nodes[i]? = some old :=
      ⟨_, List.getElem?_eq_getElem (List.mem_range.mp hi)⟩
    have hnode : g'.nodes[i]? = some { old with longestSuffix := f i } := by
      rw [hnodes, getElem?_withSuffixes, hold, Option.map_some]
    exact le_largest (List.mem_map_of_mem (f := fun node : TransactionNode =>
      node.longestSuffix.toNat) (List.mem_of_getElem? hnode))
  refine ⟨g', _, he, hresult, hvalid.perm, ?_, ?_, ?_, ?_⟩
  · intro tx htx t ht hparents j hj
    have hfull := hschedule.greedy _ (slot_mem htimed htx) t ht fun p hp => ?_
    · obtain ⟨q, hq, hthread, hactive⟩ := hfull j hj
      rw [htimed.placed] at hq
      obtain ⟨tx', htx', rfl⟩ := List.mem_map.mp hq
      exact ⟨tx', htx', hthread, hactive⟩
    · -- Every parent has a slot, which has ended by then.
      obtain ⟨q, hq, rfl⟩ := (hall p).mp (G.parent_mem p _ hp)
      rw [htimed.placed] at hq
      obtain ⟨tx', htx', rfl⟩ := List.mem_map.mp hq
      refine ⟨_, slot_mem htimed htx', rfl, hparents tx' htx' ⟨_, _, ?_, ?_, hp⟩⟩
      · rw [hb.ids_eq]
        exact ids_idxOf (htimed.known tx' htx')
      · rw [hb.ids_eq]
        exact ids_idxOf (htimed.known tx htx)
  · show k * c.currentTime.toNat ≤ _
    rw [← hwork, htimed.now]
    exact hschedule.time_le hheaviest hall hsuffix hfinish htl.reached
  · show _ ≤ c.currentTime.toNat
    rw [htimed.now]
    refine largest_le fun x hx => ?_
    obtain ⟨node, hnode, rfl⟩ := List.mem_map.mp hx
    obtain ⟨i, hi⟩ := List.mem_iff_getElem?.mp hnode
    rw [hnodes, getElem?_withSuffixes] at hi
    obtain ⟨old, hold, rfl⟩ := Option.map_eq_some_iff.mp hi
    have hmem : i ∈ G.tasks := List.mem_range.mpr (List.getElem?_eq_some_iff.mp hold).1
    obtain ⟨q, hq, rfl⟩ := (hall i).mp hmem
    have hle := hschedule.start_add_suffix_le hheaviest hall (wellFounded_edge hb.acyclic)
      hfinish hq
    exact le_trans (Nat.le_add_left _ _) hle
  · show _ ≤ k * c.currentTime.toNat
    rw [← hwork, htimed.now]
    exact hschedule.work_le hfinish

theorem pairGraph_list_schedule : ∃ g' result, pairGraph.simulateParallelExecution 2 = some g' ∧
    g'.simulationResult = some result ∧ pairGraph.totalGas ≤ 2 * result.totalTime.toNat := by
  obtain ⟨g', result, he, hresult, -, -, -, -, hwork⟩ :=
    simulate_list_schedule pairGraph pairGraph_constructed (by decide +kernel) 2 (by decide)
  exact ⟨g', result, he, hresult, hwork⟩

def heavyPair : TransactionGraph :=
  let order : HashOrder := ⟨.sorted, .sorted⟩
  let heavy (id : Nat) : TransactionNode := .new id 0 (2 ^ 63) .empty (.singleton 7)
  ((TransactionGraph.new.addTransaction order (heavy 0)).1.addTransaction order (heavy 1)).1

/-- The end of the second transaction wraps around, and the simulated time is too short for the
work. -/
theorem heavyPair_wraps : heavyPair.Constructed ∧ ∃ g' result,
    heavyPair.simulateParallelExecution 1 = some g' ∧ g'.simulationResult = some result ∧
      ¬heavyPair.totalGas ≤ 1 * result.totalTime.toNat := by
  refine ⟨.add _ ⟨rfl, rfl⟩ (.add _ ⟨rfl, rfl⟩ .new), ?_⟩
  have htime : ((heavyPair.simulateParallelExecution 1).bind simulationResult).map
      SimulationResult.totalTime = some (2 ^ 63) := by decide +kernel
  obtain ⟨result, hsome, htotal⟩ := Option.map_eq_some_iff.mp htime
  obtain ⟨g', hg', hresult⟩ := Option.bind_eq_some_iff.mp hsome
  refine ⟨g', result, hg', hresult, ?_⟩
  rw [htotal]
  decide +kernel

end TransactionGraph

end CongestionControl.Pevm
