import CongestionControl.Lib.Dispatch
import Mathlib.Algebra.BigOperators.Group.Finset.Basic
import Mathlib.Algebra.BigOperators.Ring.Finset
import Mathlib.Algebra.Order.BigOperators.Group.Finset
import Mathlib.Order.Interval.Finset.Nat

/-!
# List schedules

Tasks that are dispatched along their dependencies are given to `k` threads: a slot starts on a thread
that is free, and when no more can be started the time moves to the earliest end. The time that a list
schedule takes is bounded by the work and the heaviest chain of dependencies.
-/

open scoped List

structure Slot (ι : Type*) where
  thread : Nat
  task : ι
  start : Nat
  finish : Nat

structure Timeline (ι : Type*) where
  placed : List (Slot ι)
  running : List (Slot ι)
  now : Nat

variable {ι : Type*} {G : TaskGraph ι} {cost : ι → Nat} {k : Nat} {q : Slot ι} {t : Nat}

namespace Slot

def ActiveAt (q : Slot ι) (t : Nat) : Prop := q.start ≤ t ∧ t < q.finish

instance (q : Slot ι) (t : Nat) : Decidable (q.ActiveAt t) :=
  inferInstanceAs (Decidable (_ ∧ _))

end Slot

def FullAt (k : Nat) (slots : List (Slot ι)) (t : Nat) : Prop :=
  ∀ j < k, ∃ q ∈ slots, q.thread = j ∧ q.ActiveAt t

def EndedBy (slots : List (Slot ι)) (t : Nat) (i : ι) : Prop :=
  ∃ q ∈ slots, q.task = i ∧ q.finish ≤ t

/-! ## Schedules -/

structure Schedule (G : TaskGraph ι) (cost : ι → Nat) (k : Nat) (slots : List (Slot ι)) : Prop where
  nodup : (slots.map Slot.task).Nodup
  thread_lt : ∀ q ∈ slots, q.thread < k
  finish_eq : ∀ q ∈ slots, q.finish = q.start + cost q.task
  apart : slots.Pairwise fun p q => p.thread = q.thread → p.finish ≤ q.start
  parents : ∀ q ∈ slots, ∀ p ∈ G.parents q.task, EndedBy slots q.start p
  greedy : ∀ q ∈ slots, ∀ t < q.start, (∀ p ∈ G.parents q.task, EndedBy slots t p) →
    FullAt k slots t

namespace Schedule

variable {slots : List (Slot ι)} {c : Nat}

theorem eq_of_task (h : Schedule G cost k slots) {p : Slot ι} (hp : p ∈ slots) (hq : q ∈ slots)
    (htask : p.task = q.task) : p = q :=
  List.inj_on_of_nodup_map h.nodup hp hq htask

def busyAt (slots : List (Slot ι)) (t : Nat) : Nat := slots.countP fun q => q.ActiveAt t

theorem busyAt_le (h : Schedule G cost k slots) (t : Nat) : busyAt slots t ≤ k := by
  have hactive : ∀ q ∈ slots.filter fun q => q.ActiveAt t, q ∈ slots ∧ q.ActiveAt t := by
    intro q hq
    obtain ⟨hm, ha⟩ := List.mem_filter.mp hq
    exact ⟨hm, of_decide_eq_true ha⟩
  have hnodup : ((slots.filter fun q => q.ActiveAt t).map Slot.thread).Nodup := by
    refine List.pairwise_map.mpr ((h.apart.filter _).imp_of_mem fun hp hq hpq hthread => ?_)
    obtain ⟨-, -, hp⟩ := hactive _ hp
    obtain ⟨-, hq, -⟩ := hactive _ hq
    omega
  have hsub : (slots.filter fun q => q.ActiveAt t).map Slot.thread ⊆ List.range k := by
    intro j hj
    obtain ⟨q, hq, rfl⟩ := List.mem_map.mp hj
    exact List.mem_range.mpr (h.thread_lt q (hactive q hq).1)
  have hlen := (hnodup.subperm hsub).length_le
  rw [List.length_map, List.length_range] at hlen
  rw [busyAt, List.countP_eq_length_filter]
  exact hlen

theorem le_busyAt (hfull : FullAt k slots t) : k ≤ busyAt slots t := by
  have hsub : List.range k ⊆ (slots.filter fun q => q.ActiveAt t).map Slot.thread := by
    intro j hj
    obtain ⟨q, hq, hthread, ha⟩ := hfull j (List.mem_range.mp hj)
    exact List.mem_map.mpr ⟨q, List.mem_filter.mpr ⟨hq, decide_eq_true ha⟩, hthread⟩
  have hlen := (List.nodup_range.subperm hsub).length_le
  rw [List.length_map, List.length_range] at hlen
  rw [busyAt, List.countP_eq_length_filter]
  exact hlen

theorem busyAt_pos (hq : q ∈ slots) (ha : q.ActiveAt t) :
    1 ≤ busyAt slots t :=
  List.countP_pos_iff.mpr ⟨q, hq, decide_eq_true ha⟩

def work (cost : ι → Nat) (slots : List (Slot ι)) : Nat := ((slots.map Slot.task).map cost).sum

theorem sum_active (q : Slot ι) {d : Nat} (hq : q.finish = q.start + d) (hc : q.finish ≤ c) :
    ∑ t ∈ Finset.range c, (if q.ActiveAt t then 1 else 0) = d := by
  rw [← Finset.card_filter]
  have hset : (Finset.range c).filter (fun t => q.ActiveAt t) = Finset.Ico q.start q.finish := by
    ext t
    rw [Finset.mem_filter, Finset.mem_range, Finset.mem_Ico]
    exact ⟨fun ht => ht.2, fun ht => ⟨by omega, ht⟩⟩
  rw [hset, Nat.card_Ico]
  omega

theorem sum_busyAt (hfinish : ∀ q ∈ slots, q.finish = q.start + cost q.task)
    (hc : ∀ q ∈ slots, q.finish ≤ c) :
    ∑ t ∈ Finset.range c, busyAt slots t = work cost slots := by
  induction slots with
  | nil => simp [busyAt, work]
  | cons q slots ih =>
    have hrest := ih (fun p hp => hfinish p (List.mem_cons_of_mem q hp))
      (fun p hp => hc p (List.mem_cons_of_mem q hp))
    have hq := sum_active q (hfinish q List.mem_cons_self) (hc q List.mem_cons_self)
    have hcons : ∀ t, busyAt (q :: slots) t = busyAt slots t + if q.ActiveAt t then 1 else 0 := by
      simp [busyAt, List.countP_cons]
    have hwork : work cost (q :: slots) = cost q.task + work cost slots := by
      simp [work]
    rw [Finset.sum_congr rfl fun t _ => hcons t, Finset.sum_add_distrib]
    omega

/-! ## Bounds on the time of a schedule -/

theorem work_le (h : Schedule G cost k slots) (hc : ∀ q ∈ slots, q.finish ≤ c) :
    work cost slots ≤ k * c := by
  rw [← sum_busyAt h.finish_eq hc]
  calc ∑ t ∈ Finset.range c, busyAt slots t ≤ ∑ _t ∈ Finset.range c, k :=
        Finset.sum_le_sum fun t _ => h.busyAt_le t
    _ = k * c := by simp [Nat.mul_comm]

/-- The weight of the heaviest chain from each task: its cost and the largest of its children. -/
structure Heaviest (G : TaskGraph ι) (cost suffix : ι → Nat) : Prop where
  cost_le : ∀ i ∈ G.tasks, cost i ≤ suffix i
  child_le : ∀ i ∈ G.tasks, ∀ c ∈ G.children i, cost i + suffix c ≤ suffix i
  attained : ∀ i ∈ G.tasks, suffix i = cost i ∨
    ∃ c ∈ G.tasks, c ∈ G.children i ∧ suffix i = cost i + suffix c

section Bounds

variable {suffix : ι → Nat} {c : Nat}

theorem start_add_suffix_le (h : Schedule G cost k slots) (hsuffix : Heaviest G cost suffix)
    (hall : ∀ i, i ∈ G.tasks ↔ ∃ q ∈ slots, q.task = i)
    (hdown : WellFounded fun c p => c ∈ G.children p) (hc : ∀ q ∈ slots, q.finish ≤ c)
    (hq : q ∈ slots) : q.start + suffix q.task ≤ c := by
  have hmain : ∀ i, ∀ q ∈ slots, q.task = i → q.start + suffix i ≤ c := by
    intro i
    induction i using hdown.induction with
    | _ i ih =>
      rintro q hq rfl
      have hend := hc q hq
      have hfinish := h.finish_eq q hq
      rcases hsuffix.attained q.task ((hall _).mpr ⟨q, hq, rfl⟩) with heq | ⟨d, hmem, hd, heq⟩
      · omega
      · -- The child starts when the task has ended.
        have hparent : q.task ∈ G.parents d := (G.mirrored _ _).mp hd
        obtain ⟨r, hr, rfl⟩ := (hall d).mp hmem
        obtain ⟨q', hq', htask, hle⟩ := h.parents r hr q.task hparent
        cases h.eq_of_task hq' hq htask
        have hbound := ih r.task hd r hr rfl
        omega
  exact hmain q.task q hq rfl

/-- The thread-time that is not used before a time. -/
def idleTo (k : Nat) (slots : List (Slot ι)) (t : Nat) : Nat :=
  ∑ u ∈ Finset.range t, (k - busyAt slots u)

theorem idleTo_of_full {a b : Nat} (hab : a ≤ b)
    (hfull : ∀ t, a ≤ t → t < b → FullAt k slots t) : idleTo k slots b = idleTo k slots a := by
  refine (Finset.sum_subset (Finset.range_subset_range.mpr hab) fun t ht hnot => ?_).symm
  rw [Finset.mem_range] at ht hnot
  have hle := le_busyAt (hfull t (by omega) ht)
  omega

theorem idleTo_finish_le (hq : q ∈ slots) (hfinish : q.finish = q.start + cost q.task) :
    idleTo k slots q.finish ≤ idleTo k slots q.start + (k - 1) * cost q.task := by
  unfold idleTo
  rw [hfinish, Finset.sum_range_add]
  refine Nat.add_le_add_left ?_ _
  calc ∑ t ∈ Finset.range (cost q.task), (k - busyAt slots (q.start + t))
      ≤ ∑ _t ∈ Finset.range (cost q.task), (k - 1) := by
        refine Finset.sum_le_sum fun t ht => ?_
        rw [Finset.mem_range] at ht
        have hpos := busyAt_pos (t := q.start + t) hq ⟨by omega, by omega⟩
        omega
    _ = (k - 1) * cost q.task := by simp [Nat.mul_comm]

theorem exists_last_parent (h : Schedule G cost k slots) (hq : q ∈ slots)
    (hne : G.parents q.task ≠ []) :
    ∃ r ∈ slots, r.task ∈ G.parents q.task ∧ r.finish ≤ q.start ∧
      ∀ p ∈ G.parents q.task, EndedBy slots r.finish p := by
  have hlast : ∀ l : List ι, l ≠ [] → (∀ p ∈ l, EndedBy slots q.start p) →
      ∃ r ∈ slots, r.task ∈ l ∧ r.finish ≤ q.start ∧ ∀ p ∈ l, EndedBy slots r.finish p := by
    intro l
    induction l with
    | nil => exact fun hl _ => absurd rfl hl
    | cons p l ih =>
      intro _ hended
      obtain ⟨u, hu, htask, hle⟩ := hended p List.mem_cons_self
      by_cases hnil : l = []
      · refine ⟨u, hu, by simp [htask], hle, fun p' hp' => ?_⟩
        rw [hnil, List.mem_singleton] at hp'
        exact ⟨u, hu, htask.trans hp'.symm, le_rfl⟩
      · obtain ⟨r, hr, hrl, hrle, hall⟩ := ih hnil fun p' hp' =>
          hended p' (List.mem_cons_of_mem p hp')
        rcases le_total u.finish r.finish with hur | hru
        · refine ⟨r, hr, List.mem_cons_of_mem p hrl, hrle, fun p' hp' => ?_⟩
          rcases List.mem_cons.mp hp' with rfl | hp'
          · exact ⟨u, hu, htask, hur⟩
          · exact hall p' hp'
        · refine ⟨u, hu, by simp [htask], hle, fun p' hp' => ?_⟩
          rcases List.mem_cons.mp hp' with rfl | hp'
          · exact ⟨u, hu, htask, le_rfl⟩
          · obtain ⟨v, hv, hvtask, hvle⟩ := hall p' hp'
            exact ⟨v, hv, hvtask, hvle.trans hru⟩
  exact hlast _ hne (h.parents q hq)

/-- The idle time before a slot is paid for by the chain of parents that it waited for. -/
theorem idleTo_start_le (h : Schedule G cost k slots) (hsuffix : Heaviest G cost suffix)
    (hall : ∀ i, i ∈ G.tasks ↔ ∃ q ∈ slots, q.task = i) {l : Nat} (hl : ∀ i ∈ G.tasks, suffix i ≤ l)
    (hq : q ∈ slots) :
    idleTo k slots q.start + (k - 1) * suffix q.task ≤ (k - 1) * l := by
  have hmain : ∀ i, ∀ q ∈ slots, q.task = i →
      idleTo k slots q.start + (k - 1) * suffix i ≤ (k - 1) * l := by
    intro i
    induction i using G.wellFounded.induction with
    | _ i ih =>
      rintro q hq rfl
      have hmem : q.task ∈ G.tasks := (hall _).mpr ⟨q, hq, rfl⟩
      by_cases hnil : G.parents q.task = []
      · have hfull : idleTo k slots q.start = idleTo k slots 0 :=
          idleTo_of_full (Nat.zero_le _) fun t _ ht => h.greedy q hq t ht (by simp [hnil])
        have hzero : idleTo k slots 0 = 0 := by simp [idleTo]
        rw [hfull, hzero, Nat.zero_add]
        exact Nat.mul_le_mul_left _ (hl _ hmem)
      · obtain ⟨r, hr, hparent, hle, hended⟩ := h.exists_last_parent hq hnil
        have hfull : idleTo k slots q.start = idleTo k slots r.finish :=
          idleTo_of_full hle fun t ht ht' => h.greedy q hq t ht' fun p hp => by
            obtain ⟨u, hu, hutask, hule⟩ := hended p hp
            exact ⟨u, hu, hutask, hule.trans ht⟩
        have hrun := idleTo_finish_le (k := k) hr (h.finish_eq r hr)
        have hbefore := ih r.task hparent r hr rfl
        have hchild : cost r.task + suffix q.task ≤ suffix r.task :=
          hsuffix.child_le _ ((hall _).mpr ⟨r, hr, rfl⟩) _ ((G.mirrored _ _).mpr hparent)
        have hmul := Nat.mul_le_mul_left (k - 1) hchild
        rw [Nat.mul_add] at hmul
        omega
  exact hmain q.task q hq rfl

/-- The bound on list schedules: the work and, on all threads but one, the heaviest chain. -/
theorem time_le (h : Schedule G cost k slots) (hsuffix : Heaviest G cost suffix)
    (hall : ∀ i, i ∈ G.tasks ↔ ∃ q ∈ slots, q.task = i) {l : Nat}
    (hl : ∀ i ∈ G.tasks, suffix i ≤ l) (hc : ∀ q ∈ slots, q.finish ≤ c)
    (hlast : c = 0 ∨ ∃ q ∈ slots, q.finish = c) : k * c ≤ work cost slots + (k - 1) * l := by
  have hidle : idleTo k slots c ≤ (k - 1) * l := by
    rcases hlast with rfl | ⟨q, hq, rfl⟩
    · simp [idleTo]
    · have hrun := idleTo_finish_le (k := k) hq (h.finish_eq q hq)
      have hbefore := h.idleTo_start_le hsuffix hall hl hq
      have hcost := hsuffix.cost_le _ ((hall _).mpr ⟨q, hq, rfl⟩)
      have hmul := Nat.mul_le_mul_left (k - 1) hcost
      omega
  have hsum : k * c = idleTo k slots c + ∑ t ∈ Finset.range c, busyAt slots t := by
    unfold idleTo
    rw [← Finset.sum_add_distrib,
      Finset.sum_congr rfl fun t _ => Nat.sub_add_cancel (h.busyAt_le t)]
    simp [Nat.mul_comm]
  rw [hsum, sum_busyAt h.finish_eq hc]
  omega

end Bounds

end Schedule

/-! ## The event loop -/

namespace Timeline

variable {s : Dispatch ι} {tl : Timeline ι} {slots : List (Slot ι)} {i : ι} {pending : List ι}

/-- The slots follow the dispatch of the tasks, and the time does not run ahead of what is running. -/
structure Inv (G : TaskGraph ι) (cost : ι → Nat) (k : Nat) (s : Dispatch ι) (tl : Timeline ι) :
    Prop where
  schedule : Schedule G cost k tl.placed
  started : tl.placed.map Slot.task = s.started
  running : tl.running.map Slot.task ~ s.running
  placed : ∀ q ∈ tl.running, q ∈ tl.placed
  begun : ∀ q ∈ tl.placed, q.start ≤ tl.now
  ahead : ∀ q ∈ tl.running, tl.now ≤ q.finish
  past : ∀ q ∈ tl.placed, q ∈ tl.running ∨ q.finish ≤ tl.now
  reached : tl.now = 0 ∨ ∃ q ∈ tl.placed, q.finish = tl.now
  bounded : ∀ q ∈ tl.placed, q.finish ≤ Schedule.work cost tl.placed
  /-- A task that has not been started waits for its parents or for a thread. -/
  waiting : ∀ c ∈ G.tasks, c ∉ s.started → ∀ t < tl.now,
    (∀ p ∈ G.parents c, EndedBy tl.placed t p) → FullAt k tl.placed t

theorem Inv.now_le (h : Inv G cost k s tl) : tl.now ≤ Schedule.work cost tl.placed := by
  rcases h.reached with hzero | ⟨q, hq, hnow⟩
  · omega
  · rw [← hnow]
    exact h.bounded q hq

theorem Inv.init (ready : List ι) (remaining : ι → Nat) :
    Inv G cost k ⟨[], [], [], ready, remaining⟩ ⟨[], [], 0⟩ where
  schedule := ⟨by simp, by simp, by simp, by simp, by simp, by simp⟩
  started := rfl
  running := .nil
  placed := by simp
  begun := by simp
  ahead := by simp
  past := by simp
  reached := .inl rfl
  bounded := by simp
  waiting := by simp

theorem endedBy_append (ht : t < q.start) (hq : q.start ≤ q.finish)
    (h : EndedBy (slots ++ [q]) t i) : EndedBy slots t i := by
  obtain ⟨r, hr, htask, hle⟩ := h
  rcases List.mem_append.mp hr with hr | hr
  · exact ⟨r, hr, htask, hle⟩
  · rw [List.mem_singleton] at hr
    subst hr
    omega

theorem fullAt_append (h : FullAt k slots t) :
    FullAt k (slots ++ [q]) t := by
  intro j hj
  obtain ⟨r, hr, hthread, ha⟩ := h j hj
  exact ⟨r, List.mem_append_left _ hr, hthread, ha⟩

variable [DecidableEq ι]

section

variable (h : Inv G cost k s tl)

include h

theorem Inv.ended_of_done (hs : s.Inv G pending) (hi : i ∈ s.done) :
    EndedBy tl.placed tl.now i := by
  have hstarted : i ∈ s.started := hs.split.symm.subset (List.mem_append_left _ hi)
  rw [← h.started] at hstarted
  obtain ⟨q, hq, rfl⟩ := List.mem_map.mp hstarted
  refine ⟨q, hq, rfl, (h.past q hq).resolve_left fun hrun => ?_⟩
  have hnodup := hs.split.nodup_iff.mp (List.nodup_append.mp hs.nodup).1
  have hmem : q.task ∈ s.running := h.running.subset (List.mem_map_of_mem hrun)
  exact (List.nodup_append.mp hnodup).2.2 _ hi _ hmem rfl

theorem Inv.done_of_ended (hs : s.Inv G pending) (hq : q ∈ tl.placed) (hrun : q ∉ tl.running) :
    q.task ∈ s.done := by
  have hstarted : q.task ∈ s.started := h.started ▸ List.mem_map_of_mem hq
  refine (List.mem_append.mp (hs.split.subset hstarted)).resolve_right fun hmem => ?_
  obtain ⟨r, hr, htask⟩ := List.mem_map.mp (h.running.symm.subset hmem)
  exact hrun (h.schedule.eq_of_task (h.placed r hr) hq htask ▸ hr)

theorem Inv.start (hs : s.Inv G []) {ready : List ι} (hready : s.ready ~ i :: ready) {j : Nat}
    (hj : j < k) (hfree : ∀ q ∈ tl.running, q.thread ≠ j) :
    Inv G cost k { s with started := s.started ++ [i], running := i :: s.running, ready }
      ⟨tl.placed ++ [⟨j, i, tl.now, tl.now + cost i⟩],
        ⟨j, i, tl.now, tl.now + cost i⟩ :: tl.running, tl.now⟩ := by
  have hqueued : i ∈ s.ready := hready.symm.subset List.mem_cons_self
  have hnew : i ∉ s.started := fun hi =>
    (List.nodup_append.mp hs.nodup).2.2 _ hi _ hqueued rfl
  have hmem : i ∈ G.tasks := hs.mem i (List.mem_append_right _ hqueued)
  have hwork : Schedule.work cost (tl.placed ++ [⟨j, i, tl.now, tl.now + cost i⟩]) =
      Schedule.work cost tl.placed + cost i := by
    simp [Schedule.work]
  have hnow := h.now_le
  have hcases : ∀ {P : Slot ι → Prop}, (∀ q ∈ tl.placed, P q) →
      P ⟨j, i, tl.now, tl.now + cost i⟩ →
      ∀ q ∈ tl.placed ++ [⟨j, i, tl.now, tl.now + cost i⟩], P q := by
    intro P hold hq q hm
    rcases List.mem_append.mp hm with hm | hm
    · exact hold q hm
    · exact List.mem_singleton.mp hm ▸ hq
  refine ⟨⟨?_, ?_, ?_, ?_, ?_, ?_⟩, ?_, ?_, ?_, ?_, ?_, ?_, ?_, ?_, ?_⟩
  · rw [List.map_append, h.started]
    refine List.nodup_append.mpr ⟨(List.nodup_append.mp hs.nodup).1, List.nodup_singleton i, ?_⟩
    intro x hx y hy hxy
    have hxi : x = i := hxy.trans (List.mem_singleton.mp hy)
    exact hnew (hxi ▸ hx)
  · exact hcases h.schedule.thread_lt hj
  · exact hcases h.schedule.finish_eq rfl
  · refine List.pairwise_append.mpr ⟨h.schedule.apart, List.pairwise_singleton _ _, ?_⟩
    intro p hp q hq hthread
    rw [List.mem_singleton.mp hq] at hthread ⊢
    exact (h.past p hp).resolve_left fun hrun => hfree p hrun hthread
  · refine hcases (fun q hq p hp => ?_) fun p hp => ?_
    · obtain ⟨r, hr, htask, hle⟩ := h.schedule.parents q hq p hp
      exact ⟨r, List.mem_append_left _ hr, htask, hle⟩
    · have hdone := hs.done_of_parent (List.mem_append_right _ hqueued) hp
      obtain ⟨r, hr, htask, hle⟩ := h.ended_of_done hs hdone
      exact ⟨r, List.mem_append_left _ hr, htask, hle⟩
  · refine hcases (fun q hq t ht hended => ?_) fun t ht hended => ?_
    · have hstart := h.begun q hq
      exact fullAt_append (h.schedule.greedy q hq t ht fun p hp =>
        endedBy_append (show t < tl.now by omega) (Nat.le_add_right _ _) (hended p hp))
    · exact fullAt_append (h.waiting i hmem hnew t ht fun p hp =>
        endedBy_append ht (Nat.le_add_right _ _) (hended p hp))
  · rw [List.map_append, h.started]
    rfl
  · exact h.running.cons i
  · intro q hq
    rcases List.mem_cons.mp hq with rfl | hq
    · simp
    · exact List.mem_append_left _ (h.placed q hq)
  · exact hcases h.begun le_rfl
  · intro q hq
    rcases List.mem_cons.mp hq with rfl | hq
    · exact Nat.le_add_right _ _
    · exact h.ahead q hq
  · exact hcases (fun q hq => (h.past q hq).imp_left (List.mem_cons_of_mem _))
      (.inl List.mem_cons_self)
  · exact h.reached.imp_right fun ⟨q, hq, hfinish⟩ => ⟨q, List.mem_append_left _ hq, hfinish⟩
  · rw [hwork]
    refine hcases (fun q hq => ?_) ?_
    · have hle := h.bounded q hq
      omega
    · show tl.now + cost i ≤ _
      omega
  · intro c hc hnot t ht hended
    refine fullAt_append (h.waiting c hc (fun hm => hnot (List.mem_append_left _ hm)) t ht ?_)
    exact fun p hp => endedBy_append ht (Nat.le_add_right _ _) (hended p hp)

theorem Inv.finish (hs : s.Inv G []) {running : List (Slot ι)}
    (hrunning : tl.running ~ q :: running) (hmin : ∀ r ∈ tl.running, q.finish ≤ r.finish)
    (hgreedy : s.ready = [] ∨ ∀ j < k, ∃ r ∈ tl.running, r.thread = j) {s' : Dispatch ι}
    (hstarted : s'.started = s.started) (hrun : s.running ~ q.task :: s'.running) :
    Inv G cost k s' ⟨tl.placed, running, q.finish⟩ := by
  have hq : q ∈ tl.running := hrunning.symm.subset List.mem_cons_self
  have hsub : ∀ r ∈ running, r ∈ tl.running := fun r hr =>
    hrunning.symm.subset (List.mem_cons_of_mem q hr)
  have hahead := h.ahead q hq
  refine ⟨h.schedule, h.started.trans hstarted.symm, ?_, fun r hr => h.placed r (hsub r hr),
    fun r hr => (h.begun r hr).trans hahead, fun r hr => hmin r (hsub r hr), fun r hr => ?_,
    .inr ⟨q, h.placed q hq, rfl⟩, h.bounded, fun c hc hnot t ht hended => ?_⟩
  · have hperm := (hrunning.map Slot.task).symm.trans (h.running.trans hrun)
    exact hperm.cons_inv
  · rcases h.past r hr with hr' | hle
    · rcases List.mem_cons.mp (hrunning.subset hr') with rfl | hr'
      · exact .inr le_rfl
      · exact .inl hr'
    · exact .inr (hle.trans hahead)
  · rw [hstarted] at hnot
    replace ht : t < q.finish := ht
    by_cases hold : t < tl.now
    · exact h.waiting c hc hnot t hold hended
    · -- The parents are done, so the task is ready and every thread is busy.
      have hdone : ∀ p ∈ G.parents c, p ∈ s.done := by
        intro p hp
        obtain ⟨r, hr, rfl, hle⟩ := hended p hp
        refine h.done_of_ended hs hr fun hr' => ?_
        have hbound := hmin r hr'
        omega
      have hzero : s.remaining c = 0 := by
        rw [hs.count, List.count_nil, Nat.add_zero, List.countP_eq_zero]
        intro p hp
        simpa using hdone p hp
      have hready : c ∈ s.ready :=
        (List.mem_append.mp (hs.queued c hc hzero)).resolve_left hnot
      have hfull := hgreedy.resolve_left (List.ne_nil_of_mem hready)
      intro j hj
      obtain ⟨r, hr, hthread⟩ := hfull j hj
      have hbegun := h.begun r (h.placed r hr)
      have hbound := hmin r hr
      exact ⟨r, h.placed r hr, hthread, by omega, by omega⟩

end

end Timeline
