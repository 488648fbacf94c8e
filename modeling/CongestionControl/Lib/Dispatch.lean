import CongestionControl.Lib.Precedence
import Mathlib.Data.List.Perm.Subperm
import Mathlib.Order.WellFounded

/-!
# Dispatching tasks along their dependencies

Tasks with dependencies are started after their parents: a task is ready when its count of remaining
parents is zero, and a task that is finished decrements the counts of its children one by one.
-/

open scoped List

structure TaskGraph (ι : Type*) where
  tasks : List ι
  children : ι → List ι
  parents : ι → List ι
  tasks_nodup : tasks.Nodup
  mirrored : ∀ p c, c ∈ children p ↔ p ∈ parents c
  children_nodup : ∀ p, (children p).Nodup
  parents_nodup : ∀ c, (parents c).Nodup
  parent_mem : ∀ p c, p ∈ parents c → p ∈ tasks
  wellFounded : WellFounded fun p c => p ∈ parents c

structure Dispatch (ι : Type*) where
  started : List ι
  running : List ι
  done : List ι
  ready : List ι
  remaining : ι → Nat

namespace Dispatch

variable {ι : Type*} [DecidableEq ι] {G : TaskGraph ι} {s : Dispatch ι} {pending : List ι} {i c : ι}

/-- The invariant, when the tasks `pending` are still to be told that a parent of theirs is done. -/
structure Inv (G : TaskGraph ι) (s : Dispatch ι) (pending : List ι) : Prop where
  split : s.started ~ s.done ++ s.running
  nodup : (s.started ++ s.ready).Nodup
  mem : ∀ c ∈ s.started ++ s.ready, c ∈ G.tasks
  count : ∀ c, s.remaining c = (G.parents c).countP (· ∉ s.done) + pending.count c
  free : ∀ c ∈ s.started ++ s.ready, s.remaining c = 0
  queued : ∀ c ∈ G.tasks, s.remaining c = 0 → c ∈ s.started ++ s.ready
  ordered : ∀ p c, p ∈ G.parents c → c ∈ s.started → [p, c] <+ s.started

def tell (s : Dispatch ι) (c : ι) : Dispatch ι :=
  { s with
    remaining := Function.update s.remaining c (s.remaining c - 1)
    ready := if s.remaining c - 1 = 0 then c :: s.ready else s.ready }

theorem Inv.init {ready : List ι} (hnodup : ready.Nodup)
    (hready : ∀ c, c ∈ ready ↔ c ∈ G.tasks ∧ G.parents c = []) :
    Inv G ⟨[], [], [], ready, fun c => (G.parents c).length⟩ [] where
  split := .nil
  nodup := hnodup
  mem c hc := ((hready c).mp hc).1
  count c := by simp
  free c hc := congrArg List.length ((hready c).mp hc).2
  queued c hc hz := (hready c).mpr ⟨hc, List.length_eq_zero_iff.mp hz⟩
  ordered := by simp

theorem Inv.done_of_parent (h : Inv G s pending) {p : ι} (hc : c ∈ s.started ++ s.ready)
    (hp : p ∈ G.parents c) : p ∈ s.done := by
  by_contra hnot
  have hz := h.free c hc
  rw [h.count] at hz
  have hpos : 0 < (G.parents c).countP (· ∉ s.done) :=
    List.countP_pos_iff.mpr ⟨p, hp, by simpa using hnot⟩
  omega

theorem Inv.start (h : Inv G s pending) {ready : List ι} (hready : s.ready ~ i :: ready) :
    Inv G { s with started := s.started ++ [i], running := i :: s.running, ready } pending := by
  have hperm : (s.started ++ [i]) ++ ready ~ s.started ++ s.ready := by
    rw [List.append_assoc]
    exact hready.symm.append_left s.started
  refine ⟨?_, hperm.nodup_iff.mpr h.nodup, fun c hc => h.mem c (hperm.subset hc), h.count,
    fun c hc => h.free c (hperm.subset hc), fun c hc hz => hperm.symm.subset (h.queued c hc hz),
    ?_⟩
  · calc s.started ++ [i] ~ i :: s.started := List.perm_append_singleton i s.started
      _ ~ i :: (s.done ++ s.running) := h.split.cons i
      _ ~ s.done ++ i :: s.running := List.perm_middle.symm
  · intro p c hp hc
    rcases List.mem_append.mp hc with hc | hc
    · exact (h.ordered p c hp hc).trans (List.sublist_append_left _ _)
    · -- The parents of a ready task are done, so they have been started.
      rw [List.mem_singleton.mp hc] at hp ⊢
      have hi : i ∈ s.started ++ s.ready :=
        List.mem_append_right _ (hready.symm.subset List.mem_cons_self)
      have hdone := h.done_of_parent hi hp
      exact List.pair_sublist_append (h.split.symm.subset (List.mem_append_left _ hdone))
        (List.mem_singleton_self i)

theorem Inv.finish (h : Inv G s []) {running : List ι} (hrunning : s.running ~ i :: running) :
    Inv G { s with done := i :: s.done, running } (G.children i) := by
  have hsplit : s.started ~ i :: (s.done ++ running) :=
    (h.split.trans (hrunning.append_left s.done)).trans List.perm_middle
  have hnot : i ∉ s.done := by
    have hnodup := hsplit.nodup_iff.mp (List.nodup_append.mp h.nodup).1
    exact fun hi => (List.nodup_cons.mp hnodup).1 (List.mem_append_left _ hi)
  refine ⟨hsplit, h.nodup, h.mem, fun c => ?_, h.free, h.queued, h.ordered⟩
  have hcount : ∀ l : List ι, l.Nodup → l.countP (· ∉ s.done) =
      l.countP (· ∉ i :: s.done) + if i ∈ l then 1 else 0 := by
    intro l hl
    induction l with
    | nil => rfl
    | cons a l ih =>
      obtain ⟨ha, hl'⟩ := List.nodup_cons.mp hl
      rw [List.countP_cons, List.countP_cons, ih hl']
      by_cases hia : i = a
      · subst hia
        simp [hnot, ha]
      · simp [hia, Ne.symm hia]
        omega
  have hchild : (G.children i).count c = if i ∈ G.parents c then 1 else 0 := by
    split <;> rename_i hi
    · exact List.count_eq_one_of_mem (G.children_nodup i) ((G.mirrored i c).mpr hi)
    · exact List.count_eq_zero_of_not_mem fun hc => hi ((G.mirrored i c).mp hc)
  show s.remaining c = _
  rw [h.count c, hchild, List.count_nil, Nat.add_zero, hcount _ (G.parents_nodup c)]

theorem Inv.tell (h : Inv G s (c :: pending)) (hc : c ∈ G.tasks) :
    0 < s.remaining c ∧ Inv G (s.tell c) pending := by
  have hcount := h.count c
  rw [List.count_cons_self] at hcount
  have hpos : 0 < s.remaining c := by omega
  have hnot : c ∉ s.started ++ s.ready := fun hmem => by
    have := h.free c hmem
    omega
  have hsame : ∀ c', c' ≠ c →
      Function.update s.remaining c (s.remaining c - 1) c' = s.remaining c' :=
    fun c' hne => Function.update_of_ne hne _ _
  have hcount' : ∀ c', Function.update s.remaining c (s.remaining c - 1) c' =
      (G.parents c').countP (· ∉ s.done) + pending.count c' := by
    intro c'
    by_cases hne : c' = c
    · subst hne
      rw [Function.update_self]
      omega
    · rw [hsame c' hne, h.count c', List.count_cons_of_ne (Ne.symm hne)]
  refine ⟨hpos, ?_⟩
  unfold Dispatch.tell
  by_cases hz : s.remaining c - 1 = 0
  · have hperm : s.started ++ c :: s.ready ~ c :: (s.started ++ s.ready) := List.perm_middle
    rw [if_pos hz]
    refine ⟨h.split, hperm.nodup_iff.mpr (List.nodup_cons.mpr ⟨hnot, h.nodup⟩), ?_, hcount', ?_,
      ?_, h.ordered⟩
    · intro c' hc'
      rcases List.mem_cons.mp (hperm.subset hc') with rfl | hc'
      · exact hc
      · exact h.mem c' hc'
    · intro c' hc'
      by_cases hne : c' = c
      · subst hne
        exact (Function.update_self c' _ _).trans hz
      · rcases List.mem_cons.mp (hperm.subset hc') with he | hc'
        · exact absurd he hne
        · exact (hsame c' hne).trans (h.free c' hc')
    · intro c' hc' hz'
      by_cases hne : c' = c
      · exact hperm.symm.subset (hne ▸ List.mem_cons_self)
      · exact hperm.symm.subset (List.mem_cons_of_mem c
          (h.queued c' hc' ((hsame c' hne).symm.trans hz')))
  · rw [if_neg hz]
    refine ⟨h.split, h.nodup, h.mem, hcount', ?_, ?_, h.ordered⟩
    · intro c' hc'
      have hne : c' ≠ c := fun he => hnot (he ▸ hc')
      exact (hsame c' hne).trans (h.free c' hc')
    · intro c' hc' hz'
      have hne : c' ≠ c := by
        rintro rfl
        exact hz ((Function.update_self c' _ _).symm.trans hz')
      exact h.queued c' hc' ((hsame c' hne).symm.trans hz')

theorem Inv.started_length_le (h : Inv G s pending) : s.started.length ≤ G.tasks.length :=
  ((List.nodup_append.mp h.nodup).1.subperm
    fun c hc => h.mem c (List.mem_append_left _ hc)).length_le

/-- When nothing is ready or running, everything has been started. -/
theorem Inv.complete (h : Inv G s []) (hready : s.ready = []) (hrunning : s.running = []) :
    s.started ~ G.tasks := by
  have hsplit := h.split
  rw [hrunning] at hsplit
  have hmem := h.mem
  have hqueued := h.queued
  rw [hready, List.append_nil] at hmem hqueued
  have hall : ∀ c, c ∈ G.tasks → c ∈ s.started := by
    intro c
    induction c using G.wellFounded.induction with
    | _ c ih =>
      intro hc
      refine hqueued c hc ?_
      rw [h.count, List.count_nil, Nat.add_zero, List.countP_eq_zero]
      intro p hp
      have hdone := hsplit.subset (ih p hp (G.parent_mem p c hp))
      simpa using hdone
  exact (List.perm_ext_iff_of_nodup (List.nodup_append.mp h.nodup).1 G.tasks_nodup).mpr
    fun c => ⟨hmem c, hall c⟩

end Dispatch
