import Mathlib.Algebra.BigOperators.Group.Finset.Basic
import Mathlib.Algebra.Order.BigOperators.Group.Finset
import Mathlib.Tactic.Linarith

/-!
# Weighted quorums

A quorum is a set that weighs more than two thirds of all members, so two quorums have more than one
third in common. With a bound below one third, this takes a member that is in all sets above the bound.
-/

namespace Quorum

variable {α : Type*} (weight : α → Nat) (members : Finset α) {bound : Nat} {s : Finset α}

def Exceeds (bound : Nat) (P : α → Prop) : Prop :=
  ∃ s ⊆ members, (∀ a ∈ s, P a) ∧ bound < ∑ a ∈ s, weight a

def Holds (P : α → Prop) : Prop := Exceeds weight members (2 * (∑ a ∈ members, weight a) / 3) P

variable {weight members} {P Q F : α → Prop}

theorem Exceeds.mono (h : Exceeds weight members bound P) (hPQ : ∀ a, P a → Q a) :
    Exceeds weight members bound Q := by
  obtain ⟨s, hs, hP, hw⟩ := h
  exact ⟨s, hs, fun a ha => hPQ a (hP a ha), hw⟩

theorem Exceeds.exists_member (h : Exceeds weight members bound P) :
    ∃ a ∈ members, P a := by
  obtain ⟨s, hs, hP, hw⟩ := h
  obtain ⟨a, ha, -⟩ := Finset.exists_ne_zero_of_sum_ne_zero (Nat.ne_zero_of_lt hw)
  exact ⟨a, hs ha, hP a ha⟩

theorem exceeds_iff_of_mem (hs : s ⊆ members) (hP : ∀ a ∈ members, a ∈ s ↔ P a) :
    Exceeds weight members bound P ↔ bound < ∑ a ∈ s, weight a := by
  constructor
  · rintro ⟨t, ht, htP, hw⟩
    exact hw.trans_le (Finset.sum_le_sum_of_subset fun a ha => (hP a (ht ha)).mpr (htP a ha))
  · exact fun hw => ⟨s, hs, fun a ha => (hP a (hs ha)).mp ha, hw⟩

/-- Each two sets above the bound have more than a third in common. -/
def Intersecting [DecidableEq α] (weight : α → Nat) (members : Finset α) (bound : Nat) : Prop :=
  ∀ s ⊆ members, ∀ t ⊆ members, bound < ∑ a ∈ s, weight a → bound < ∑ a ∈ t, weight a →
    (∑ a ∈ members, weight a) / 3 < ∑ a ∈ s ∩ t, weight a

theorem intersecting_quorums [DecidableEq α] :
    Intersecting weight members (2 * (∑ a ∈ members, weight a) / 3) := by
  intro s hs t ht hws hwt
  have hsum : ∑ a ∈ s ∪ t, weight a + ∑ a ∈ s ∩ t, weight a = ∑ a ∈ s, weight a + ∑ a ∈ t, weight a :=
    Finset.sum_union_inter
  have hle : ∑ a ∈ s ∪ t, weight a ≤ ∑ a ∈ members, weight a :=
    Finset.sum_le_sum_of_subset (Finset.union_subset hs ht)
  omega

/-- Quorums intersect in more than a third. -/
theorem Holds.inter (hP : Holds weight members P) (hQ : Holds weight members Q) :
    Exceeds weight members ((∑ a ∈ members, weight a) / 3) fun a => P a ∧ Q a := by
  classical
  obtain ⟨s, hs, hsP, hws⟩ := hP
  obtain ⟨t, ht, htQ, hwt⟩ := hQ
  refine ⟨s ∩ t, fun a ha => hs (Finset.mem_inter.mp ha).1, fun a ha => ?_, ?_⟩
  · exact ⟨hsP a (Finset.mem_inter.mp ha).1, htQ a (Finset.mem_inter.mp ha).2⟩
  · exact intersecting_quorums s hs t ht hws hwt

/-- Two quorums have a common member that is not faulty. -/
theorem Holds.exists_correct (hP : Holds weight members P) (hQ : Holds weight members Q)
    (hF : ¬ Exceeds weight members ((∑ a ∈ members, weight a) / 3) F) :
    ∃ a ∈ members, P a ∧ Q a ∧ ¬ F a := by
  by_contra hnot
  push Not at hnot
  obtain ⟨s, hs, hPQ, hw⟩ := hP.inter hQ
  exact hF ⟨s, hs, fun a ha => hnot a (hs ha) (hPQ a ha).1 (hPQ a ha).2, hw⟩

section LowBound

variable [DecidableEq α] {bound : Nat}

/-- The other members together do not weigh more than the bound. -/
def Dominant (weight : α → Nat) (members : Finset α) (bound : Nat) (a : α) : Prop :=
  ∑ b ∈ members, weight b ≤ weight a + bound

theorem Intersecting.split (h : Intersecting weight members bound) (hs : s ⊆ members) :
    ∑ a ∈ s, weight a ≤ bound ∨ ∑ a ∈ members, weight a ≤ ∑ a ∈ s, weight a + bound := by
  by_contra hnot
  push Not at hnot
  have hsum := Finset.sum_sdiff (f := weight) hs
  have hinter := h s hs (members \ s) Finset.sdiff_subset hnot.1 (by omega)
  rw [Finset.inter_sdiff_self] at hinter
  exact Nat.not_lt_zero _ hinter

/-- When a set is put together member by member, the one that takes it above the bound dominates. -/
theorem exists_dominant (hbound : 3 * bound < ∑ a ∈ members, weight a) (hsplit : ∀ s ⊆ members,
      ∑ a ∈ s, weight a ≤ bound ∨ ∑ a ∈ members, weight a ≤ ∑ a ∈ s, weight a + bound)
    (hs : s ⊆ members) (hlarge : ∑ a ∈ members, weight a ≤ ∑ a ∈ s, weight a + bound) :
    ∃ a ∈ s, Dominant weight members bound a := by
  induction s using Finset.induction_on with
  | empty =>
    rw [Finset.sum_empty] at hlarge
    omega
  | insert a s ha ih =>
    obtain ⟨hmem, hs⟩ := Finset.insert_subset_iff.mp hs
    rcases hsplit s hs with hsmall | hlarge'
    · have hone := hsplit {a} (Finset.singleton_subset_iff.mpr hmem)
      rw [Finset.sum_singleton] at hone
      rw [Finset.sum_insert ha] at hlarge
      exact ⟨a, Finset.mem_insert_self a s, hone.resolve_left (by omega)⟩
    · obtain ⟨b, hb, hdominant⟩ := ih hs hlarge'
      exact ⟨b, Finset.mem_insert_of_mem hb, hdominant⟩

theorem Dominant.mem {a : α} (h : Dominant weight members bound a) (ha : a ∈ members)
    (hs : s ⊆ members) (hlarge : bound < ∑ b ∈ s, weight b) : a ∈ s := by
  by_contra hnot
  have hle : ∑ b ∈ insert a s, weight b ≤ ∑ b ∈ members, weight b :=
    Finset.sum_le_sum_of_subset (Finset.insert_subset ha hs)
  rw [Finset.sum_insert hnot] at hle
  have hdominant : ∑ b ∈ members, weight b ≤ weight a + bound := h
  omega

theorem intersecting_iff_dominant (hbound : 3 * bound < ∑ a ∈ members, weight a) :
    Intersecting weight members bound ↔ ∃ a ∈ members, Dominant weight members bound a := by
  constructor
  · intro h
    exact exists_dominant hbound (fun s hs => h.split hs) subset_rfl (Nat.le_add_right _ _)
  · rintro ⟨a, ha, hdominant⟩ s hs t ht hlarge hlarge'
    have hinter : a ∈ s ∩ t :=
      Finset.mem_inter.mpr ⟨hdominant.mem ha hs hlarge, hdominant.mem ha ht hlarge'⟩
    have hle : weight a ≤ ∑ b ∈ s ∩ t, weight b :=
      Finset.single_le_sum (fun _ _ => Nat.zero_le _) hinter
    have hdominant : ∑ b ∈ members, weight b ≤ weight a + bound := hdominant
    omega

end LowBound

end Quorum
