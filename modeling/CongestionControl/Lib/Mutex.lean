import CongestionControl.Lib.Transition

/-!
# Locks held by threads

A lock is a flag, and the position of a thread in its code says which lock it holds. The discipline
that a thread takes a free lock and gives back its own keeps the two in step.
-/

namespace Mutex

open Function (update update_of_ne update_self)

variable {ω κ : Type*}

/-- A lock is taken exactly if a thread holds it, and one thread only. -/
structure LockInv (locked : κ → Bool) (held : ω → Option κ) : Prop where
  locked_iff : ∀ k, locked k = true ↔ ∃ w, held w = some k
  unique : ∀ {w w' k}, held w = some k → held w' = some k → w = w'

variable {locked : κ → Bool} {held : ω → Option κ}

theorem LockInv.not_held (h : LockInv locked held) {k : κ} (hk : locked k = false) (w : ω) :
    held w ≠ some k := by
  intro hw
  rw [(h.locked_iff k).mpr ⟨w, hw⟩] at hk
  cases hk

variable [DecidableEq ω] [DecidableEq κ]

theorem LockInv.acquire (h : LockInv locked held) {w : ω} {k : κ} (hk : locked k = false)
    (hw : held w = none) : LockInv (update locked k true) (update held w (some k)) where
  locked_iff := by
    intro k'
    by_cases hkk : k' = k
    · subst hkk
      simp only [update_self, true_iff]
      exact ⟨w, by simp⟩
    · rw [update_of_ne hkk, h.locked_iff k']
      constructor
      · rintro ⟨w', hw'⟩
        have hne : w' ≠ w := by rintro rfl; rw [hw] at hw'; cases hw'
        exact ⟨w', by rwa [update_of_ne hne]⟩
      · rintro ⟨w', hw'⟩
        by_cases hww : w' = w
        · subst hww
          rw [update_self] at hw'
          exact absurd (Option.some.inj hw').symm hkk
        · exact ⟨w', by rwa [update_of_ne hww] at hw'⟩
  unique := by
    intro w1 w2 k' h1 h2
    by_cases hw1 : w1 = w <;> by_cases hw2 : w2 = w
    · rw [hw1, hw2]
    · subst hw1
      rw [update_self] at h1
      rw [update_of_ne hw2, ← Option.some.inj h1] at h2
      exact absurd h2 (h.not_held hk w2)
    · subst hw2
      rw [update_self] at h2
      rw [update_of_ne hw1, ← Option.some.inj h2] at h1
      exact absurd h1 (h.not_held hk w1)
    · rw [update_of_ne hw1] at h1
      rw [update_of_ne hw2] at h2
      exact h.unique h1 h2

theorem LockInv.release (h : LockInv locked held) {w : ω} {k : κ} (hw : held w = some k) :
    LockInv (update locked k false) (update held w none) where
  locked_iff := by
    intro k'
    by_cases hkk : k' = k
    · subst hkk
      simp only [update_self, Bool.false_eq_true, false_iff]
      rintro ⟨w', hw'⟩
      have hne : w' ≠ w := by rintro rfl; simp at hw'
      rw [update_of_ne hne] at hw'
      exact hne (h.unique hw' hw)
    · rw [update_of_ne hkk, h.locked_iff k']
      constructor
      · rintro ⟨w', hw'⟩
        have hne : w' ≠ w := by
          rintro rfl
          rw [hw] at hw'
          exact hkk (Option.some.inj hw').symm
        exact ⟨w', by rwa [update_of_ne hne]⟩
      · rintro ⟨w', hw'⟩
        have hne : w' ≠ w := by rintro rfl; simp at hw'
        exact ⟨w', by rwa [update_of_ne hne] at hw'⟩
  unique := by
    intro w1 w2 k' h1 h2
    have hne : ∀ {w'}, update held w none w' = some k' → w' ≠ w := by
      rintro w' hw' rfl
      simp at hw'
    have hne1 := hne h1
    have hne2 := hne h2
    rw [update_of_ne hne1] at h1
    rw [update_of_ne hne2] at h2
    exact h.unique h1 h2

/-- The locks that are taken are those that threads hold, and each is held by one thread only. -/
structure LockSetInv (locked : Finset κ) (held : ω → List κ) : Prop where
  locked_iff : ∀ k, k ∈ locked ↔ ∃ w, k ∈ held w
  unique : ∀ {w w' k}, k ∈ held w → k ∈ held w' → w = w'

namespace LockSetInv

variable {locked : Finset κ} {held : ω → List κ} {w : ω} {ks : List κ}

theorem acquire (h : LockSetInv locked held) (hfree : ∀ k ∈ ks, k ∉ locked) (hw : held w = []) :
    LockSetInv (locked ∪ ks.toFinset) (update held w ks) where
  locked_iff := by
    intro k
    rw [Finset.mem_union, List.mem_toFinset, h.locked_iff, Transition.exists_update (P := (k ∈ ·)),
      Transition.exists_split (P := (k ∈ ·)) w, hw]
    simp [or_comm]
  unique := by
    intro w1 w2 k h1 h2
    have hnot : ∀ {w'}, k ∈ held w' → k ∉ ks :=
      fun hk hks => hfree k hks ((h.locked_iff k).mpr ⟨_, hk⟩)
    by_cases hw1 : w1 = w <;> by_cases hw2 : w2 = w
    · rw [hw1, hw2]
    · subst hw1
      rw [update_self] at h1
      rw [update_of_ne hw2] at h2
      exact absurd h1 (hnot h2)
    · subst hw2
      rw [update_self] at h2
      rw [update_of_ne hw1] at h1
      exact absurd h2 (hnot h1)
    · rw [update_of_ne hw1] at h1
      rw [update_of_ne hw2] at h2
      exact h.unique h1 h2

theorem release (h : LockSetInv locked held) (hw : held w = ks) :
    LockSetInv (locked \ ks.toFinset) (update held w []) where
  locked_iff := by
    intro k
    rw [Finset.mem_sdiff, List.mem_toFinset, h.locked_iff, Transition.exists_update (P := (k ∈ ·)),
      Transition.exists_split (P := (k ∈ ·)) w, hw]
    constructor
    · rintro ⟨hk | hk, hnot⟩
      · exact absurd hk hnot
      · exact .inr hk
    · rintro (hk | ⟨w', hne, hk⟩)
      · cases hk
      · exact ⟨.inr ⟨w', hne, hk⟩, fun hks => hne (h.unique hk (hw ▸ hks))⟩
  unique := by
    intro w1 w2 k h1 h2
    have hne : ∀ {w'}, k ∈ update held w [] w' → w' ≠ w := by
      rintro w' hk rfl
      rw [update_self] at hk
      cases hk
    rw [update_of_ne (hne h1)] at h1
    rw [update_of_ne (hne h2)] at h2
    exact h.unique h1 h2

end LockSetInv

end Mutex
