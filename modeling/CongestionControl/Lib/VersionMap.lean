import CongestionControl.Lib.Transition

/-!
# Maps from version numbers

A map with natural-number keys is a function to `Option`. `lastBelow m i` is the entry with the
largest key below `i`: one step of an iterator that walks the keys below `i` from the top.
-/

namespace VersionMap

variable {α : Type*} {m m' : Nat → Option α} {i : Nat} {a : α}

def lastBelow (m : Nat → Option α) : Nat → Option (Nat × α)
  | 0 => none
  | i + 1 =>
    match m i with
    | some a => some (i, a)
    | none => lastBelow m i

@[simp] theorem lastBelow_zero (m : Nat → Option α) : lastBelow m 0 = none := rfl

theorem lastBelow_succ_some (h : m i = some a) :
    lastBelow m (i + 1) = some (i, a) := by
  simp [lastBelow, h]

theorem lastBelow_succ_none (h : m i = none) :
    lastBelow m (i + 1) = lastBelow m i := by
  simp [lastBelow, h]

theorem lastBelow_eq_none :
    lastBelow m i = none ↔ ∀ j, j < i → m j = none := by
  induction i with
  | zero => simp
  | succ i ih =>
    cases h : m i with
    | some a =>
      rw [lastBelow_succ_some h]
      exact iff_of_false (by simp) fun hn => by simp [hn i (Nat.lt_succ_self i)] at h
    | none =>
      rw [lastBelow_succ_none h, ih]
      refine ⟨fun hn j hj => ?_, fun hn j hj => hn j (by omega)⟩
      rcases Nat.lt_succ_iff_lt_or_eq.mp hj with hlt | rfl
      · exact hn j hlt
      · exact h

theorem lastBelow_eq_some {j : Nat} :
    lastBelow m i = some (j, a) ↔ j < i ∧ m j = some a ∧ ∀ k, j < k → k < i → m k = none := by
  induction i with
  | zero => simp
  | succ i ih =>
    cases h : m i with
    | some b =>
      rw [lastBelow_succ_some h]
      constructor
      · intro he
        cases he
        exact ⟨Nat.lt_succ_self _, h, fun k h1 h2 => absurd h2 (by omega)⟩
      · rintro ⟨hj, ha, hk⟩
        rcases Nat.lt_succ_iff_lt_or_eq.mp hj with hlt | rfl
        · rw [hk i hlt (Nat.lt_succ_self i)] at h; cases h
        · rw [ha] at h; cases h; rfl
    | none =>
      rw [lastBelow_succ_none h, ih]
      constructor
      · rintro ⟨hj, ha, hk⟩
        refine ⟨by omega, ha, fun k h1 h2 => ?_⟩
        rcases Nat.lt_succ_iff_lt_or_eq.mp h2 with hlt | rfl
        · exact hk k h1 hlt
        · exact h
      · rintro ⟨hj, ha, hk⟩
        have hne : j ≠ i := by rintro rfl; rw [ha] at h; cases h
        exact ⟨by omega, ha, fun k h1 h2 => hk k h1 (by omega)⟩

theorem lastBelow_congr (h : ∀ j, j < i → m j = m' j) :
    lastBelow m i = lastBelow m' i := by
  induction i with
  | zero => rfl
  | succ i ih =>
    simp only [lastBelow, h i (Nat.lt_succ_self i), ih fun j hj => h j (by omega)]

theorem lastBelow_eq_some_congr {j : Nat} (hm : lastBelow m i = some (j, a))
    (h : ∀ k, j ≤ k → k < i → m' k = m k) :
    lastBelow m' i = some (j, a) := by
  obtain ⟨hj, ha, hk⟩ := lastBelow_eq_some.mp hm
  refine lastBelow_eq_some.mpr ⟨hj, by rw [h j le_rfl hj, ha], fun k h1 h2 => ?_⟩
  rw [h k (by omega) h2, hk k h1 h2]

def entriesBelow (m : Nat → Option α) : Nat → List (Nat × α)
  | 0 => []
  | i + 1 =>
    match m i with
    | some a => entriesBelow m i ++ [(i, a)]
    | none => entriesBelow m i

theorem reverse_entriesBelow (m : Nat → Option α) (i : Nat) :
    (entriesBelow m i).reverse =
      (lastBelow m i).elim [] fun p => p :: (entriesBelow m p.1).reverse := by
  induction i with
  | zero => rfl
  | succ i ih =>
    cases h : m i with
    | some a => simp [entriesBelow, lastBelow_succ_some h, h]
    | none => rw [entriesBelow, h, lastBelow_succ_none h, ih]

theorem mem_entriesBelow {p : Nat × α} (h : p ∈ entriesBelow m i) : m p.1 = some p.2 := by
  induction i with
  | zero => cases h
  | succ i ih =>
    rw [entriesBelow] at h
    split at h
    · next a ha =>
      rcases List.mem_append.mp h with hold | hnew
      · exact ih hold
      · obtain rfl := List.mem_singleton.mp hnew
        exact ha
    · exact ih h

theorem entriesBelow_eq_of_le {n : Nat} (hle : n ≤ i) (h : ∀ j, n ≤ j → m j = none) :
    entriesBelow m i = entriesBelow m n := by
  induction i, hle using Nat.le_induction with
  | base => rfl
  | succ i hi ih => rw [entriesBelow, h i hi, ih]

end VersionMap
