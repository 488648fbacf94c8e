import Mathlib.Data.Set.Function
import Mathlib.Data.Prod.Lex

/-!
# Comparison by a key

A comparison that goes by a key into a linear order is a total order on a set of values exactly if the
key tells them apart.
-/

namespace Comparison

variable {α β : Type*} {cmp : α → α → Ordering} {s : Set α}

structure TotalOn (cmp : α → α → Ordering) (s : Set α) : Prop where
  trans : ∀ a ∈ s, ∀ b ∈ s, ∀ c ∈ s, (cmp a b).isLE → (cmp b c).isLE → (cmp a c).isLE
  antisymm : ∀ a ∈ s, ∀ b ∈ s, cmp b a = (cmp a b).swap
  eq_iff : ∀ a ∈ s, ∀ b ∈ s, cmp a b = .eq ↔ a = b

theorem totalOn_iff_injOn [LinearOrder β] {key : α → β}
    (hcmp : ∀ a b, cmp a b = compare (key a) (key b)) : TotalOn cmp s ↔ Set.InjOn key s := by
  constructor
  · intro h a ha b hb hkey
    refine (h.eq_iff a ha b hb).mp ?_
    rw [hcmp, compare_eq_iff_eq, hkey]
  · intro h
    refine ⟨fun a _ b _ c _ hab hbc => ?_, fun a _ b _ => ?_, fun a ha b hb => ?_⟩
    · rw [hcmp] at *
      exact Std.TransCmp.isLE_trans hab hbc
    · rw [hcmp, hcmp]
      exact Std.OrientedCmp.eq_swap
    · rw [hcmp, compare_eq_iff_eq]
      exact h.eq_iff ha hb

theorem compare_toLex {γ : Type*} [LinearOrder β] [LinearOrder γ] (b b' : β) (c c' : γ) :
    compare (toLex (b, c)) (toLex (b', c')) = (compare b b').then (compare c c') := by
  rfl

end Comparison
