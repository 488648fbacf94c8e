import CongestionControl.Lib.Comparison
import CongestionControl.Mysticeti.Statements

/-!
# References that compare as equal

The comparison of references does not look at the digest of the second one, so it goes by the round and
the authority alone. Two blocks of one author and one round compare as equal, and with them the
locators and the ranges of their transactions.
-/

namespace CongestionControl.Mysticeti

open Comparison

def BlockReference.slotKey (r : BlockReference) : Nat ×ₗ Nat := toLex (r.round, r.authority)

theorem BlockReference.cmp_eq (a b : BlockReference) : a.cmp b = compare a.slotKey b.slotKey := by
  rw [slotKey, slotKey, compare_toLex, cmp, compare_eq_iff_eq.mpr rfl, Ordering.then_eq]

theorem BlockReference.slotKey_eq_iff {a b : BlockReference} :
    a.slotKey = b.slotKey ↔ a.authority = b.authority ∧ a.round = b.round := by
  rw [slotKey, slotKey, toLex_inj, Prod.mk.injEq, and_comm]

theorem TransactionLocator.cmp_eq (a b : TransactionLocator) :
    a.cmp b = compare (toLex (a.block.slotKey, a.offset)) (toLex (b.block.slotKey, b.offset)) := by
  rw [compare_toLex, cmp, BlockReference.cmp_eq]

theorem TransactionLocatorRange.cmp_eq (a b : TransactionLocatorRange) :
    a.cmp b = compare
      (toLex (a.block.slotKey, toLex (a.offsetStartInclusive, a.offsetEndExclusive)))
      (toLex (b.block.slotKey, toLex (b.offsetStartInclusive, b.offsetEndExclusive))) := by
  rw [compare_toLex, compare_toLex, cmp, BlockReference.cmp_eq]

theorem cmp_total_iff (references : Set BlockReference) (locators : Set TransactionLocator)
    (ranges : Set TransactionLocatorRange) :
    (TotalOn BlockReference.cmp references ↔ ∀ a ∈ references, ∀ b ∈ references,
      a.authority = b.authority → a.round = b.round → a.digest = b.digest) ∧
    (TotalOn TransactionLocator.cmp locators ↔ ∀ a ∈ locators, ∀ b ∈ locators,
      a.block.authority = b.block.authority → a.block.round = b.block.round →
      a.offset = b.offset → a.block.digest = b.block.digest) ∧
    (TotalOn TransactionLocatorRange.cmp ranges ↔ ∀ a ∈ ranges, ∀ b ∈ ranges,
      a.block.authority = b.block.authority → a.block.round = b.block.round →
      a.offsetStartInclusive = b.offsetStartInclusive →
      a.offsetEndExclusive = b.offsetEndExclusive → a.block.digest = b.block.digest) := by
  rw [totalOn_iff_injOn BlockReference.cmp_eq, totalOn_iff_injOn TransactionLocator.cmp_eq,
    totalOn_iff_injOn TransactionLocatorRange.cmp_eq]
  refine ⟨forall₄_congr fun a _ b _ => ?_, forall₄_congr fun a _ b _ => ?_,
    forall₄_congr fun a _ b _ => ?_⟩
  · obtain ⟨aAuthority, aRound, aDigest⟩ := a
    obtain ⟨bAuthority, bRound, bDigest⟩ := b
    simp +contextual [BlockReference.slotKey_eq_iff]
  · obtain ⟨⟨aAuthority, aRound, aDigest⟩, aOffset⟩ := a
    obtain ⟨⟨bAuthority, bRound, bDigest⟩, bOffset⟩ := b
    simp +contextual [BlockReference.slotKey_eq_iff]
  · obtain ⟨⟨aAuthority, aRound, aDigest⟩, aStart, aEnd⟩ := a
    obtain ⟨⟨bAuthority, bRound, bDigest⟩, bStart, bEnd⟩ := b
    simp +contextual [BlockReference.slotKey_eq_iff]

theorem equivocations_compare_equal :
    (⟨0, 1, 5⟩ : BlockReference) ≠ ⟨0, 1, 6⟩ ∧ BlockReference.cmp ⟨0, 1, 5⟩ ⟨0, 1, 6⟩ = .eq ∧
    TransactionLocator.cmp ⟨⟨0, 1, 5⟩, 0⟩ ⟨⟨0, 1, 6⟩, 0⟩ = .eq ∧
    TransactionLocatorRange.cmp ⟨⟨0, 1, 5⟩, 0, 2⟩ ⟨⟨0, 1, 6⟩, 0, 2⟩ = .eq := by
  decide

end CongestionControl.Mysticeti
