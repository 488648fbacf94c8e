import Mathlib.Tactic

/-!
# Saturating arithmetic on bounded unsigned integers

Sums stop at `size - 1` and differences at `0`. A signed quantity that is kept as a magnitude and a
sign flag is exact as long as it stays below `size`.
-/

namespace Saturating

variable {size : Nat}

def satAdd (a b : Fin size) : Fin size := ⟨min (a + b) (size - 1), by omega⟩

def satSub (a b : Fin size) : Fin size := ⟨a - b, by omega⟩

def satMul (a b : Fin size) : Fin size :=
  ⟨min (a * b) (size - 1), Nat.lt_of_le_of_lt (Nat.min_le_right _ _) (Nat.sub_one_lt_of_lt a.isLt)⟩

def absDiff (a b : Fin size) : Fin size := ⟨(a - b) + (b - a), by omega⟩

theorem val_satAdd {a b : Fin size} (h : (a : Nat) + b < size) : (satAdd a b : Nat) = a + b := by
  unfold satAdd
  dsimp only
  omega

@[simp] theorem val_satSub (a b : Fin size) : (satSub a b : Nat) = a - b := rfl

@[simp] theorem val_absDiff (a b : Fin size) : (absDiff a b : Nat) = (a - b) + (b - a) := rfl

structure SignMagnitude (size : Nat) where
  magnitude : Fin size
  positive : Bool
  deriving DecidableEq

namespace SignMagnitude

def toInt (d : SignMagnitude size) : Int :=
  if d.positive then (d.magnitude : Int) else -d.magnitude

def add (d : SignMagnitude size) (x : Fin size) : SignMagnitude size :=
  if d.positive then ⟨satAdd d.magnitude x, true⟩
  else ⟨absDiff d.magnitude x, d.magnitude ≤ x⟩

def sub (d : SignMagnitude size) (x : Fin size) : SignMagnitude size :=
  if d.positive then ⟨absDiff d.magnitude x, x ≤ d.magnitude⟩
  else ⟨satAdd d.magnitude x, false⟩

def applyTo (d : SignMagnitude size) (x : Fin size) : Fin size :=
  if d.positive then satAdd x d.magnitude else satSub x d.magnitude

variable {d : SignMagnitude size} {x : Fin size}

theorem toInt_add (h : d.toInt + x < size) :
    (d.add x).toInt = d.toInt + x := by
  obtain ⟨m, positive⟩ := d
  cases positive with
  | true =>
    have hlt : (m : Nat) + x < size := by simp only [toInt, if_true] at h; omega
    simp only [add, toInt, if_true, val_satAdd hlt]
    omega
  | false =>
    by_cases hle : m ≤ x
    · simp [add, toInt, hle]
      omega
    · simp [add, toInt, hle]
      omega

theorem toInt_sub (h : x - d.toInt < size) :
    (d.sub x).toInt = d.toInt - x := by
  obtain ⟨m, positive⟩ := d
  cases positive with
  | true =>
    by_cases hle : x ≤ m
    · simp [sub, toInt, hle]
    · simp [sub, toInt, hle]
      omega
  | false =>
    have hlt : (m : Nat) + x < size := by
      simp only [toInt, Bool.false_eq_true, if_false] at h
      omega
    simp only [sub, toInt, Bool.false_eq_true, if_false, val_satAdd hlt]
    omega

theorem magnitude_eq_zero : (d.magnitude : Nat) = 0 ↔ d.toInt = 0 := by
  unfold toInt
  split <;> omega

theorem val_applyTo (h0 : 0 ≤ x + d.toInt) (h : x + d.toInt < size) :
    (d.applyTo x : Int) = x + d.toInt := by
  unfold applyTo toInt at *
  split at h0
  · rename_i hp
    rw [if_pos hp] at h ⊢
    rw [if_pos hp, val_satAdd (by omega)]
    omega
  · rename_i hp
    rw [if_neg hp] at h ⊢
    rw [if_neg hp, val_satSub]
    omega

end SignMagnitude

end Saturating
