import Mathlib.Data.List.Basic
import Mathlib.Algebra.Ring.Nat
import Mathlib.Tactic.Ring

/-!
# Numbers as bytes

A number as a given count of bytes, least or most significant byte first. What does not fit is
dropped, so that a number is read back modulo the range.
-/

namespace Bytes

def toLe : Nat → Nat → List UInt8
  | 0, _ => []
  | w + 1, n => UInt8.ofNat n :: toLe w (n / 256)

def ofLe : List UInt8 → Nat
  | [] => 0
  | b :: bs => b.toNat + 256 * ofLe bs

def toBe (w n : Nat) : List UInt8 := (toLe w n).reverse

@[simp] theorem length_toLe (w n : Nat) : (toLe w n).length = w := by
  induction w generalizing n with
  | zero => rfl
  | succ w ih => rw [toLe, List.length_cons, ih]

@[simp] theorem length_toBe (w n : Nat) : (toBe w n).length = w := by
  rw [toBe, List.length_reverse, length_toLe]

theorem ofLe_toLe (w n : Nat) : ofLe (toLe w n) = n % 256 ^ w := by
  induction w generalizing n with
  | zero => rw [toLe, ofLe, pow_zero, Nat.mod_one]
  | succ w ih =>
    have hbyte : (UInt8.ofNat n).toNat = n % 256 := UInt8.toNat_ofNat'
    rw [toLe, ofLe, ih, hbyte, pow_succ', Nat.mod_mul]

theorem toLe_injOn {w n m : Nat} (hn : n < 256 ^ w) (hm : m < 256 ^ w) (h : toLe w n = toLe w m) :
    n = m := by
  have hmod : n % 256 ^ w = m % 256 ^ w := by rw [← ofLe_toLe, ← ofLe_toLe, h]
  rwa [Nat.mod_eq_of_lt hn, Nat.mod_eq_of_lt hm] at hmod

theorem toBe_injOn {w n m : Nat} (hn : n < 256 ^ w) (hm : m < 256 ^ w) (h : toBe w n = toBe w m) :
    n = m :=
  toLe_injOn hn hm (List.reverse_injective h)

def ofBe (b : List UInt8) : Nat := ofLe b.reverse

/-- The bytes of a number below `256 ^ w`, most significant byte first and without leading zeros. -/
def minBe (w n : Nat) : List UInt8 := (toBe w n).dropWhile (· = 0)

theorem ofLe_append (b b' : List UInt8) : ofLe (b ++ b') = ofLe b + 256 ^ b.length * ofLe b' := by
  induction b with
  | nil => simp [ofLe]
  | cons x b ih =>
    rw [List.cons_append, ofLe, ofLe, ih, List.length_cons]
    ring

theorem ofBe_toBe (w n : Nat) : ofBe (toBe w n) = n % 256 ^ w := by
  rw [ofBe, toBe, List.reverse_reverse, ofLe_toLe]

theorem ofBe_cons_zero (b : List UInt8) : ofBe (0 :: b) = ofBe b := by
  rw [ofBe, List.reverse_cons, ofLe_append, ofBe]
  simp [ofLe]

theorem ofBe_dropWhile_zero (b : List UInt8) : ofBe (b.dropWhile (· = 0)) = ofBe b := by
  induction b with
  | nil => rfl
  | cons x b ih =>
    by_cases hx : x = 0
    · rw [List.dropWhile_cons_of_pos (by simpa using hx), ih, hx, ofBe_cons_zero]
    · rw [List.dropWhile_cons_of_neg (by simpa using hx)]

theorem ofBe_minBe {w n : Nat} (h : n < 256 ^ w) : ofBe (minBe w n) = n := by
  rw [minBe, ofBe_dropWhile_zero, ofBe_toBe, Nat.mod_eq_of_lt h]

theorem length_minBe_le (w n : Nat) : (minBe w n).length ≤ w := by
  have hle := (List.dropWhile_sublist (p := (· = 0)) (l := toBe w n)).length_le
  rw [length_toBe] at hle
  exact hle

theorem ofLe_replicate_zero (w : Nat) : ofLe (List.replicate w 0) = 0 := by
  induction w with
  | zero => rfl
  | succ w ih => rw [List.replicate_succ, ofLe, ih]; rfl

end Bytes
