import Mathlib.Data.List.Basic

/-!
# Hexadecimal text

Two lower-case digits for each byte.
-/

namespace Hex

def digit (n : Nat) : Char := if n < 10 then Char.ofNat (48 + n) else Char.ofNat (87 + n)

def encode : List UInt8 → List Char
  | [] => []
  | b :: bs => digit (b.toNat / 16) :: digit (b.toNat % 16) :: encode bs

def value (c : Char) : Option Nat :=
  if 48 ≤ c.toNat ∧ c.toNat < 58 then some (c.toNat - 48)
  else if 97 ≤ c.toNat ∧ c.toNat < 103 then some (c.toNat - 87)
  else none

def decode : List Char → Option (List UInt8)
  | [] => some []
  | [_] => none
  | c :: c' :: cs => do
    let high ← value c
    let low ← value c'
    let bs ← decode cs
    return UInt8.ofNat (16 * high + low) :: bs

theorem value_digit {n : Nat} (h : n < 16) : value (digit n) = some n := by
  revert n
  decide

theorem digit_ne_x {n : Nat} (h : n < 16) : digit n ≠ 'x' := by
  revert n
  decide

theorem decode_encode (bs : List UInt8) : decode (encode bs) = some bs := by
  induction bs with
  | nil => rfl
  | cons b bs ih =>
    have hb := b.toNat_lt
    have hhigh : b.toNat / 16 < 16 := by omega
    have hlow : b.toNat % 16 < 16 := by omega
    have hsum : 16 * (b.toNat / 16) + b.toNat % 16 = b.toNat := by omega
    simp only [encode, decode, value_digit hhigh, value_digit hlow, ih, Option.bind_eq_bind,
      Option.bind_some, Option.pure_def, hsum, UInt8.ofNat_toNat]

theorem encode_ne_x {bs : List UInt8} {c : Char} (h : c ∈ encode bs) : c ≠ 'x' := by
  induction bs with
  | nil => cases h
  | cons b bs ih =>
    have hb := b.toNat_lt
    rcases List.mem_cons.mp h with rfl | h
    · exact digit_ne_x (by omega)
    · rcases List.mem_cons.mp h with rfl | h
      · exact digit_ne_x (by omega)
      · exact ih h

end Hex
