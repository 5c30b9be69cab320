import Mathlib.Data.Nat.Bitwise
import Mathlib.Tactic.Common

/-!
# Bits and fields of a bit vector

Reading one bit with a mask, the bits of a mask that covers a field, and the value
of a field that has been shifted down or masked off.  Every fact is about a width
and positions given as variables.
-/

namespace Bits

variable {w : Nat}

/-- The mask of bit `k`. -/
theorem getLsbD_one_shiftLeft (k i : Nat) :
    ((1 : BitVec w) <<< k).getLsbD i = (decide (i < w) && decide (i = k)) := by
  by_cases hi : i < w
  · by_cases hk : i = k
    · subst hk
      simp [hi]
    · rcases Nat.lt_or_gt_of_ne hk with h | h
      · simp [hk, h]
      · have : ¬ i - k = 0 := by omega
        simp [hi, hk, this]
  · simp [hi]

/-- Masking with bit `k` leaves something exactly when the bit is set. -/
theorem and_bit_ne_zero (x : BitVec w) {k : Nat} (hk : k < w) :
    (x &&& (1 : BitVec w) <<< k != 0) = x.getLsbD k := by
  have hbit : (x &&& (1 : BitVec w) <<< k).getLsbD k = x.getLsbD k := by
    rw [BitVec.getLsbD_and, getLsbD_one_shiftLeft]; simp [hk]
  cases hx : x.getLsbD k with
  | true =>
      rw [bne_iff_ne]
      intro h0
      rw [h0, hx] at hbit
      simp at hbit
  | false =>
      rw [bne_eq_false_iff_eq]
      apply BitVec.eq_of_getLsbD_eq
      intro i hi
      rw [BitVec.getLsbD_and, getLsbD_one_shiftLeft]
      by_cases hik : i = k <;> simp_all

/-- Masking with bit `k` leaves that bit exactly when it is set. -/
theorem and_bit_beq (x : BitVec w) {k : Nat} (hk : k < w) :
    (x &&& (1 : BitVec w) <<< k == (1 : BitVec w) <<< k) = x.getLsbD k := by
  rw [Bool.eq_iff_iff, beq_iff_eq]
  constructor
  · intro h
    have := congrArg (BitVec.getLsbD · k) h
    simpa [BitVec.getLsbD_and, getLsbD_one_shiftLeft, hk] using this
  · intro h
    apply BitVec.eq_of_getLsbD_eq
    intro i hi
    rw [BitVec.getLsbD_and, getLsbD_one_shiftLeft]
    by_cases hik : i = k <;> simp_all

/-- The bits of a mask that covers the `n` bits from bit `k` on. -/
theorem getLsbD_fieldMask (n k i : Nat) (hn : n < w) :
    ((((1 : BitVec w) <<< n) - 1) <<< k).getLsbD i =
      (decide (i < w) && decide (k ≤ i) && decide (i < k + n)) := by
  have hval : ((1 : BitVec w) <<< n) - 1 = BitVec.ofNat w (2 ^ n - 1) := by
    apply BitVec.eq_of_toNat_eq
    have h2 : 2 ^ n < 2 ^ w := Nat.pow_lt_pow_right (by decide) hn
    have h1 : 1 ≤ 2 ^ n := Nat.one_le_two_pow
    have h1w : 1 % 2 ^ w = 1 := Nat.mod_eq_of_lt (by omega)
    simp only [BitVec.ofNat_eq_ofNat, BitVec.toNat_sub, BitVec.toNat_shiftLeft,
      BitVec.toNat_ofNat, h1w, Nat.shiftLeft_eq, one_mul, Nat.mod_eq_of_lt h2]
    rw [show 2 ^ w - 1 + 2 ^ n = 2 ^ n - 1 + 2 ^ w by omega, Nat.add_mod_right]
  rw [hval, BitVec.getLsbD_shiftLeft, BitVec.getLsbD_ofNat, Nat.testBit_two_pow_sub_one]
  by_cases hi : i < w <;> by_cases hk : k ≤ i
  · have h1 : i - k < w := by omega
    have h2 : i - k < n ↔ i < k + n := by omega
    simp [hi, hk, h1, h2]
  · simp [hk, Nat.lt_of_not_le hk]
  · simp [hi]
  · simp [hi]

/-- A value masked off at the bottom keeps its low bits. -/
theorem getLsbD_and_low (x m : BitVec w) (n j : Nat) (hm : m.toNat = 2 ^ n - 1) :
    (x &&& m).getLsbD j = (x.getLsbD j && decide (j < n)) := by
  rw [BitVec.getLsbD_and, ← BitVec.testBit_toNat m, hm, Nat.testBit_two_pow_sub_one]

/-- The bits of a field shifted down and masked off. -/
theorem getLsbD_field (x m : BitVec w) (k n j : Nat) (hm : m.toNat = 2 ^ n - 1) :
    ((x >>> k) &&& m).getLsbD j = (x.getLsbD (k + j) && decide (j < n)) := by
  rw [getLsbD_and_low _ m n j hm, BitVec.getLsbD_ushiftRight]

/-- A field shifted down and masked off, as a number. -/
theorem toNat_field (x : BitVec w) (m : BitVec w) (k n : Nat) (hm : m.toNat = 2 ^ n - 1) :
    ((x >>> k) &&& m).toNat = x.toNat / 2 ^ k % 2 ^ n := by
  rw [BitVec.toNat_and, BitVec.toNat_ushiftRight, hm, Nat.and_two_pow_sub_one_eq_mod,
    Nat.shiftRight_eq_div_pow]

/-- A value with a field kept in place and the rest cleared, as a number. -/
theorem toNat_and_fieldMask (x : BitVec w) (n k : Nat) (hn : n < w) :
    (x &&& (((1 : BitVec w) <<< n) - 1) <<< k).toNat = x.toNat % 2 ^ (k + n) / 2 ^ k * 2 ^ k := by
  apply Nat.eq_of_testBit_eq
  intro i
  rw [BitVec.testBit_toNat, BitVec.getLsbD_and, getLsbD_fieldMask n k i hn,
    Nat.testBit_mul_two_pow, Nat.testBit_div_two_pow, Nat.testBit_mod_two_pow]
  by_cases hk : k ≤ i
  · rw [Nat.sub_add_cancel hk, BitVec.testBit_toNat]
    by_cases hi : i < w
    · by_cases h : i < k + n <;> simp [hi, hk, h]
    · simp [BitVec.getLsbD_of_ge x i (Nat.le_of_not_lt hi)]
  · simp [hk]

/-- Two words are equal if they agree on a mask and off it. -/
theorem and_or_and_not (x y m : BitVec w) : (x &&& ~~~m ||| y &&& m) &&& m = y &&& m := by
  apply BitVec.eq_of_getLsbD_eq
  intro i hi
  simp only [BitVec.getLsbD_and, BitVec.getLsbD_or, BitVec.getLsbD_not]
  cases m.getLsbD i <;> simp

end Bits
