import Mathlib.Algebra.Order.Ring.Int
import Mathlib.Data.Nat.Bitwise
import Mathlib.Tactic.Common

/-!
# Numbers of variable length

A number is stored in groups of seven bits, the lowest first, in bytes of which all but the last
have their high bit set.  A signed number is stored in two's complement.  Groups that add nothing
may follow, so that a number can be stored in more than one way.
-/

namespace Leb128

/-- A byte that ends a number, after bytes that do not. -/
inductive Terminated : List (BitVec 8) → Prop where
  | last {byte : BitVec 8} (h : byte.toNat < 128) : Terminated [byte]
  | more {byte : BitVec 8} {bytes : List (BitVec 8)} (h : 128 ≤ byte.toNat)
      (hbytes : Terminated bytes) : Terminated (byte :: bytes)

theorem Terminated.length_pos {bytes : List (BitVec 8)} (h : Terminated bytes) :
    0 < bytes.length := by
  cases h <;> exact Nat.succ_pos _

theorem Terminated.getLastD_lt {bytes : List (BitVec 8)} (h : Terminated bytes) :
    (bytes.getLastD 0).toNat < 128 := by
  induction h with
  | last h => exact h
  | @more byte bytes _ hbytes ih =>
      obtain ⟨byte', bytes, rfl⟩ := List.exists_cons_of_length_pos hbytes.length_pos
      exact ih

/-- Only the last byte ends a number. -/
theorem Terminated.le_of_mem_take {bytes : List (BitVec 8)} (h : Terminated bytes) {n : ℕ}
    (hn : n < bytes.length) : ∀ byte ∈ bytes.take n, 128 ≤ byte.toNat := by
  induction h generalizing n with
  | last h =>
      obtain rfl : n = 0 := Nat.lt_one_iff.mp hn
      exact fun byte hbyte ↦ absurd hbyte List.not_mem_nil
  | more h _ ih =>
      rcases n with - | n
      · exact fun byte hbyte ↦ absurd hbyte List.not_mem_nil
      · exact List.forall_mem_cons.mpr ⟨h, ih (Nat.lt_of_succ_lt_succ hn)⟩

/-- The number that the groups stand for. -/
def unsigned : List (BitVec 8) → ℕ
  | [] => 0
  | byte :: bytes => byte.toNat % 128 + 128 * unsigned bytes

/-- The number that the groups stand for in two's complement. -/
def signed (bytes : List (BitVec 8)) : ℤ :=
  if 2 * unsigned bytes < 2 ^ (7 * bytes.length) then unsigned bytes
  else unsigned bytes - 2 ^ (7 * bytes.length)

theorem unsigned_lt (bytes : List (BitVec 8)) : unsigned bytes < 2 ^ (7 * bytes.length) := by
  induction bytes with
  | nil => exact Nat.one_pos
  | cons byte bytes ih =>
      rw [unsigned, List.length_cons, Nat.mul_succ, pow_add]
      omega

/-- The sign is the highest bit of the last group. -/
theorem sign_iff {bytes : List (BitVec 8)} (h : Terminated bytes) :
    2 ^ (7 * bytes.length) ≤ 2 * unsigned bytes ↔ 64 ≤ (bytes.getLastD 0).toNat := by
  induction h with
  | @last byte h =>
      rw [unsigned, unsigned, List.length_singleton, List.getLastD_cons, List.getLastD_nil]
      omega
  | @more byte bytes _ hbytes ih =>
      obtain ⟨byte', bytes, rfl⟩ := List.exists_cons_of_length_pos hbytes.length_pos
      rw [List.getLastD_cons, List.getLastD_cons] at *
      -- both sides of the comparison are even, which keeps the lower groups out of it
      have heven : 2 ^ (7 * (byte' :: bytes).length) = 2 * 2 ^ (7 * bytes.length + 6) :=
        pow_succ' 2 (7 * bytes.length + 6)
      rw [← ih, unsigned, List.length_cons, Nat.mul_succ, pow_add, heven]
      omega

/-! ## Writing -/

/-- The shortest string of bytes for a number. -/
def encode (n : ℕ) : List (BitVec 8) :=
  if n < 128 then [BitVec.ofNat 8 n] else BitVec.ofNat 8 (n % 128 + 128) :: encode (n / 128)
termination_by n
decreasing_by omega

/-- The shortest string of bytes for a signed number. -/
def encodeSigned (i : ℤ) : List (BitVec 8) :=
  if -64 ≤ i ∧ i < 64 then [BitVec.ofInt 8 (i % 128)]
  else BitVec.ofInt 8 (i % 128 + 128) :: encodeSigned (i / 128)
termination_by i.natAbs
decreasing_by omega

section

variable {n : ℕ}

theorem encode_of_lt (h : n < 128) : encode n = [BitVec.ofNat 8 n] := by
  rw [encode, if_pos h]

theorem encode_of_le (h : 128 ≤ n) :
    encode n = BitVec.ofNat 8 (n % 128 + 128) :: encode (n / 128) := by
  rw [encode, if_neg (Nat.not_lt.mpr h)]

theorem terminated_encode (n : ℕ) : Terminated (encode n) := by
  induction n using Nat.strong_induction_on with
  | _ n ih =>
      rcases Nat.lt_or_ge n 128 with hlt | hle
      · rw [encode_of_lt hlt]
        exact .last (by rw [BitVec.toNat_ofNat]; omega)
      · rw [encode_of_le hle]
        exact .more (by rw [BitVec.toNat_ofNat]; omega) (ih _ (by omega))

theorem unsigned_encode (n : ℕ) : unsigned (encode n) = n := by
  induction n using Nat.strong_induction_on with
  | _ n ih =>
      rcases Nat.lt_or_ge n 128 with hlt | hle
      · rw [encode_of_lt hlt, unsigned, unsigned, BitVec.toNat_ofNat]
        omega
      · rw [encode_of_le hle, unsigned, ih _ (by omega), BitVec.toNat_ofNat]
        omega

/-- A number is stored in as many bytes as it has groups. -/
theorem length_encode_le {k : ℕ} (h : n < 2 ^ (7 * (k + 1))) : (encode n).length ≤ k + 1 := by
  induction k generalizing n with
  | zero => rw [encode_of_lt h, List.length_singleton]
  | succ k ih =>
      rcases Nat.lt_or_ge n 128 with hlt | hle
      · rw [encode_of_lt hlt, List.length_singleton]
        exact Nat.le_add_left 1 (k + 1)
      · rw [encode_of_le hle, List.length_cons]
        rw [Nat.mul_succ, pow_add] at h
        exact Nat.succ_le_succ (ih (Nat.div_lt_of_lt_mul (by omega)))

end

section

variable {i : ℤ}

theorem encodeSigned_of_small (h : -64 ≤ i ∧ i < 64) :
    encodeSigned i = [BitVec.ofInt 8 (i % 128)] := by
  rw [encodeSigned, if_pos h]

theorem encodeSigned_of_large (h : ¬ (-64 ≤ i ∧ i < 64)) :
    encodeSigned i = BitVec.ofInt 8 (i % 128 + 128) :: encodeSigned (i / 128) := by
  rw [encodeSigned, if_neg h]

theorem toNat_low (i : ℤ) : ((BitVec.ofInt 8 (i % 128)).toNat : ℤ) = i % 128 := by
  rw [BitVec.toNat_ofInt]
  omega

theorem toNat_low_add (i : ℤ) : ((BitVec.ofInt 8 (i % 128 + 128)).toNat : ℤ) = i % 128 + 128 := by
  rw [BitVec.toNat_ofInt]
  omega

/-- What holds of the small numbers, and of a number if it holds of the number without its lowest
group, holds of all. -/
theorem signed_induction {P : ℤ → Prop} (small : ∀ i, -64 ≤ i ∧ i < 64 → P i)
    (large : ∀ i, ¬ (-64 ≤ i ∧ i < 64) → P (i / 128) → P i) (i : ℤ) : P i := by
  induction h : i.natAbs using Nat.strong_induction_on generalizing i with
  | _ n ih =>
      by_cases hi : -64 ≤ i ∧ i < 64
      · exact small i hi
      · exact large i hi (ih (i / 128).natAbs (by omega) _ rfl)

theorem terminated_encodeSigned (i : ℤ) : Terminated (encodeSigned i) := by
  induction i using signed_induction with
  | small i h =>
      rw [encodeSigned_of_small h]
      exact .last (by have := toNat_low i; omega)
  | large i h ih =>
      rw [encodeSigned_of_large h]
      exact .more (by have := toNat_low_add i; omega) ih

/-- The lowest group does not bear on the sign of the others. -/
theorem signed_cons {byte : BitVec 8} {bytes : List (BitVec 8)} (h : 0 < bytes.length) :
    signed (byte :: bytes) = (byte.toNat % 128 : ℕ) + 128 * signed bytes := by
  have heven : (2 : ℕ) ^ (7 * bytes.length) = 2 * 2 ^ (7 * (bytes.length - 1) + 6) := by
    rw [← pow_succ']
    congr 1
    omega
  have hcast : ((2 : ℤ) ^ (7 * bytes.length)) = ((2 ^ (7 * bytes.length) : ℕ) : ℤ) := by
    push_cast
    rfl
  have hpow : (2 : ℤ) ^ (7 * (byte :: bytes).length) = 2 ^ (7 * bytes.length) * 128 := by
    rw [List.length_cons, Nat.mul_succ, pow_add]
    rfl
  have hpow' : (2 : ℕ) ^ (7 * (byte :: bytes).length) = 2 ^ (7 * bytes.length) * 128 := by
    rw [List.length_cons, Nat.mul_succ, pow_add]
    rfl
  rw [signed, signed, unsigned, hpow, hpow', hcast, heven]
  split_ifs <;> push_cast <;> omega

theorem signed_encodeSigned (i : ℤ) : signed (encodeSigned i) = i := by
  induction i using signed_induction with
  | small i h =>
      have hlow := toNat_low i
      rw [encodeSigned_of_small h, signed, unsigned, unsigned, List.length_singleton]
      split_ifs <;> omega
  | large i h ih =>
      have hlow := toNat_low_add i
      rw [encodeSigned_of_large h, signed_cons (terminated_encodeSigned _).length_pos, ih]
      omega

/-- A signed number is stored in as many bytes as it has groups. -/
theorem length_encodeSigned_le {k : ℕ} (h : -2 ^ (7 * k + 6) ≤ i) (h' : i < 2 ^ (7 * k + 6)) :
    (encodeSigned i).length ≤ k + 1 := by
  induction k generalizing i with
  | zero => rw [encodeSigned_of_small ⟨h, h'⟩, List.length_singleton]
  | succ k ih =>
      by_cases hi : -64 ≤ i ∧ i < 64
      · rw [encodeSigned_of_small hi, List.length_singleton]
        exact Nat.le_add_left 1 (k + 1)
      · rw [encodeSigned_of_large hi, List.length_cons]
        rw [show 7 * (k + 1) + 6 = 7 * k + 6 + 7 by omega, pow_add] at h h'
        exact Nat.succ_le_succ (ih (by omega) (by omega))

end

end Leb128
