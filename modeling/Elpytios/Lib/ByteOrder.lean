import Mathlib.Data.List.Basic
import Mathlib.Data.Nat.Digits.Defs
import Mathlib.Tactic.Common

/-!
# Byte orders

The number that a string of bytes stands for in either order, and the field of a given width at
a given place.
-/

/-- Which byte of a number comes first. -/
inductive ByteOrder where
  | /-- The lowest. -/
    little
  | /-- The highest. -/
    big
deriving DecidableEq, Repr

namespace ByteOrder

/-- The number a string of bytes stands for. -/
def value : ByteOrder → List (BitVec 8) → ℕ
  | .little, bytes => bytes.foldr (fun byte n ↦ byte.toNat + 256 * n) 0
  | .big, bytes => bytes.foldl (fun n byte ↦ byte.toNat + 256 * n) 0

theorem value_big (bytes : List (BitVec 8)) : value .big bytes = value .little bytes.reverse :=
  (List.foldr_reverse ..).symm

theorem value_little (bytes : List (BitVec 8)) :
    value .little bytes = Nat.ofDigits 256 (bytes.map BitVec.toNat) := by
  rw [Nat.ofDigits_eq_foldr, List.foldr_map]
  rfl

theorem digit_lt (bytes : List (BitVec 8)) : ∀ n ∈ bytes.map BitVec.toNat, n < 256 := by
  intro n hn
  obtain ⟨byte, -, rfl⟩ := List.mem_map.mp hn
  exact byte.isLt

theorem value_little_lt (bytes : List (BitVec 8)) : value .little bytes < 256 ^ bytes.length := by
  rw [value_little, ← List.length_map BitVec.toNat]
  exact Nat.ofDigits_lt_base_pow_length (by decide) (digit_lt bytes)

theorem value_lt (order : ByteOrder) (bytes : List (BitVec 8)) :
    value order bytes < 256 ^ bytes.length := by
  cases order with
  | little => exact value_little_lt bytes
  | big =>
      rw [value_big, ← List.length_reverse]
      exact value_little_lt bytes.reverse

/-- Both orders give one number exactly for bytes that read the same backwards. -/
theorem value_little_eq_big_iff {bytes : List (BitVec 8)} :
    value .little bytes = value .big bytes ↔ bytes.reverse = bytes := by
  constructor
  · intro h
    rw [value_big, value_little, value_little] at h
    have hmap := Nat.ofDigits_inj_of_len_eq (by decide) (by simp) (digit_lt bytes)
      (digit_lt bytes.reverse) h
    exact (List.map_injective_iff.mpr (fun _ _ ↦ BitVec.eq_of_toNat_eq) hmap).symm
  · intro h
    rw [value_big, h]

/-! ## Fields -/

/-- The `n` bytes from a place on. -/
def slice (bytes : List (BitVec 8)) (offset n : ℕ) : List (BitVec 8) := (bytes.drop offset).take n

theorem length_slice_le (bytes : List (BitVec 8)) (offset n : ℕ) :
    (slice bytes offset n).length ≤ n := List.length_take_le n _

/-- The field of `n` bytes at a place. -/
def field (order : ByteOrder) (bytes : List (BitVec 8)) (offset n : ℕ) : BitVec (8 * n) :=
  BitVec.ofNat (8 * n) (value order (slice bytes offset n))

theorem toNat_field (order : ByteOrder) (bytes : List (BitVec 8)) (offset n : ℕ) :
    (field order bytes offset n).toNat = value order (slice bytes offset n) := by
  refine (BitVec.toNat_ofNat ..).trans (Nat.mod_eq_of_lt ?_)
  calc value order (slice bytes offset n)
      < 256 ^ (slice bytes offset n).length := value_lt order _
    _ ≤ 256 ^ n := Nat.pow_le_pow_right (by decide) (length_slice_le ..)
    _ = 2 ^ (8 * n) := by rw [Nat.pow_mul]

/-- A field of one byte is that byte. -/
theorem field_one (order : ByteOrder) (bytes : List (BitVec 8)) (offset : ℕ) :
    field order bytes offset 1 = bytes.getD offset 0 := by
  apply BitVec.eq_of_toNat_eq
  rw [toNat_field, slice, List.getD_eq_getElem?_getD, ← List.head?_drop]
  cases bytes.drop offset <;> cases order <;> simp [value]

/-- A field is the same in both orders exactly if its bytes read the same backwards. -/
theorem field_little_eq_big_iff {bytes : List (BitVec 8)} {offset n : ℕ} :
    field .little bytes offset n = field .big bytes offset n ↔
      (slice bytes offset n).reverse = slice bytes offset n := by
  rw [← BitVec.toNat_inj, toNat_field, toNat_field, value_little_eq_big_iff]

/-- A field of a slice is a field of the whole. -/
theorem field_slice {order : ByteOrder} {bytes : List (BitVec 8)} {start len offset n : ℕ}
    (h : offset + n ≤ len) :
    field order (slice bytes start len) offset n = field order bytes (start + offset) n := by
  have : slice (slice bytes start len) offset n = slice bytes (start + offset) n := by
    rw [slice, slice, slice, List.drop_take, List.take_take, List.drop_drop,
      Nat.min_eq_left (by omega)]
  rw [field, this, field]

/-! ## Writing numbers -/

/-- The `n` lowest bytes of a number, the lowest first. -/
def lowBytes : ℕ → ℕ → List (BitVec 8)
  | 0, _ => []
  | n + 1, x => BitVec.ofNat 8 x :: lowBytes n (x / 256)

/-- The bytes that a number is stored as, in a given number of bytes. -/
def bytesOf : ByteOrder → ℕ → ℕ → List (BitVec 8)
  | .little, n, x => lowBytes n x
  | .big, n, x => (lowBytes n x).reverse

@[simp] theorem length_lowBytes (n x : ℕ) : (lowBytes n x).length = n := by
  induction n generalizing x with
  | zero => rfl
  | succ n ih => rw [lowBytes, List.length_cons, ih]

@[simp] theorem length_bytesOf (order : ByteOrder) (n x : ℕ) : (bytesOf order n x).length = n := by
  cases order with
  | little => exact length_lowBytes n x
  | big => exact (List.length_reverse ..).trans (length_lowBytes n x)

theorem value_lowBytes (n x : ℕ) : value .little (lowBytes n x) = x % 256 ^ n := by
  induction n generalizing x with
  | zero => rw [pow_zero, Nat.mod_one]; rfl
  | succ n ih =>
      change (BitVec.ofNat 8 x).toNat + 256 * value .little (lowBytes n (x / 256)) = _
      rw [ih, BitVec.toNat_ofNat, show (2 : ℕ) ^ 8 = 256 from rfl, pow_succ' 256, Nat.mod_mul]

/-- What is stored is what is read. -/
theorem value_bytesOf (order : ByteOrder) (n x : ℕ) :
    value order (bytesOf order n x) = x % 256 ^ n := by
  cases order with
  | little => exact value_lowBytes n x
  | big => rw [value_big, bytesOf, List.reverse_reverse, value_lowBytes]

/-- What is read is what was stored. -/
theorem lowBytes_value {bytes : List (BitVec 8)} {n : ℕ} (h : bytes.length = n) :
    lowBytes n (value .little bytes) = bytes := by
  induction bytes generalizing n with
  | nil => subst h; rfl
  | cons byte bytes ih =>
      subst h
      have hhead : BitVec.ofNat 8 (byte.toNat + 256 * value .little bytes) = byte :=
        BitVec.eq_of_toNat_eq (by rw [BitVec.toNat_ofNat]; omega)
      have htail : (byte.toNat + 256 * value .little bytes) / 256 = value .little bytes := by omega
      change BitVec.ofNat 8 (byte.toNat + 256 * value .little bytes) ::
        lowBytes bytes.length ((byte.toNat + 256 * value .little bytes) / 256) = _
      rw [hhead, htail, ih rfl]

/-- A field that a number was stored in. -/
theorem field_of_slice {order : ByteOrder} {bytes : List (BitVec 8)} {offset n : ℕ}
    {x : BitVec (8 * n)} (h : slice bytes offset n = bytesOf order n x.toNat) :
    field order bytes offset n = x := by
  apply BitVec.eq_of_toNat_eq
  rw [toNat_field, h, value_bytesOf, show 256 ^ n = 2 ^ (8 * n) by rw [pow_mul]; rfl]
  exact Nat.mod_eq_of_lt x.isLt

end ByteOrder
