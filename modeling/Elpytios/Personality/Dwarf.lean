import Elpytios.Bootinfo.Paddr
import Elpytios.Lib.ByteOrder
import Elpytios.Lib.Leb128

/-!
# DWARF streams

`DwarfReader` is from `std/sys-src/personality/dwarf/mod.rs`.  A reader is an address and the bytes
that are known to lie from it on.  A number of variable length is read right up to ten bytes,
modulo `2 ^ 64`.  The shift for an eleventh byte overflows (`read_leb128`).
-/

namespace Elpytios

open ByteOrder Leb128

/-- Why nothing is read. -/
inductive DwarfStop where
  | /-- The reader is past the bytes that are known. -/
    ended
  | /-- A panic, in a build that checks for overflow. -/
    overflow
  | /-- `Err(())` -/
    err
deriving DecidableEq, Repr

/-- The bytes from `ptr` on, which is at an address. -/
structure DwarfReader where
  addr : ℕ
  bytes : List Byte
deriving DecidableEq, Repr

/-- What is read, and the reader after it. -/
abbrev DwarfM := StateT DwarfReader (Except DwarfStop)

namespace DwarfReader

/-- The reader some bytes further on. -/
def skip (self : DwarfReader) (n : ℕ) : DwarfReader := ⟨self.addr + n, self.bytes.drop n⟩

/-- Read a number of `n` bytes. -/
def read (n : ℕ) : DwarfM (BitVec (8 * n)) := fun self ↦
  if n ≤ self.bytes.length then .ok (field .little self.bytes 0 n, self.skip n) else .error .ended

/-- `<<` on a `u64`, which takes the shift modulo 64 unless the build checks it. -/
def shl (overflow_checks : Bool) (x : Word) (shift : ℕ) : Except DwarfStop Word :=
  if overflow_checks = true ∧ 64 ≤ shift then .error .overflow else .ok (x <<< (shift % 64))

/-- The loop of `read_uleb128` and of `read_sleb128`: the result, the last byte and the shift after
it, from a shift and a result on. -/
def leb128Loop (overflow_checks : Bool) (shift : ℕ) (result : Word) (addr : ℕ) :
    List Byte → Except DwarfStop ((Word × Byte × ℕ) × DwarfReader)
  | [] => .error .ended
  | byte :: bytes => do
      let group ← shl overflow_checks ((byte &&& 0x7F).setWidth 64) shift
      if byte &&& 0x80 = 0 then .ok ((result ||| group, byte, shift + 7), ⟨addr + 1, bytes⟩)
      else leb128Loop overflow_checks (shift + 7) (result ||| group) (addr + 1) bytes

def read_uleb128 (overflow_checks : Bool) : DwarfM Word := do
  let (result, _) ← fun self ↦ leb128Loop overflow_checks 0 0 self.addr self.bytes
  return result

def read_sleb128 (overflow_checks : Bool) : DwarfM Word := do
  let (result, byte, shift) ← fun self ↦ leb128Loop overflow_checks 0 0 self.addr self.bytes
  -- sign-extend
  if shift < 64 ∧ byte &&& 0x40 ≠ 0 then return result ||| BitVec.allOnes 64 <<< shift
  else return result

/-! ## Numbers of fixed length -/

theorem read_append (n k addr : ℕ) (rest : List Byte) :
    read n ⟨addr, bytesOf .little n k ++ rest⟩ = .ok (BitVec.ofNat (8 * n) k, ⟨addr + n, rest⟩) := by
  have hlen : (bytesOf .little n k).length = n := length_bytesOf ..
  have hle : n ≤ (bytesOf .little n k ++ rest).length := by
    rw [List.length_append, hlen]
    exact Nat.le_add_right n _
  have hfield : field .little (bytesOf .little n k ++ rest) 0 n = BitVec.ofNat (8 * n) k := by
    apply BitVec.eq_of_toNat_eq
    rw [toNat_field, slice, List.drop_zero, List.take_left' hlen, value_bytesOf, BitVec.toNat_ofNat,
      Nat.pow_mul]
  rw [read, if_pos hle, hfield, skip, List.drop_left' hlen]

/-! ## Numbers of variable length -/

section

variable {overflow_checks : Bool} {bytes : List Byte}

/-- A group in its place, next to lower groups. -/
theorem or_shiftLeft {k a m : ℕ} (ha : a < 2 ^ k) :
    BitVec.ofNat 64 a ||| BitVec.ofNat 64 m <<< k = BitVec.ofNat 64 (a + 2 ^ k * m) := by
  have hshift : BitVec.ofNat 64 m <<< k = BitVec.ofNat 64 (2 ^ k * m) := by
    apply BitVec.eq_of_toNat_eq
    rw [BitVec.toNat_shiftLeft, BitVec.toNat_ofNat, BitVec.toNat_ofNat, Nat.shiftLeft_eq,
      Nat.mod_mul_mod, Nat.mul_comm]
  rw [hshift, ← BitVec.ofNat_or, Nat.add_comm, Nat.two_pow_add_eq_or_of_lt ha, Nat.or_comm]

theorem setWidth_group (byte : Byte) :
    (byte &&& 0x7F).setWidth 64 = BitVec.ofNat 64 (byte.toNat % 128) := by
  apply BitVec.eq_of_toNat_eq
  rw [BitVec.toNat_setWidth, BitVec.toNat_and, BitVec.toNat_ofNat]
  exact congrArg (· % 2 ^ 64) (Nat.and_two_pow_sub_one_eq_mod byte.toNat 7)

theorem and_high_eq_zero_iff (byte : Byte) : byte &&& 0x80 = 0 ↔ byte.toNat < 128 := by
  decide +revert

theorem and_sign_eq_zero_iff {byte : Byte} (h : byte.toNat < 128) :
    byte &&& 0x40 = 0 ↔ byte.toNat < 64 := by
  decide +revert

theorem shl_of_lt {x : Word} {shift : ℕ} (h : shift < 64) :
    shl overflow_checks x shift = .ok (x <<< shift) := by
  rw [shl, if_neg fun hover ↦ Nat.not_le.mpr h hover.2, Nat.mod_eq_of_lt h]

section

variable {shift : ℕ} {byte : Byte} (hshift : shift < 64) (result : Word) (addr : ℕ)
  (bytes : List Byte)

include hshift

theorem leb128Loop_last (h : byte.toNat < 128) :
    leb128Loop overflow_checks shift result addr (byte :: bytes) =
      .ok ((result ||| BitVec.ofNat 64 (byte.toNat % 128) <<< shift, byte, shift + 7),
        ⟨addr + 1, bytes⟩) := by
  rw [leb128Loop, shl_of_lt hshift, setWidth_group]
  change (if byte &&& 0x80 = 0 then _ else _) = _
  rw [if_pos ((and_high_eq_zero_iff byte).mpr h)]

theorem leb128Loop_more (h : 128 ≤ byte.toNat) :
    leb128Loop overflow_checks shift result addr (byte :: bytes) =
      leb128Loop overflow_checks (shift + 7)
        (result ||| BitVec.ofNat 64 (byte.toNat % 128) <<< shift) (addr + 1) bytes := by
  rw [leb128Loop, shl_of_lt hshift, setWidth_group]
  change (if byte &&& 0x80 = 0 then _ else _) = _
  rw [if_neg fun hzero ↦ Nat.not_lt.mpr h ((and_high_eq_zero_iff byte).mp hzero)]

end

/-- The loop puts the groups together, for at most ten bytes. -/
theorem leb128Loop_of_terminated (hbytes : Terminated bytes) {k a : ℕ} (hk : k + bytes.length ≤ 10)
    (ha : a < 2 ^ (7 * k)) (addr : ℕ) (rest : List Byte) :
    leb128Loop overflow_checks (7 * k) (BitVec.ofNat 64 a) addr (bytes ++ rest) =
      .ok ((BitVec.ofNat 64 (a + 2 ^ (7 * k) * unsigned bytes), bytes.getLastD 0,
        7 * (k + bytes.length)), ⟨addr + bytes.length, rest⟩) := by
  induction hbytes generalizing k a addr with
  | @last byte h =>
      have hshift : 7 * k < 64 := by rw [List.length_singleton] at hk; omega
      rw [List.singleton_append, leb128Loop_last hshift _ _ _ h, or_shiftLeft ha]
      rfl
  | @more byte bytes h hbytes ih =>
      rw [List.length_cons] at hk
      have hpos := hbytes.length_pos
      have hshift : 7 * k < 64 := by omega
      have hnext : a + 2 ^ (7 * k) * (byte.toNat % 128) < 2 ^ (7 * (k + 1)) := by
        calc a + 2 ^ (7 * k) * (byte.toNat % 128)
            < 2 ^ (7 * k) + 2 ^ (7 * k) * (byte.toNat % 128) := Nat.add_lt_add_right ha _
          _ = 2 ^ (7 * k) * (byte.toNat % 128 + 1) := by rw [Nat.mul_succ, Nat.add_comm]
          _ ≤ 2 ^ (7 * k) * 2 ^ 7 := Nat.mul_le_mul_left _ (Nat.mod_lt _ (by decide))
          _ = 2 ^ (7 * (k + 1)) := (pow_add 2 (7 * k) 7).symm
      have hlast : (byte :: bytes).getLastD 0 = bytes.getLastD 0 := by
        obtain ⟨byte', bytes, rfl⟩ := List.exists_cons_of_length_pos hpos
        rfl
      have hvalue : a + 2 ^ (7 * k) * (byte.toNat % 128) + 2 ^ (7 * (k + 1)) * unsigned bytes =
          a + 2 ^ (7 * k) * unsigned (byte :: bytes) := by
        rw [unsigned, show 2 ^ (7 * (k + 1)) = 2 ^ (7 * k) * 128 from pow_add 2 (7 * k) 7]
        ring
      rw [List.cons_append, leb128Loop_more hshift _ _ _ h, or_shiftLeft ha]
      refine (ih (by omega) hnext (addr + 1)).trans ?_
      rw [hvalue, hlast, List.length_cons, Nat.add_assoc, Nat.add_assoc, Nat.add_comm 1]

/-- The shift for an eleventh byte overflows. -/
theorem leb128Loop_overflow {k : ℕ} (hk : k ≤ 10) (hlen : 10 < k + bytes.length)
    (hmore : ∀ byte ∈ bytes.take (10 - k), 128 ≤ byte.toNat) (result : Word) (addr : ℕ) :
    leb128Loop true (7 * k) result addr bytes = .error .overflow := by
  induction bytes generalizing k result addr with
  | nil => exact absurd hlen (Nat.not_lt.mpr hk)
  | cons byte bytes ih =>
      rcases hk.lt_or_eq with hlt | rfl
      · obtain ⟨n, hn⟩ : ∃ n, 10 - k = n + 1 := ⟨9 - k, by omega⟩
        rw [hn] at hmore
        obtain ⟨hbyte, hmore⟩ := List.forall_mem_cons.mp hmore
        rw [List.length_cons] at hlen
        rw [leb128Loop_more (by omega) _ _ _ hbyte]
        exact ih hlt (by omega) (by rwa [show 10 - (k + 1) = n by omega]) _ _
      · rfl

theorem read_uleb128_of_terminated (hbytes : Terminated bytes) (hlen : bytes.length ≤ 10)
    (addr : ℕ) (rest : List Byte) :
    read_uleb128 overflow_checks ⟨addr, bytes ++ rest⟩ =
      .ok (BitVec.ofNat 64 (unsigned bytes), ⟨addr + bytes.length, rest⟩) := by
  have hloop : leb128Loop overflow_checks 0 0 addr (bytes ++ rest) = _ :=
    leb128Loop_of_terminated hbytes (k := 0) (a := 0) (by omega) Nat.one_pos addr rest
  rw [pow_zero, Nat.one_mul, Nat.zero_add] at hloop
  change (leb128Loop overflow_checks 0 0 addr (bytes ++ rest) >>= _) = _
  rw [hloop]
  rfl

theorem read_sleb128_of_loop {reader reader' : DwarfReader} {result : Word} {byte : Byte} {shift : ℕ}
    (h : leb128Loop overflow_checks 0 0 reader.addr reader.bytes =
      .ok ((result, byte, shift), reader')) :
    read_sleb128 overflow_checks reader =
      .ok (if shift < 64 ∧ byte &&& 0x40 ≠ 0 then result ||| BitVec.allOnes 64 <<< shift
        else result, reader') := by
  change (leb128Loop overflow_checks 0 0 reader.addr reader.bytes >>= _) = _
  rw [h]
  change (ite _ _ _ : DwarfM Word) reader' = _
  split_ifs <;> rfl

/-- The bits above the groups, for a negative number. -/
theorem or_allOnes {n u : ℕ} (hn : n < 64) (hu : u < 2 ^ n) :
    BitVec.ofNat 64 u ||| BitVec.allOnes 64 <<< n = BitVec.ofInt 64 (u - 2 ^ n) := by
  rw [show BitVec.allOnes 64 = BitVec.ofNat 64 (2 ^ 64 - 1) from rfl, or_shiftLeft hu]
  apply BitVec.eq_of_toNat_eq
  have hpow : 2 ^ n * 2 ^ (64 - n) = 2 ^ 64 := by rw [← pow_add, Nat.add_sub_cancel' hn.le]
  have hle : 2 ^ n ≤ 2 ^ 64 := Nat.pow_le_pow_right (by decide) hn.le
  rw [BitVec.toNat_ofNat, BitVec.toNat_ofInt]
  have hcast : ((2 : ℤ) ^ n) = ((2 ^ n : ℕ) : ℤ) := by push_cast; rfl
  rw [hcast]
  have hmul : 2 ^ n * (2 ^ 64 - 1) = 2 ^ 64 * (2 ^ n - 1) + (2 ^ 64 - 2 ^ n) := by
    rw [Nat.mul_sub, Nat.mul_sub, Nat.mul_comm (2 ^ n) (2 ^ 64)]
    have hone : 2 ^ 64 * 1 ≤ 2 ^ 64 * 2 ^ n := Nat.mul_le_mul_left _ Nat.one_le_two_pow
    omega
  rw [hmul]
  omega

theorem read_sleb128_of_terminated (hbytes : Terminated bytes) (hlen : bytes.length ≤ 10)
    (addr : ℕ) (rest : List Byte) :
    read_sleb128 overflow_checks ⟨addr, bytes ++ rest⟩ =
      .ok (BitVec.ofInt 64 (signed bytes), ⟨addr + bytes.length, rest⟩) := by
  have hloop : leb128Loop overflow_checks 0 0 addr (bytes ++ rest) = _ :=
    leb128Loop_of_terminated hbytes (k := 0) (a := 0) (by omega) Nat.one_pos addr rest
  rw [pow_zero, Nat.one_mul, Nat.zero_add, Nat.zero_add] at hloop
  rw [read_sleb128_of_loop hloop]
  have hsign : bytes.getLastD 0 &&& 0x40 ≠ 0 ↔ 2 ^ (7 * bytes.length) ≤ 2 * unsigned bytes := by
    rw [sign_iff hbytes, Ne, and_sign_eq_zero_iff hbytes.getLastD_lt, Nat.not_lt]
  rw [signed]
  by_cases hneg : 2 ^ (7 * bytes.length) ≤ 2 * unsigned bytes
  · rw [if_neg (Nat.not_lt.mpr hneg)]
    by_cases hlt : 7 * bytes.length < 64
    · rw [if_pos ⟨hlt, hsign.mpr hneg⟩, or_allOnes hlt (unsigned_lt bytes)]
    · -- the groups fill the word, and what is subtracted is a multiple of it
      obtain hten : bytes.length = 10 := by omega
      rw [if_neg fun h ↦ hlt h.1, hten]
      have hword : BitVec.ofNat 64 (unsigned bytes) =
          BitVec.ofInt 64 (unsigned bytes - 2 ^ (7 * 10)) := by
        apply BitVec.eq_of_toNat_eq
        rw [BitVec.toNat_ofNat, BitVec.toNat_ofInt]
        omega
      rw [hword]
  · rw [if_neg fun h ↦ hneg (hsign.mp h.2), if_pos (Nat.not_le.mp hneg)]
    rfl

/-- A number of up to ten bytes is read, modulo `2 ^ 64` and whatever comes after it.  One of more
bytes makes a build that checks for overflow panic. -/
theorem read_leb128 (hbytes : Terminated bytes) (addr : ℕ) (rest : List Byte) :
    (bytes.length ≤ 10 → ∀ overflow_checks,
      read_uleb128 overflow_checks ⟨addr, bytes ++ rest⟩ =
        .ok (BitVec.ofNat 64 (unsigned bytes), ⟨addr + bytes.length, rest⟩) ∧
      read_sleb128 overflow_checks ⟨addr, bytes ++ rest⟩ =
        .ok (BitVec.ofInt 64 (signed bytes), ⟨addr + bytes.length, rest⟩)) ∧
    (10 < bytes.length →
      read_uleb128 true ⟨addr, bytes ++ rest⟩ = .error .overflow ∧
      read_sleb128 true ⟨addr, bytes ++ rest⟩ = .error .overflow) := by
  refine ⟨fun hlen overflow_checks ↦ ⟨read_uleb128_of_terminated hbytes hlen addr rest,
    read_sleb128_of_terminated hbytes hlen addr rest⟩, fun hlen ↦ ?_⟩
  have hmore : ∀ byte ∈ (bytes ++ rest).take 10, 128 ≤ byte.toNat := by
    rw [List.take_append_of_le_length hlen.le]
    exact hbytes.le_of_mem_take hlen
  have hloop : leb128Loop true 0 0 addr (bytes ++ rest) = .error .overflow :=
    leb128Loop_overflow (k := 0) (by omega) (by rw [List.length_append]; omega) hmore 0 addr
  constructor
  · change (leb128Loop true 0 0 addr (bytes ++ rest) >>= _) = _
    rw [hloop]
    rfl
  · change (leb128Loop true 0 0 addr (bytes ++ rest) >>= _) = _
    rw [hloop]
    rfl

/-- `-2` is stored as `7e`, or as `fe 7f`. -/
theorem read_leb128_padded :
    Terminated [0xFE, 0x7F] ∧
      read_sleb128 true ⟨0x1000, [0xFE, 0x7F, 0x33]⟩ =
        .ok (BitVec.ofInt 64 (-2), ⟨0x1002, [0x33]⟩) := by
  have h : Terminated [0xFE, 0x7F] := .more (by decide) (.last (by decide))
  exact ⟨h, (((read_leb128 h 0x1000 [0x33]).1 (by decide) true).2).trans (by decide +kernel)⟩

end

end DwarfReader

end Elpytios
