import Elpytios.Bootinfo.Paddr
import Mathlib.Algebra.Group.Nat.Defs
import Mathlib.Data.List.Pairwise
import Mathlib.Tactic.Common

/-!
# The segments of the kernel

`ElfSegment64` is from `elf/src/lib.rs`; the checks made on the segments while the
bootloader is built are from `bootloader/src/main.rs`.  Where the build does not succeed
there is no result.
-/

namespace Elpytios

inductive ElfSegmentType where
  | Null
  | Load
  | Dynamic
  | Interp
  | Note
  | Shlib
  | Header
  | Tls
  | Unknown (n : BitVec 32)
deriving DecidableEq, Repr

@[ext]
structure ElfProgramFlags where
  bits : BitVec 32
deriving DecidableEq, Repr

namespace ElfProgramFlags

def EXECUTABLE : ElfProgramFlags := ⟨(1 : BitVec 32) <<< 0⟩

def WRITABLE : ElfProgramFlags := ⟨(1 : BitVec 32) <<< 1⟩

def READABLE : ElfProgramFlags := ⟨(1 : BitVec 32) <<< 2⟩

def contains (self other : ElfProgramFlags) : Bool := self.bits &&& other.bits == other.bits

end ElfProgramFlags

structure ElfSegment64 where
  segment_type : ElfSegmentType
  data : List Byte
  flags : ElfProgramFlags
  virtual_address : Word
  physical_address : Word
  memory_size : Word
  alignment : Word
deriving DecidableEq, Repr

namespace ElfSegment64

/-- The address after the last byte of a segment. -/
def stop (self : ElfSegment64) : ℕ := self.virtual_address.toNat + self.memory_size.toNat

/-- Two segments have no byte in common. -/
def Disjoint (a b : ElfSegment64) : Prop :=
  ∀ x, a.virtual_address.toNat ≤ x → x < a.stop → b.virtual_address.toNat ≤ x → ¬ x < b.stop

instance : Std.Symm Disjoint := ⟨fun _ _ h x hb hb' ha ha' ↦ h x ha ha' hb hb'⟩

end ElfSegment64

/-- The segments that are loaded. -/
def loads (segments : List ElfSegment64) : List ElfSegment64 :=
  segments.filter fun segment ↦ segment.segment_type = .Load

@[simp] theorem mem_loads {segments : List ElfSegment64} {segment : ElfSegment64} :
    segment ∈ loads segments ↔ segment ∈ segments ∧ segment.segment_type = .Load := by
  simp [loads]

theorem loads_cons (segment : ElfSegment64) (segments : List ElfSegment64) :
    loads (segment :: segments) =
      if segment.segment_type = .Load then segment :: loads segments else loads segments := by
  rw [loads, List.filter_cons]
  simp only [decide_eq_true_eq]
  rfl

/-- Two segments that are loaded are one, or have no byte in common. -/
theorem eq_or_disjoint {segments : List ElfSegment64}
    (h : (loads segments).Pairwise ElfSegment64.Disjoint) {a b : ElfSegment64}
    (ha : a ∈ loads segments) (hb : b ∈ loads segments) : a = b ∨ a.Disjoint b := by
  by_cases hab : a = b
  · exact Or.inl hab
  · exact Or.inr (h.forall ha hb hab)

/-! ## Checks made by the build -/

/-- `usize::next_multiple_of`. -/
def next_multiple_of (self rhs : Word) : Word :=
  if self % rhs = 0 then self else self + (rhs - self % rhs)

/-- The size of a page as a word. -/
def pageSizeWord : Word := BitVec.ofNat 64 PAGE_SIZE

/-- `KERNEL_SEGMENTS`. -/
def kernelSegments (program_segments : List ElfSegment64) : Option (List ElfSegment64) :=
  if program_segments.all fun segment ↦ segment.alignment = pageSizeWord then
    some program_segments
  else none

/-- The loop of `KERNEL_VIRTUAL_ADDRESSES`.  On a segment that is not loaded it goes on
without advancing, and the build does not come to an end. -/
def virtualAddressesLoop : List ElfSegment64 → (min max : Word) → Option (Word × Word)
  | [], _, _ => none
  | segment :: rest, min, max =>
      if segment.segment_type ≠ .Load then none
      else if 2 ^ 64 ≤ segment.stop then none
      else
        let min := if segment.virtual_address ≤ min then segment.virtual_address else min
        let stop := segment.virtual_address + segment.memory_size
        let max := if max ≤ stop then stop else max
        if rest.isEmpty then some (min, max) else virtualAddressesLoop rest min max

/-- `KERNEL_VIRTUAL_ADDRESSES`: the lowest virtual address of the kernel, and the first one
above it that can be used. -/
def kernelVirtualAddresses (segments : List ElfSegment64) : Option (Word × Word) := do
  let (min, max) ← virtualAddressesLoop segments (BitVec.allOnes 64) 0
  if min % pageSizeWord ≠ 0 then none
  else if max % pageSizeWord ≠ 0 ∧ 2 ^ 64 ≤ max.toNat - max.toNat % PAGE_SIZE + PAGE_SIZE then none
  else some (min, next_multiple_of max pageSizeWord)

/-! ## What the checks establish -/

theorem toNat_pageSizeWord : pageSizeWord.toNat = PAGE_SIZE := rfl

theorem toNat_next_multiple_of {x : Word} (h : x.toNat + (PAGE_SIZE - 1) < 2 ^ 64) :
    (next_multiple_of x pageSizeWord).toNat =
      (x.toNat + (PAGE_SIZE - 1)) / PAGE_SIZE * PAGE_SIZE := by
  have hmod : (x % pageSizeWord).toNat = x.toNat % PAGE_SIZE := by
    rw [BitVec.toNat_umod, toNat_pageSizeWord]
  rw [next_multiple_of]
  split_ifs with hx
  · rw [hx] at hmod
    simp only [PAGE_SIZE, BitVec.ofNat_eq_ofNat, BitVec.toNat_ofNat, Nat.zero_mod] at hmod ⊢
    omega
  · have hne : x.toNat % PAGE_SIZE ≠ 0 := fun hc ↦ hx (BitVec.eq_of_toNat_eq (hmod.trans hc))
    have hle : x % pageSizeWord ≤ pageSizeWord := by
      rw [BitVec.le_def, hmod, toNat_pageSizeWord]
      exact Nat.le_of_lt (Nat.mod_lt _ (by decide))
    rw [BitVec.toNat_add, BitVec.toNat_sub_of_le hle, hmod, toNat_pageSizeWord]
    simp only [PAGE_SIZE] at hne h ⊢
    rw [Nat.mod_eq_of_lt (by omega)]
    omega

/-- Where the segments that are loaded lie. -/
structure Linked (virtual_base next_v_addr : Word) (segments : List ElfSegment64) : Prop where
  base_aligned : virtual_base.toNat % PAGE_SIZE = 0
  next_aligned : next_v_addr.toNat % PAGE_SIZE = 0
  base_le : ∀ segment ∈ loads segments, virtual_base.toNat ≤ segment.virtual_address.toNat
  stop_le : ∀ segment ∈ loads segments, segment.stop ≤ next_v_addr.toNat

/-- A segment the loop goes past is loaded, and its end is an address. -/
theorem of_virtualAddressesLoop_cons {segment : ElfSegment64} {rest : List ElfSegment64}
    {min max : Word} {r : Word × Word}
    (h : virtualAddressesLoop (segment :: rest) min max = some r) :
    segment.segment_type = .Load ∧ ¬ 2 ^ 64 ≤ segment.stop ∧
      (segment.virtual_address + segment.memory_size).toNat = segment.stop := by
  by_cases hload : segment.segment_type ≠ .Load
  · rw [virtualAddressesLoop, if_pos hload] at h
    cases h
  by_cases hstop : 2 ^ 64 ≤ segment.stop
  · rw [virtualAddressesLoop, if_neg hload, if_pos hstop] at h
    cases h
  refine ⟨not_not.mp hload, hstop, ?_⟩
  rw [BitVec.toNat_add]
  exact Nat.mod_eq_of_lt (Nat.lt_of_not_le hstop)

theorem virtualAddressesLoop_spec {segments : List ElfSegment64} {min max min' max' : Word}
    (h : virtualAddressesLoop segments min max = some (min', max')) :
    min'.toNat ≤ min.toNat ∧ max.toNat ≤ max'.toNat ∧ ∀ segment ∈ segments,
      min'.toNat ≤ segment.virtual_address.toNat ∧ segment.stop ≤ max'.toNat := by
  induction segments generalizing min max with
  | nil => cases h
  | cons segment rest ih =>
      obtain ⟨hload, hstop, hsum⟩ := of_virtualAddressesLoop_cons h
      have hmin : ∀ x y : Word, (if x ≤ y then x else y).toNat ≤ x.toNat ∧
          (if x ≤ y then x else y).toNat ≤ y.toNat := by
        intro x y
        split_ifs with hxy
        · exact ⟨Nat.le_refl _, hxy⟩
        · exact ⟨Nat.le_of_not_le hxy, Nat.le_refl _⟩
      have hmax : ∀ x y : Word, x.toNat ≤ (if x ≤ y then y else x).toNat ∧
          y.toNat ≤ (if x ≤ y then y else x).toNat := by
        intro x y
        split_ifs with hxy
        · exact ⟨hxy, Nat.le_refl _⟩
        · exact ⟨Nat.le_refl _, Nat.le_of_not_le hxy⟩
      obtain ⟨hlo, hlo'⟩ := hmin segment.virtual_address min
      obtain ⟨hhi, hhi'⟩ := hmax max (segment.virtual_address + segment.memory_size)
      rw [virtualAddressesLoop, if_neg (not_not.mpr hload), if_neg hstop] at h
      dsimp only at h
      rw [hsum] at hhi'
      generalize (if segment.virtual_address ≤ min then segment.virtual_address else min) = lo
        at h hlo hlo'
      generalize (if max ≤ segment.virtual_address + segment.memory_size then
        segment.virtual_address + segment.memory_size else max) = hi at h hhi hhi'
      cases rest with
      | nil =>
          obtain ⟨rfl, rfl⟩ : lo = min' ∧ hi = max' := by simpa using h
          exact ⟨hlo', hhi, List.forall_mem_singleton.mpr ⟨hlo, hhi'⟩⟩
      | cons next rest =>
          obtain ⟨h₁, h₂, h₃⟩ := ih h
          refine ⟨Nat.le_trans h₁ hlo', Nat.le_trans hhi h₂, List.forall_mem_cons.mpr ⟨?_, h₃⟩⟩
          exact ⟨Nat.le_trans h₁ hlo, Nat.le_trans hhi' h₂⟩

/-- The addresses the build computes enclose the segments. -/
theorem linked_of_kernelVirtualAddresses {segments : List ElfSegment64}
    {virtual_base next_v_addr : Word}
    (h : kernelVirtualAddresses segments = some (virtual_base, next_v_addr)) :
    Linked virtual_base next_v_addr segments := by
  obtain ⟨⟨min, max⟩, hloop, h⟩ := Option.bind_eq_some_iff.mp h
  have haligned : ∀ {x : Word}, x % pageSizeWord = 0 → x.toNat % PAGE_SIZE = 0 := fun {x} hx ↦ by
    rw [← toNat_pageSizeWord, ← BitVec.toNat_umod, hx]; rfl
  dsimp only at h
  split_ifs at h with hmin hmax
  obtain ⟨rfl, rfl⟩ : min = virtual_base ∧ next_multiple_of max pageSizeWord = next_v_addr := by
    simpa using h
  obtain ⟨-, -, hspec⟩ := virtualAddressesLoop_spec hloop
  have hnext : max.toNat ≤ (next_multiple_of max pageSizeWord).toNat ∧
      (next_multiple_of max pageSizeWord).toNat % PAGE_SIZE = 0 := by
    by_cases hzero : max % pageSizeWord = 0
    · rw [next_multiple_of, if_pos hzero]
      exact ⟨Nat.le_refl _, haligned hzero⟩
    · have hlt : ¬ 2 ^ 64 ≤ max.toNat - max.toNat % PAGE_SIZE + PAGE_SIZE := fun hc ↦
        hmax ⟨hzero, hc⟩
      have hne : max.toNat % PAGE_SIZE ≠ 0 := fun hc ↦ hzero (BitVec.eq_of_toNat_eq (by
        rw [BitVec.toNat_umod, toNat_pageSizeWord, hc]; rfl))
      simp only [PAGE_SIZE] at hlt hne
      rw [toNat_next_multiple_of (by rw [PAGE_SIZE]; omega), PAGE_SIZE]
      omega
  refine ⟨haligned (not_not.mp hmin), hnext.2, fun segment hsegment ↦ ?_, fun segment hsegment ↦ ?_⟩
  · exact (hspec segment (mem_loads.mp hsegment).1).1
  · exact Nat.le_trans (hspec segment (mem_loads.mp hsegment).1).2 hnext.1

end Elpytios
