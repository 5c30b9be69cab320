import Elpytios.Bootinfo.Bytes
import Elpytios.Bootloader.Segments
import Mathlib.Tactic.Common

/-!
# Loading the image of the kernel

The copy and the zero-fill of the segment loop in `setup_uefi_and_exit`.

The pointer of the zero-fill is advanced by `data.len()` twice.  So the bytes after the
data of a segment stay what they were, and as many bytes after its end are cleared.
-/

namespace Elpytios

/-- The writes of the segment loop for a segment that is loaded. -/
def copySegment (kernel_ptr virtual_base : Word) (segment : ElfSegment64) (mem : Bytes) : Bytes :=
  let len : Word := BitVec.ofNat 64 segment.data.length
  let dst := kernel_ptr.toNat + (segment.virtual_address - virtual_base).toNat
  let mem := mem.copyFromNonoverlapping dst segment.data
  let dst := kernel_ptr.toNat + (segment.virtual_address - virtual_base + len).toNat
  mem.writeBytes (dst + len.toNat) 0 (segment.memory_size - len).toNat

/-- The writes of the segment loop. -/
def copySegments (kernel_ptr virtual_base : Word) (segments : List ElfSegment64) (mem : Bytes) :
    Bytes :=
  segments.foldl (fun mem segment ↦
    if segment.segment_type ≠ .Load then mem else copySegment kernel_ptr virtual_base segment mem)
    mem

/-- Where byte `k` of a segment is loaded. -/
def byteAt (kernel_ptr virtual_base : Word) (segment : ElfSegment64) (k : ℕ) : ℕ :=
  kernel_ptr.toNat + (segment.virtual_address.toNat - virtual_base.toNat) + k

/-- The image is loaded: data first, zeros up to the size in memory, and nothing else. -/
structure Loaded (kernel_ptr virtual_base : Word) (segments : List ElfSegment64)
    (mem mem' : Bytes) : Prop where
  data : ∀ segment ∈ loads segments, ∀ (k : ℕ) (h : k < segment.data.length),
    mem' (byteAt kernel_ptr virtual_base segment k) = segment.data[k]
  zero : ∀ segment ∈ loads segments, ∀ k, segment.data.length ≤ k →
    k < segment.memory_size.toNat → mem' (byteAt kernel_ptr virtual_base segment k) = 0
  frame : ∀ a, (∀ segment ∈ loads segments, ∀ k < segment.memory_size.toNat,
    a ≠ byteAt kernel_ptr virtual_base segment k) → mem' a = mem a

/-- What the bootloader is given: segments that fit into the image and hold their data. -/
structure Fits (virtual_base next_v_addr : Word) (segment : ElfSegment64) : Prop where
  base_le : virtual_base.toNat ≤ segment.virtual_address.toNat
  stop_le : segment.stop ≤ next_v_addr.toNat
  length_le : segment.data.length ≤ segment.memory_size.toNat

/-! ## What one segment writes -/

section

variable {kernel_ptr virtual_base next_v_addr : Word} {segment other : ElfSegment64} {a : ℕ}

theorem toNat_offset (h : Fits virtual_base next_v_addr segment) :
    (segment.virtual_address - virtual_base).toNat =
      segment.virtual_address.toNat - virtual_base.toNat :=
  BitVec.toNat_sub_of_le (BitVec.le_def.mpr h.base_le)

/-- The pointer of the zero-fill is past the data by the length of the data. -/
theorem copySegment_eq (h : Fits virtual_base next_v_addr segment) (mem : Bytes) :
    copySegment kernel_ptr virtual_base segment mem =
      (mem.copyFromNonoverlapping (byteAt kernel_ptr virtual_base segment 0) segment.data).writeBytes
        (byteAt kernel_ptr virtual_base segment (2 * segment.data.length)) 0
        (segment.memory_size.toNat - segment.data.length) := by
  have hstop := h.stop_le
  have hlen := h.length_le
  have hnext := next_v_addr.isLt
  have hsize := segment.memory_size.isLt
  rw [ElfSegment64.stop] at hstop
  have hlenWord : (BitVec.ofNat 64 segment.data.length).toNat = segment.data.length := by
    rw [BitVec.toNat_ofNat]; exact Nat.mod_eq_of_lt (by omega)
  have hcount : (segment.memory_size - BitVec.ofNat 64 segment.data.length).toNat =
      segment.memory_size.toNat - segment.data.length := by
    rw [BitVec.toNat_sub_of_le (BitVec.le_def.mpr (by rw [hlenWord]; exact hlen)), hlenWord]
  have hadd : (segment.virtual_address - virtual_base + BitVec.ofNat 64 segment.data.length).toNat =
      segment.virtual_address.toNat - virtual_base.toNat + segment.data.length := by
    rw [BitVec.toNat_add, toNat_offset h, hlenWord]
    exact Nat.mod_eq_of_lt (by omega)
  simp only [copySegment, toNat_offset h, hadd, hlenWord, hcount, byteAt]
  congr 1
  omega

/-- What a byte becomes does not depend on other bytes. -/
theorem copySegment_congr {mem mem' : Bytes} (h : mem' a = mem a) (segment : ElfSegment64) :
    copySegment kernel_ptr virtual_base segment mem' a =
      copySegment kernel_ptr virtual_base segment mem a :=
  Bytes.writeBytes_congr (Bytes.copyFromNonoverlapping_congr h ..) ..

/-- The bytes a segment writes. -/
def Writes (kernel_ptr virtual_base : Word) (segment : ElfSegment64) (a : ℕ) : Prop :=
  byteAt kernel_ptr virtual_base segment 0 ≤ a ∧
      a < byteAt kernel_ptr virtual_base segment segment.data.length ∨
    byteAt kernel_ptr virtual_base segment (2 * segment.data.length) ≤ a ∧
      a < byteAt kernel_ptr virtual_base segment
        (segment.data.length + segment.memory_size.toNat)

theorem copySegment_of_not_writes (h : Fits virtual_base next_v_addr segment) (mem : Bytes)
    (ha : ¬ Writes kernel_ptr virtual_base segment a) :
    copySegment kernel_ptr virtual_base segment mem a = mem a := by
  have hlen := h.length_le
  rw [Writes, not_or] at ha
  simp only [byteAt] at ha
  rw [copySegment_eq h, Bytes.writeBytes_of_notMem, Bytes.copyFromNonoverlapping_of_notMem]
  · simp only [byteAt]; omega
  · simp only [byteAt]; omega

/-- The pointer of the zero-fill is right for a segment without data, and for one without a
zero-fill. -/
def ElfSegment64.ZeroFillInPlace (segment : ElfSegment64) : Prop :=
  segment.data = [] ∨ segment.data.length = segment.memory_size.toNat

/-- Such a segment writes its own bytes only. -/
theorem exists_byteAt_of_writes (hgood : segment.ZeroFillInPlace)
    (ha : Writes kernel_ptr virtual_base segment a) :
    ∃ k < segment.memory_size.toNat, a = byteAt kernel_ptr virtual_base segment k := by
  simp only [Writes, byteAt] at ha ⊢
  refine ⟨a - (kernel_ptr.toNat + (segment.virtual_address.toNat - virtual_base.toNat)), ?_, ?_⟩
  · rcases hgood with hnil | hfull
    · rw [hnil, List.length_nil] at ha
      omega
    · omega
  · omega

/-- It loads all of them. -/
theorem copySegment_byteAt (h : Fits virtual_base next_v_addr segment)
    (hgood : segment.ZeroFillInPlace) (mem : Bytes) {k : ℕ} (hk : k < segment.memory_size.toNat) :
    copySegment kernel_ptr virtual_base segment mem (byteAt kernel_ptr virtual_base segment k) =
      (segment.data[k]?).getD 0 := by
  rw [copySegment_eq h]
  rcases hgood with hnil | hfull
  · rw [Bytes.writeBytes_of_mem]
    · rw [hnil]; rfl
    · simp only [byteAt, hnil, List.length_nil]
      omega
  · have hlt : k < segment.data.length := hfull ▸ hk
    rw [Bytes.writeBytes_of_notMem _ (by omega), List.getElem?_eq_getElem hlt, Option.getD_some]
    exact Bytes.copyFromNonoverlapping_add mem (byteAt kernel_ptr virtual_base segment 0) hlt

/-- Disjoint segments are loaded to different places. -/
theorem byteAt_ne (h : Fits virtual_base next_v_addr segment)
    (h' : Fits virtual_base next_v_addr other) (hd : segment.Disjoint other) {k j : ℕ}
    (hk : k < segment.memory_size.toNat) (hj : j < other.memory_size.toNat) :
    byteAt kernel_ptr virtual_base segment k ≠ byteAt kernel_ptr virtual_base other j := by
  intro heq
  have h₁ := h.base_le
  have h₂ := h'.base_le
  simp only [byteAt] at heq
  have hx := hd (segment.virtual_address.toNat + k) (Nat.le_add_right _ _)
    (by rw [ElfSegment64.stop]; omega) (by omega)
  rw [ElfSegment64.stop] at hx
  omega

/-- A segment that does not start below another does not write to its bytes. -/
theorem not_writes_of_le (h : Fits virtual_base next_v_addr segment)
    (h' : Fits virtual_base next_v_addr other) (hd : segment.Disjoint other)
    (hle : segment.virtual_address.toNat ≤ other.virtual_address.toNat) {k : ℕ}
    (hk : k < segment.memory_size.toNat) :
    ¬ Writes kernel_ptr virtual_base other (byteAt kernel_ptr virtual_base segment k) := by
  intro hw
  have h₁ := h.base_le
  have h₂ := h'.base_le
  have hlen := h'.length_le
  simp only [Writes, byteAt] at hw
  have hx := hd other.virtual_address.toNat hle (by rw [ElfSegment64.stop]; omega) (Nat.le_refl _)
  rw [ElfSegment64.stop] at hx
  omega

end

/-! ## The whole loop -/

section

variable {kernel_ptr virtual_base next_v_addr : Word} {segments : List ElfSegment64} {a : ℕ}

theorem copySegments_eq (kernel_ptr virtual_base : Word) (segments : List ElfSegment64)
    (mem : Bytes) : copySegments kernel_ptr virtual_base segments mem =
      (loads segments).foldl (fun mem segment ↦ copySegment kernel_ptr virtual_base segment mem)
        mem := by
  rw [loads, List.foldl_filter, copySegments]
  congr 1
  funext mem segment
  by_cases h : segment.segment_type = .Load <;> simp [h]

theorem copySegments_congr {mem mem' : Bytes} (h : mem' a = mem a) :
    copySegments kernel_ptr virtual_base segments mem' a =
      copySegments kernel_ptr virtual_base segments mem a := by
  rw [copySegments, copySegments]
  induction segments generalizing mem mem' with
  | nil => exact h
  | cons segment segments ih =>
      rw [List.foldl_cons, List.foldl_cons]
      refine ih ?_
      split_ifs
      · exact h
      · exact copySegment_congr h segment

theorem foldl_of_not_writes (hfits : ∀ segment ∈ segments, Fits virtual_base next_v_addr segment)
    (mem : Bytes) (ha : ∀ segment ∈ segments, ¬ Writes kernel_ptr virtual_base segment a) :
    segments.foldl (fun mem segment ↦ copySegment kernel_ptr virtual_base segment mem) mem a =
      mem a := by
  induction segments generalizing mem with
  | nil => rfl
  | cons segment segments ih =>
      rw [List.foldl_cons, ih (fun s hs ↦ hfits s (List.mem_cons_of_mem _ hs)) _
        fun s hs ↦ ha s (List.mem_cons_of_mem _ hs)]
      exact copySegment_of_not_writes (hfits segment List.mem_cons_self) mem
        (ha segment List.mem_cons_self)

variable (hfits : ∀ segment ∈ loads segments, Fits virtual_base next_v_addr segment)
  (hdisjoint : (loads segments).Pairwise ElfSegment64.Disjoint)

include hfits hdisjoint

/-- The image is loaded if no segment has both data and a zero-fill. -/
theorem loaded_of_zeroFillInPlace
    (hgood : ∀ segment ∈ loads segments, segment.ZeroFillInPlace) (mem : Bytes) :
    Loaded kernel_ptr virtual_base segments mem
      (copySegments kernel_ptr virtual_base segments mem) := by
  rw [copySegments_eq]
  have hbyte : ∀ segment ∈ loads segments, ∀ k < segment.memory_size.toNat,
      (loads segments).foldl (fun mem segment ↦ copySegment kernel_ptr virtual_base segment mem) mem
        (byteAt kernel_ptr virtual_base segment k) = (segment.data[k]?).getD 0 := by
    intro segment hmem k hk
    obtain ⟨before, later, hsplit⟩ := List.append_of_mem hmem
    have hlater : ∀ other ∈ later, other ∈ loads segments := fun other hother ↦ by
      rw [hsplit]; simp [hother]
    have hapart : ∀ other ∈ later, segment.Disjoint other := by
      rw [hsplit, List.pairwise_append] at hdisjoint
      exact (List.pairwise_cons.mp hdisjoint.2.1).1
    rw [hsplit, List.foldl_append, List.foldl_cons, foldl_of_not_writes
      fun other hother ↦ hfits other (hlater other hother)]
    · exact copySegment_byteAt (hfits segment hmem) (hgood segment hmem) _ hk
    · intro other hother hw
      obtain ⟨j, hj, heq⟩ := exists_byteAt_of_writes (hgood other (hlater other hother)) hw
      exact byteAt_ne (hfits segment hmem) (hfits other (hlater other hother))
        (hapart other hother) hk hj heq
  constructor
  · intro segment hmem k hk
    have hle := (hfits segment hmem).length_le
    rw [hbyte segment hmem k (by omega), List.getElem?_eq_getElem hk, Option.getD_some]
  · intro segment hmem k hk hk'
    rw [hbyte segment hmem k hk', List.getElem?_eq_none hk, Option.getD_none]
  · intro a ha
    apply foldl_of_not_writes hfits mem
    intro segment hmem hw
    obtain ⟨k, hk, heq⟩ := exists_byteAt_of_writes (hgood segment hmem) hw
    exact ha segment hmem k hk heq

/-- If the image is loaded whatever memory held before, no segment has both data and a
zero-fill. -/
theorem zeroFillInPlace_of_loaded
    (hloaded : ∀ mem, Loaded kernel_ptr virtual_base segments mem
      (copySegments kernel_ptr virtual_base segments mem)) :
    ∀ segment ∈ loads segments, segment.ZeroFillInPlace := by
  intro segment hmem
  -- by induction on the address: the segments further down keep to their own bytes
  induction hn : segment.virtual_address.toNat using Nat.strongRecOn generalizing segment with
  | _ n ih =>
      by_contra hbad
      rw [ElfSegment64.ZeroFillInPlace, not_or] at hbad
      have hfit := hfits segment hmem
      have hlen := hfit.length_le
      have hpos : 0 < segment.data.length := List.length_pos_iff.mpr hbad.1
      have hlt : segment.data.length < segment.memory_size.toNat := by omega
      have hzero := (hloaded fun _ ↦ 1).zero segment hmem segment.data.length (Nat.le_refl _) hlt
      rw [copySegments_eq, foldl_of_not_writes hfits] at hzero
      · exact absurd hzero (by decide)
      · intro other hother hw
        rcases eq_or_disjoint hdisjoint hmem hother with rfl | hd
        · simp only [Writes, byteAt] at hw
          omega
        · by_cases hle : segment.virtual_address.toNat ≤ other.virtual_address.toNat
          · exact not_writes_of_le hfit (hfits other hother) hd hle hlt hw
          · obtain ⟨j, hj, heq⟩ := exists_byteAt_of_writes
              (ih _ (by omega) other hother rfl) hw
            exact byteAt_ne hfit (hfits other hother) hd hlt hj heq

/-- The image is loaded, whatever memory held before, exactly if every segment that is
loaded is without data or without a zero-fill. -/
theorem loaded_iff :
    (∀ mem, Loaded kernel_ptr virtual_base segments mem
      (copySegments kernel_ptr virtual_base segments mem)) ↔
      ∀ segment ∈ loads segments, segment.ZeroFillInPlace :=
  ⟨zeroFillInPlace_of_loaded hfits hdisjoint,
    fun hgood mem ↦ loaded_of_zeroFillInPlace hfits hdisjoint hgood mem⟩

end

/-- A segment of code and one of zeros right after it. -/
theorem loaded_iff_code_and_zeros :
    let code : ElfSegment64 := ⟨.Load, [0x90, 0xc3], ⟨5⟩, 0xffffffff80000000, 0, 2, 0x1000⟩
    let bss : ElfSegment64 := ⟨.Load, [], ⟨6⟩, 0xffffffff80000002, 0, 3, 0x1000⟩
    (∀ mem, Loaded 0x100000 0xffffffff80000000 [code, bss] mem
      (copySegments 0x100000 0xffffffff80000000 [code, bss] mem)) ↔
      ∀ segment ∈ loads [code, bss], segment.ZeroFillInPlace := by
  intro code bss
  have hfits : ∀ segment ∈ loads [code, bss],
      Fits 0xffffffff80000000 0xffffffff80001000 segment := by
    intro segment hmem
    obtain rfl | rfl : segment = code ∨ segment = bss := by simpa using (mem_loads.mp hmem).1
    · exact ⟨by decide, by decide, by decide⟩
    · exact ⟨by decide, by decide, by decide⟩
  apply loaded_iff hfits
  rw [show loads [code, bss] = [code, bss] from rfl, List.pairwise_pair]
  intro x h₁ h₂ h₃
  change 0xffffffff80000000 ≤ x at h₁
  change x < 0xffffffff80000002 at h₂
  change 0xffffffff80000002 ≤ x at h₃
  omega

/-- A segment with one byte of data and a size of four, in memory filled with ones: its
second byte is not cleared, and the byte after its end is. -/
theorem segment_not_loaded :
    let segment : ElfSegment64 := ⟨.Load, [0xc3], ⟨6⟩, 0xffffffff80000000, 0, 4, 0x1000⟩
    let mem : Bytes := fun _ ↦ 1
    let mem' := copySegments 0x100000 0xffffffff80000000 [segment] mem
    Fits 0xffffffff80000000 0xffffffff80001000 segment ∧
      mem' (byteAt 0x100000 0xffffffff80000000 segment 1) = 1 ∧ mem' 0x100004 = 0 ∧
      ¬ Loaded 0x100000 0xffffffff80000000 [segment] mem mem' := by
  intro segment mem mem'
  have hone : mem' (byteAt 0x100000 0xffffffff80000000 segment 1) = 1 := by decide
  have hafter : mem' 0x100004 = 0 := by decide
  refine ⟨⟨by decide, by decide, by decide⟩, hone, hafter, fun h ↦ ?_⟩
  have hzero := h.zero segment (by simp [segment]) 1 (by decide) (by decide)
  rw [hone] at hzero
  exact absurd hzero (by decide)

end Elpytios
