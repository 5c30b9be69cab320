import Elpytios.Bootloader.Setup
import Elpytios.Paging.Finished
import Mathlib.Order.Interval.Set.Disjoint

/-!
# The layout of the address space

Given a kernel in the last slot of the PML4 and enough room above it (`Bootable`), no two of the
ranges that the bootloader maps have a page in common (`Bootable.layout_disjoint`).

`Intended` says which pages are meant to be mapped, in numbers and without reference to the code.
They are those of the ranges (`Bootable.intended_iff`).
-/

namespace Elpytios

open Radix

namespace ElfSegment64

/-- A byte of the segment is on the page with the given number. -/
def OnPage (self : ElfSegment64) (n : ℕ) : Prop :=
  ∃ x, self.virtual_address.toNat ≤ x ∧ x < self.stop ∧ x / PAGE_SIZE = n

/-- A segment that ends below the page another starts on has no page in common with it. -/
theorem not_onPage_of_le {a b : ElfSegment64}
    (h : a.stop ≤ b.virtual_address.toNat / PAGE_SIZE * PAGE_SIZE) {n : ℕ} (ha : a.OnPage n) :
    ¬ b.OnPage n := by
  obtain ⟨x, -, hx, rfl⟩ := ha
  rintro ⟨y, hy, -, hxy⟩
  simp only [PAGE_SIZE] at *
  omega

end ElfSegment64

/-- A kernel that is linked to whole pages of the last slot, and a machine whose memory
the entries of a page table have room for. -/
structure Bootable (segments : List ElfSegment64) (virtual_base next_v_addr : Word)
    (firmware : Firmware) : Prop where
  linked : Linked virtual_base next_v_addr segments
  upper : ∀ segment ∈ loads segments, 2 ^ 64 - 2 ^ 39 ≤ segment.virtual_address.toNat
  next_upper : 2 ^ 64 - 2 ^ 39 ≤ next_v_addr.toNat
  aligned : ∀ segment ∈ loads segments, segment.virtual_address.toNat % PAGE_SIZE = 0
  disjoint : (loads segments).Pairwise fun a b ↦ ∀ n, a.OnPage n → ¬ b.OnPage n
  kernel_ptr : firmware.kernel_ptr.toNat % PAGE_SIZE = 0
  kernel_frames : firmware.kernel_ptr.toNat + (next_v_addr.toNat - virtual_base.toNat) ≤ 2 ^ 52
  switcher : firmware.switcher_addr.toNat % PAGE_SIZE = 0
  switcher_lt : firmware.switcher_addr.toNat < 2 ^ 47
  stack_ptr : firmware.stack_ptr.toNat % PAGE_SIZE = 0
  stack_frames : firmware.stack_ptr.toNat + KERNEL_STACK_PAGES * PAGE_SIZE ≤ 2 ^ 52
  fb_frames : firmware.fb_phys.toNat + firmware.fb_size.toNat ≤ 2 ^ 52
  room : next_v_addr.toNat + (KERNEL_STACK_PAGES +
    (frameBufferPages firmware.fb_phys firmware.fb_size).toNat) * PAGE_SIZE < 2 ^ 64

/-- The page at a virtual address is meant to be mapped to the page at a physical address,
with the given flags. -/
inductive Intended (segments : List ElfSegment64) (virtual_base next_v_addr : Word)
    (firmware : Firmware) : ℕ → ℕ → VFlags → Prop
  | segment {segment : ElfSegment64} {i : ℕ} (h : segment ∈ loads segments)
      (hi : i * PAGE_SIZE < segment.memory_size.toNat) :
      Intended segments virtual_base next_v_addr firmware
        (segment.virtual_address.toNat + i * PAGE_SIZE)
        (firmware.kernel_ptr.toNat + (segment.virtual_address.toNat - virtual_base.toNat) +
          i * PAGE_SIZE) (segmentFlags segment)
  | switcher :
      Intended segments virtual_base next_v_addr firmware firmware.switcher_addr.toNat
        firmware.switcher_addr.toNat VFlags.empty
  | stack {i : ℕ} (hi : i < KERNEL_STACK_PAGES) :
      Intended segments virtual_base next_v_addr firmware (next_v_addr.toNat + i * PAGE_SIZE)
        (firmware.stack_ptr.toNat + i * PAGE_SIZE) (VFlags.GLOBAL ||| VFlags.WRITABLE)
  | frameBuffer {i : ℕ} (hi : (firmware.fb_phys.toNat / PAGE_SIZE + i) * PAGE_SIZE <
        firmware.fb_phys.toNat + firmware.fb_size.toNat) :
      Intended segments virtual_base next_v_addr firmware
        (next_v_addr.toNat + (KERNEL_STACK_PAGES + i) * PAGE_SIZE)
        ((firmware.fb_phys.toNat / PAGE_SIZE + i) * PAGE_SIZE)
        (VFlags.GLOBAL ||| frameBufferFlags)

/-! ## The ranges -/

/-- A range in the last slot of the PML4 can be mapped. -/
theorem usable_of_upper {r : PageRange} (h : 2 ^ 64 - 2 ^ 39 ≤ r.v_addr.toNat)
    (hle : r.first + r.count ≤ 2 ^ 52) : r.Usable 510 := by
  have hu : ∀ u : VAddr, r.Covers u.pageNumber → 2 ^ 64 - 2 ^ 39 ≤ u.addr.toNat := by
    rintro u ⟨hlo, -⟩
    rw [PageRange.first, VAddr.pageNumber, PAGE_SIZE] at hlo
    omega
  refine ⟨hle, fun u hcov ↦ ?_, fun u hcov ↦ ?_⟩
  · have := hu u hcov
    exact Or.inr (by omega)
  · have := hu u hcov
    rw [Ne, Fin.ext_iff, VAddr.slot]
    have hlt := u.addr.isLt
    change ¬ u.addr.toNat / 2 ^ 39 % 512 = 510
    omega

/-- A range in the lower half of the address space can be mapped. -/
theorem usable_of_lower {r : PageRange} (hle : r.first + r.count ≤ 2 ^ 35) : r.Usable 510 := by
  have hu : ∀ u : VAddr, r.Covers u.pageNumber → u.addr.toNat < 2 ^ 47 := by
    rintro u ⟨-, hhi⟩
    rw [VAddr.pageNumber, PAGE_SIZE] at hhi
    omega
  refine ⟨hle.trans (by decide), fun u hcov ↦ Or.inl (hu u hcov), fun u hcov ↦ ?_⟩
  have := hu u hcov
  rw [Ne, Fin.ext_iff, VAddr.slot]
  change ¬ u.addr.toNat / 2 ^ 39 % 512 = 510
  omega

/-- The pages of the framebuffer are those that hold one of its bytes, and the page it
starts on unless that would be the first byte of the page after it. -/
theorem toNat_frameBufferPages {fb_phys fb_size : Word}
    (h : fb_phys.toNat + fb_size.toNat ≤ 2 ^ 52) :
    (frameBufferPages fb_phys fb_size).toNat =
      (fb_phys.toNat + fb_size.toNat + (PAGE_SIZE - 1)) / PAGE_SIZE -
        fb_phys.toNat / PAGE_SIZE := by
  have hbase : (fb_phys &&& ~~~(pageSizeWord - 1)).toNat =
      fb_phys.toNat / PAGE_SIZE * PAGE_SIZE := by
    have hmask := Bits.toNat_and_fieldMask fb_phys 52 12 (by decide)
    rw [Nat.mod_eq_of_lt fb_phys.isLt] at hmask
    exact hmask
  have hsum : (fb_phys + fb_size).toNat = fb_phys.toNat + fb_size.toNat := by
    rw [BitVec.toNat_add]; exact Nat.mod_eq_of_lt (by omega)
  have hend := toNat_next_multiple_of (x := fb_phys + fb_size) (by
    rw [hsum, PAGE_SIZE]; omega)
  rw [hsum] at hend
  have hle : fb_phys &&& ~~~(pageSizeWord - 1) ≤
      next_multiple_of (fb_phys + fb_size) pageSizeWord := by
    rw [BitVec.le_def, hbase, hend, PAGE_SIZE]
    omega
  rw [frameBufferPages, BitVec.toNat_udiv, BitVec.toNat_sub_of_le hle, hbase, hend,
    toNat_pageSizeWord, ← Nat.sub_mul, Nat.mul_div_cancel _ (by decide)]

/-- The frames of the framebuffer fit into an entry. -/
theorem frames_frameBufferRange (next_v_addr : Word) {fb_phys fb_size : Word}
    (h : fb_phys.toNat + fb_size.toNat ≤ 2 ^ 52) :
    ∀ i < (frameBufferRange next_v_addr fb_phys fb_size).count,
      (frameBufferRange next_v_addr fb_phys fb_size).p_addr.toNat + i * PAGE_SIZE < 2 ^ 52 := by
  intro i hi
  simp only [frameBufferRange, freeRange, PAddr.addr_new, toNat_frameBufferPages h,
    PAGE_SIZE] at hi ⊢
  omega

section

variable {segments : List ElfSegment64} {virtual_base next_v_addr : Word} {firmware : Firmware}
  (h : Bootable segments virtual_base next_v_addr firmware)

include h

theorem Bootable.toNat_stackEnd :
    (stackEnd next_v_addr).toNat = next_v_addr.toNat + KERNEL_STACK_PAGES * PAGE_SIZE := by
  have hroom := h.room
  rw [stackEnd, BitVec.toNat_add, BitVec.toNat_mul, toNat_pageSizeWord]
  simp only [KERNEL_STACK_PAGES, PAGE_SIZE, BitVec.toNat_ofNat] at hroom ⊢
  omega

/-- Where the pages of a segment are. -/
theorem Bootable.covers_segment {segment : ElfSegment64} (hsegment : segment ∈ loads segments)
    {n : ℕ} (hn : (segmentRange firmware.kernel_ptr virtual_base segment).Covers n) :
    segment.OnPage n ∧ 2 ^ 64 - 2 ^ 39 ≤ n * PAGE_SIZE ∧ n * PAGE_SIZE < next_v_addr.toNat := by
  have haligned := h.aligned segment hsegment
  have hupper := h.upper segment hsegment
  have hstop := h.linked.stop_le segment hsegment
  obtain ⟨hlo, hhi⟩ := hn
  simp only [PageRange.first, segmentRange, PAGE_SIZE, ElfSegment64.stop] at *
  have hbytes : segment.virtual_address.toNat ≤ n * 4096 ∧
      n * 4096 < segment.virtual_address.toNat + segment.memory_size.toNat := by omega
  exact ⟨⟨_, hbytes.1, hbytes.2, Nat.mul_div_cancel n (by decide)⟩, by omega, by omega⟩

theorem Bootable.covers_switcher {n : ℕ} (hn : (switcherRange firmware.switcher_addr).Covers n) :
    n * PAGE_SIZE = firmware.switcher_addr.toNat := by
  have haligned := h.switcher
  obtain ⟨hlo, hhi⟩ := hn
  simp only [PageRange.first, switcherRange, PAGE_SIZE] at *
  omega

theorem Bootable.covers_stack {n : ℕ} (hn : (stackRange next_v_addr firmware.stack_ptr).Covers n) :
    next_v_addr.toNat ≤ n * PAGE_SIZE ∧
      n * PAGE_SIZE < next_v_addr.toNat + KERNEL_STACK_PAGES * PAGE_SIZE := by
  have haligned := h.linked.next_aligned
  obtain ⟨hlo, hhi⟩ := hn
  simp only [PageRange.first, stackRange, freeRange, PAGE_SIZE, KERNEL_STACK_PAGES,
    BitVec.toNat_ofNat] at *
  omega

theorem Bootable.covers_frameBuffer {n : ℕ}
    (hn : (frameBufferRange (stackEnd next_v_addr) firmware.fb_phys firmware.fb_size).Covers n) :
    next_v_addr.toNat + KERNEL_STACK_PAGES * PAGE_SIZE ≤ n * PAGE_SIZE ∧
      n * PAGE_SIZE < next_v_addr.toNat + (KERNEL_STACK_PAGES +
        (frameBufferPages firmware.fb_phys firmware.fb_size).toNat) * PAGE_SIZE := by
  have haligned := h.linked.next_aligned
  obtain ⟨hlo, hhi⟩ := hn
  simp only [PageRange.first, frameBufferRange, freeRange, h.toNat_stackEnd, PAGE_SIZE,
    KERNEL_STACK_PAGES] at *
  omega

theorem Bootable.usable {r : PageRange}
    (hr : r ∈ layout segments virtual_base next_v_addr firmware) : r.Usable 510 := by
  have hroom := h.room
  have hnext := h.linked.next_aligned
  have hupper := h.next_upper
  rcases mem_layout.mp hr with ⟨segment, hsegment, rfl⟩ | rfl | rfl | rfl
  · have hstop := h.linked.stop_le segment hsegment
    have haligned := h.aligned segment hsegment
    apply usable_of_upper (h.upper segment hsegment)
    simp only [PageRange.first, segmentRange, PAGE_SIZE, ElfSegment64.stop] at *
    omega
  · have hlt := h.switcher_lt
    apply usable_of_lower
    simp only [PageRange.first, switcherRange, PAGE_SIZE]
    omega
  · apply usable_of_upper hupper
    simp only [PageRange.first, stackRange, freeRange, PAGE_SIZE, KERNEL_STACK_PAGES,
      BitVec.toNat_ofNat] at *
    omega
  · have hend := h.toNat_stackEnd
    refine usable_of_upper ?_ ?_
    · simp only [frameBufferRange, freeRange, hend]
      omega
    · simp only [PageRange.first, frameBufferRange, freeRange, hend, PAGE_SIZE,
        KERNEL_STACK_PAGES] at *
      omega

/-- The ranges have no page in common. -/
theorem Bootable.layout_disjoint :
    (layout segments virtual_base next_v_addr firmware).Pairwise PageRange.Disjoint := by
  have hupper := h.next_upper
  have hlt := h.switcher_lt
  rw [layout, restLayout, List.pairwise_append]
  refine ⟨List.pairwise_map.mpr ?_, ?_, ?_⟩
  · refine h.disjoint.imp_of_mem fun ha hb hab n hna hnb ↦ ?_
    exact hab n (h.covers_segment ha hna).1 (h.covers_segment hb hnb).1
  · simp only [List.pairwise_cons, List.mem_cons, List.not_mem_nil, or_false, forall_eq_or_imp,
      forall_eq, false_imp_iff, implies_true, List.Pairwise.nil, and_true]
    refine ⟨⟨fun n hn hn' ↦ ?_, fun n hn hn' ↦ ?_⟩, fun n hn hn' ↦ ?_⟩
    · have h₁ := h.covers_switcher hn
      have h₂ := h.covers_stack hn'
      omega
    · have h₁ := h.covers_switcher hn
      have h₂ := h.covers_frameBuffer hn'
      omega
    · have h₁ := h.covers_stack hn
      have h₂ := h.covers_frameBuffer hn'
      omega
  · intro a ha b hb n hna hnb
    obtain ⟨segment, hsegment, rfl⟩ := List.mem_map.mp ha
    obtain ⟨-, hlo, hhi⟩ := h.covers_segment hsegment hna
    simp only [List.mem_cons, List.not_mem_nil, or_false] at hb
    rcases hb with rfl | rfl | rfl
    · have h₂ := h.covers_switcher hnb
      omega
    · have h₂ := h.covers_stack hnb
      omega
    · have h₂ := h.covers_frameBuffer hnb
      omega

/-- No range reaches beyond the framebuffer. -/
theorem Bootable.lt_of_covers {r : PageRange}
    (hr : r ∈ layout segments virtual_base next_v_addr firmware) {n : ℕ} (hn : r.Covers n) :
    n * PAGE_SIZE < next_v_addr.toNat + (KERNEL_STACK_PAGES +
      (frameBufferPages firmware.fb_phys firmware.fb_size).toNat) * PAGE_SIZE := by
  have hupper := h.next_upper
  rcases mem_layout.mp hr with ⟨segment, hsegment, rfl⟩ | rfl | rfl | rfl
  · have := (h.covers_segment hsegment hn).2.2
    omega
  · have := h.covers_switcher hn
    have := h.switcher_lt
    omega
  · have := (h.covers_stack hn).2
    rw [Nat.add_mul]
    omega
  · exact (h.covers_frameBuffer hn).2

/-- The pages of a segment are within the image. -/
theorem Bootable.bounds_of_onPage {segment : ElfSegment64} (hsegment : segment ∈ loads segments)
    {x : ℕ} (hx : segment.OnPage (x / PAGE_SIZE)) :
    segment.virtual_address.toNat ≤ x ∧ x < next_v_addr.toNat := by
  obtain ⟨y, hy, hstop, hpage⟩ := hx
  have haligned := h.aligned segment hsegment
  have hnext := h.linked.next_aligned
  have hle := h.linked.stop_le segment hsegment
  simp only [PAGE_SIZE] at haligned hnext hpage
  omega

theorem Bootable.toNat_kernelFrame {segment : ElfSegment64} (hsegment : segment ∈ loads segments) :
    (firmware.kernel_ptr + (segment.virtual_address - virtual_base)).toNat =
      firmware.kernel_ptr.toNat + (segment.virtual_address.toNat - virtual_base.toNat) := by
  have hbase := h.linked.base_le segment hsegment
  have hstop := h.linked.stop_le segment hsegment
  have hframes := h.kernel_frames
  rw [ElfSegment64.stop] at hstop
  rw [BitVec.toNat_add, BitVec.toNat_sub_of_le (BitVec.le_def.mpr hbase)]
  exact Nat.mod_eq_of_lt (by omega)

/-- The physical addresses of the ranges fit into an entry. -/
theorem Bootable.frames {r : PageRange}
    (hr : r ∈ layout segments virtual_base next_v_addr firmware) :
    ∀ i < r.count, r.p_addr.toNat + i * PAGE_SIZE < 2 ^ 52 := by
  rcases mem_layout.mp hr with ⟨segment, hsegment, rfl⟩ | rfl | rfl | rfl
  · intro i hi
    have hbase := h.linked.base_le segment hsegment
    have hstop := h.linked.stop_le segment hsegment
    have hframes := h.kernel_frames
    have hp := h.toNat_kernelFrame hsegment
    simp only [segmentRange, hp, PAGE_SIZE, ElfSegment64.stop] at *
    omega
  · intro i hi
    have hlt := h.switcher_lt
    simp only [switcherRange, PAGE_SIZE] at *
    omega
  · intro i hi
    have hframes := h.stack_frames
    simp only [stackRange, freeRange, PAddr.addr_new, PAGE_SIZE, KERNEL_STACK_PAGES,
      BitVec.toNat_ofNat] at *
    omega
  · exact frames_frameBufferRange _ h.fb_frames

theorem Bootable.maps_segment_iff {segment : ElfSegment64} (hsegment : segment ∈ loads segments)
    {x p : ℕ} : (segmentRange firmware.kernel_ptr virtual_base segment).Maps x p ↔
      ∃ i, i * PAGE_SIZE < segment.memory_size.toNat ∧
        x = segment.virtual_address.toNat + i * PAGE_SIZE ∧
        p = firmware.kernel_ptr.toNat + (segment.virtual_address.toNat - virtual_base.toNat) +
          i * PAGE_SIZE := by
  have haligned := h.aligned segment hsegment
  have hbase := h.linked.base_aligned
  have hkernel := h.kernel_ptr
  rw [PageRange.Maps]
  simp only [PageRange.first, segmentRange, h.toNat_kernelFrame hsegment, PAGE_SIZE] at *
  refine exists_congr fun i ↦ and_congr ?_ (and_congr ?_ ?_)
  all_goals omega

theorem Bootable.maps_switcher_iff {x p : ℕ} : (switcherRange firmware.switcher_addr).Maps x p ↔
    x = firmware.switcher_addr.toNat ∧ p = firmware.switcher_addr.toNat := by
  have haligned := h.switcher
  rw [PageRange.Maps]
  simp only [PageRange.first, switcherRange, PAGE_SIZE, Nat.lt_one_iff, exists_eq_left] at *
  omega

theorem Bootable.maps_stack_iff {x p : ℕ} :
    (stackRange next_v_addr firmware.stack_ptr).Maps x p ↔ ∃ i < KERNEL_STACK_PAGES,
      x = next_v_addr.toNat + i * PAGE_SIZE ∧
        p = firmware.stack_ptr.toNat + i * PAGE_SIZE := by
  have hnext := h.linked.next_aligned
  have haligned := h.stack_ptr
  rw [PageRange.Maps]
  simp only [PageRange.first, stackRange, freeRange, PAddr.addr_new, PAGE_SIZE, KERNEL_STACK_PAGES,
    BitVec.toNat_ofNat] at *
  refine exists_congr fun i ↦ and_congr ?_ (and_congr ?_ ?_)
  all_goals omega

theorem Bootable.maps_frameBuffer_iff {x p : ℕ} :
    (frameBufferRange (stackEnd next_v_addr) firmware.fb_phys firmware.fb_size).Maps x p ↔
      ∃ i, (firmware.fb_phys.toNat / PAGE_SIZE + i) * PAGE_SIZE <
          firmware.fb_phys.toNat + firmware.fb_size.toNat ∧
        x = next_v_addr.toNat + (KERNEL_STACK_PAGES + i) * PAGE_SIZE ∧
        p = (firmware.fb_phys.toNat / PAGE_SIZE + i) * PAGE_SIZE := by
  have hnext := h.linked.next_aligned
  rw [PageRange.Maps]
  simp only [PageRange.first, frameBufferRange, freeRange, PAddr.addr_new, h.toNat_stackEnd,
    toNat_frameBufferPages h.fb_frames, PAGE_SIZE, KERNEL_STACK_PAGES] at *
  refine exists_congr fun i ↦ and_congr ?_ (and_congr ?_ Iff.rfl)
  all_goals omega

/-- The ranges map the pages that are meant to be mapped. -/
theorem Bootable.intended_iff {x p : ℕ} {f : VFlags} :
    Intended segments virtual_base next_v_addr firmware x p f ↔
      ∃ r ∈ layout segments virtual_base next_v_addr firmware, r.Maps x p ∧ f = r.flags := by
  simp only [mem_layout]
  constructor
  · rintro (⟨hsegment, hi⟩ | _ | hi | hi)
    · exact ⟨_, Or.inl ⟨_, hsegment, rfl⟩,
        (h.maps_segment_iff hsegment).mpr ⟨_, hi, rfl, rfl⟩, rfl⟩
    · exact ⟨_, Or.inr (Or.inl rfl), h.maps_switcher_iff.mpr ⟨rfl, rfl⟩, rfl⟩
    · exact ⟨_, Or.inr (Or.inr (Or.inl rfl)), h.maps_stack_iff.mpr ⟨_, hi, rfl, rfl⟩, rfl⟩
    · exact ⟨_, Or.inr (Or.inr (Or.inr rfl)), h.maps_frameBuffer_iff.mpr ⟨_, hi, rfl, rfl⟩, rfl⟩
  · rintro ⟨r, ⟨segment, hsegment, rfl⟩ | rfl | rfl | rfl, hmaps, rfl⟩
    · obtain ⟨i, hi, rfl, rfl⟩ := (h.maps_segment_iff hsegment).mp hmaps
      exact .segment hsegment hi
    · obtain ⟨rfl, rfl⟩ := h.maps_switcher_iff.mp hmaps
      exact .switcher
    · obtain ⟨i, hi, rfl, rfl⟩ := h.maps_stack_iff.mp hmaps
      exact .stack hi
    · obtain ⟨i, hi, rfl, rfl⟩ := h.maps_frameBuffer_iff.mp hmaps
      exact .frameBuffer hi

end

/-! ## The tables that are handed over -/

/-- The address space the kernel is started in. -/
structure LaidOut (segments : List ElfSegment64) (virtual_base next_v_addr : Word)
    (firmware : Firmware) (out : Handover) (mem : Memory) : Prop where
  /-- Pages that are meant to be mapped are, each to its own page. -/
  mapped : ∀ {u : VAddr} {p f}, u.slot 3 ≠ 510 → u.Canonical →
    Intended segments virtual_base next_v_addr firmware (u.pageNumber * PAGE_SIZE) p f →
    ∃ w, walk mem (.page out.pml4_phys) u = some w ∧ w.1.length = 3 ∧
      (leafBase 3 w.2).addr.toNat = p ∧ Grants w.2 f ∧
      (VirtualMapBuilder.Writable w ↔ f.contains VFlags.WRITABLE = true)
  /-- No others are. -/
  unmapped : ∀ {u : VAddr}, u.slot 3 ≠ 510 → u.Canonical →
    (∀ p f, ¬ Intended segments virtual_base next_v_addr firmware (u.pageNumber * PAGE_SIZE) p f) →
    walk mem (.page out.pml4_phys) u = none
  kernel_stack_base : out.kernel_stack_base.addr.toNat =
    next_v_addr.toNat + KERNEL_STACK_PAGES * PAGE_SIZE
  frame_buffer : out.frame_buffer = out.kernel_stack_base
  disjoint : [Set.Ico virtual_base.toNat next_v_addr.toNat,
    Set.Ico next_v_addr.toNat out.kernel_stack_base.addr.toNat,
    Set.Ico out.frame_buffer.addr.toNat out.v_addr_start.addr.toNat].Pairwise
    fun a b ↦ a ∩ b = ∅
  /-- Nothing is mapped from `v_addr_start` on. -/
  free : ∀ {u : VAddr}, out.v_addr_start.addr.toNat ≤ u.addr.toNat →
    walk mem (.page out.pml4_phys) u = none

/-- The addresses that are handed over, as numbers. -/
theorem Bootable.toNat_v_addr_start {segments : List ElfSegment64}
    {virtual_base next_v_addr : Word} {firmware : Firmware}
    (h : Bootable segments virtual_base next_v_addr firmware) (pml4 : PAddr) (m : RecursiveMapper) :
    (handover next_v_addr firmware pml4 m).v_addr_start.addr.toNat =
      next_v_addr.toNat + (KERNEL_STACK_PAGES +
        (frameBufferPages firmware.fb_phys firmware.fb_size).toNat) * PAGE_SIZE := by
  have hroom := h.room
  rw [handover, BitVec.toNat_add, BitVec.toNat_mul, h.toNat_stackEnd, toNat_pageSizeWord]
  simp only [KERNEL_STACK_PAGES, PAGE_SIZE] at hroom ⊢
  omega

end Elpytios
