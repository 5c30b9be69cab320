import Elpytios.Bootloader.Image
import Elpytios.Paging.Ram
import Elpytios.Paging.Recursive

/-!
# The address space of the kernel

What `setup_uefi_and_exit` does to memory up to `finish`, in its order: the segments, which are
copied and mapped in one loop, the identity map of the switcher, the stack, the framebuffer.
Arithmetic wraps as in a release build.

The pages of the image are those that were allocated for it.  A write outside them is undefined:
what is there belongs to somebody else, such as a page table.

`buildTables` is what the same function does to page tables alone.  Every loop of it maps a range
of pages, so that the whole of it maps a list of ranges (`mapSegments_eq`, `nextFreePage_eq`,
`buildTables_eq`).
-/

namespace Elpytios

open Radix

def KERNEL_STACK_PAGES : Nat := 8

/-- The values of `(0..end).step_by(PAGE_SIZE)`. -/
def stepByPage (stop : Word) : List Word :=
  (List.range ((stop.toNat + (PAGE_SIZE - 1)) / PAGE_SIZE)).map fun i ↦
    BitVec.ofNat 64 (i * PAGE_SIZE)

/-- What the pages of a segment are mapped with. -/
def segmentFlags (segment : ElfSegment64) : VFlags :=
  VFlags.GLOBAL |||
    if segment.flags.contains ElfProgramFlags.WRITABLE then VFlags.WRITABLE else VFlags.empty

/-- The number of bytes that are allocated for the image. -/
def imageSize (virtual_base next_v_addr : Word) : ℕ :=
  ((next_v_addr - virtual_base) / pageSizeWord).toNat * PAGE_SIZE

/-- The address after the image. -/
def imageEnd (kernel_ptr virtual_base next_v_addr : Word) : ℕ :=
  kernel_ptr.toNat + imageSize virtual_base next_v_addr

/-- The copy and the zero-fill of a segment keep to the first `size` bytes from `kernel_ptr` on.
A write of no bytes does so wherever it is. -/
def WritesWithin (virtual_base : Word) (size : ℕ) (segment : ElfSegment64) : Prop :=
  let len : Word := BitVec.ofNat 64 segment.data.length
  let offset := segment.virtual_address - virtual_base
  let count := segment.memory_size - len
  (segment.data = [] ∨ offset.toNat + segment.data.length ≤ size) ∧
    (count = 0 ∨ (offset + len).toNat + len.toNat + count.toNat ≤ size)

instance (virtual_base : Word) (size : ℕ) (segment : ElfSegment64) :
    Decidable (WritesWithin virtual_base size segment) := inferInstanceAs (Decidable (_ ∧ _))

/-- The writes of the segment loop for one segment. -/
def writeSegment (kernel_ptr virtual_base next_v_addr : Word) (segment : ElfSegment64) :
    RamM Unit := fun m ↦
  if WritesWithin virtual_base (imageSize virtual_base next_v_addr) segment then
    .ok () { m with mem := copySegment kernel_ptr virtual_base segment m.mem }
  else .error .undefined m

section Setup

variable (virtual_map : VirtualMapBuilder)

/-- `virtual_map.map(..).unwrap_or_else(|e| panic!("{e}"))`. -/
def mapOrPanic (p_addr : PAddr) (v_addr : VAddr) (flags : VFlags) : MapM Unit :=
  unwrapOrPanic (virtual_map.mapPage p_addr v_addr flags)

/-- The inner loop of the segment loop. -/
def mapSegment (kernel_ptr virtual_base : Word) (segment : ElfSegment64) : MapM Unit :=
  forM (stepByPage segment.memory_size) fun i ↦
    mapOrPanic virtual_map
      (PAddr.new (kernel_ptr + (segment.virtual_address - virtual_base) + i))
      (VAddr.new (segment.virtual_address + i)) (segmentFlags segment)

/-- The segment loop. -/
def loadSegments (kernel_ptr virtual_base next_v_addr : Word) (segments : List ElfSegment64) :
    RamM Unit :=
  forM segments fun segment ↦
    if segment.segment_type ≠ .Load then pure ()
    else do
      writeSegment kernel_ptr virtual_base next_v_addr segment
      onTables (mapSegment virtual_map kernel_ptr virtual_base segment)

/-- Identity-map the kernel switcher. -/
def mapSwitcher (switcher_addr : Word) : MapM Unit :=
  if switcher_addr % pageSizeWord ≠ 0 then throw .panic
  else mapOrPanic virtual_map (PAddr.new switcher_addr) (VAddr.new switcher_addr) VFlags.empty

/-- The closure `next_free_page`, with the new value of `next_v_addr`. -/
def nextFreePage (next_v_addr : Word) (p_addr : PAddr) (page_count : Word) (flags : VFlags) :
    MapM (VAddr × Word) := do
  let v_addr := next_v_addr
  let next_v_addr := next_v_addr + page_count * pageSizeWord
  forM (List.range page_count.toNat) fun i ↦
    let offset := BitVec.ofNat 64 i * pageSizeWord
    mapOrPanic virtual_map (PAddr.new (p_addr.addr + offset)) (VAddr.new (v_addr + offset))
      (VFlags.GLOBAL ||| flags)
  return (VAddr.new v_addr, next_v_addr)

/-- `fb_page_count`. -/
def frameBufferPages (fb_phys fb_size : Word) : Word :=
  let fb_phys_base := fb_phys &&& ~~~(pageSizeWord - 1)
  let fb_phys_end := next_multiple_of (fb_phys + fb_size) pageSizeWord
  (fb_phys_end - fb_phys_base) / pageSizeWord

def frameBufferFlags : VFlags := VFlags.WRITABLE ||| VFlags.WRITE_THROUGH ||| VFlags.CACHE_DISABLED

/-- Map the framebuffer. -/
def mapFrameBuffer (next_v_addr fb_phys fb_size : Word) : MapM (VAddr × Word) :=
  nextFreePage virtual_map next_v_addr (PAddr.new fb_phys) (frameBufferPages fb_phys fb_size)
    frameBufferFlags

end Setup

/-- Addresses the bootloader is given at run time. -/
structure Firmware where
  kernel_ptr : Word
  switcher_addr : Word
  stack_ptr : Word
  fb_phys : Word
  fb_size : Word
deriving DecidableEq, Repr

/-- What the bootloader passes on that has to do with the page tables, from `UefiInfo`,
`GraphicsInfo` and `BootInfo`. -/
structure Handover where
  pml4_phys : PAddr
  kernel_stack_base : VAddr
  frame_buffer : VAddr
  frame_buffer_size : Word
  virtual_map : RecursiveMapper
  switcher_map : VAddr
  v_addr_start : VAddr
  v_addr_end : VAddr
deriving DecidableEq, Repr

/-- `setup_uefi_and_exit` after the segment loop, up to `finish`. -/
def mapAndFinish (virtual_map : VirtualMapBuilder) (next_v_addr : Word) (firmware : Firmware) :
    MapM Handover := do
  mapSwitcher virtual_map firmware.switcher_addr
  let (stack, next_v_addr) ← nextFreePage virtual_map next_v_addr (PAddr.new firmware.stack_ptr)
    (BitVec.ofNat 64 KERNEL_STACK_PAGES) VFlags.WRITABLE
  let kernel_stack_base := VAddr.new (stack.addr + BitVec.ofNat 64 (KERNEL_STACK_PAGES * PAGE_SIZE))
  let (frame_buffer, next_v_addr) ← mapFrameBuffer virtual_map next_v_addr firmware.fb_phys
    firmware.fb_size
  let (pml4_phys, virtual_map) ← unwrapOrPanic virtual_map.finish
  return {
    pml4_phys, kernel_stack_base, frame_buffer, virtual_map
    frame_buffer_size := firmware.fb_size
    switcher_map := VAddr.new firmware.switcher_addr
    v_addr_start := VAddr.new next_v_addr
    v_addr_end := VAddr.new (BitVec.allOnes 64) }

/-- `setup_uefi_and_exit` up to `finish`, given `KERNEL_SEGMENTS` and
`KERNEL_VIRTUAL_ADDRESSES`. -/
def setupUefiAndExit (new_page_table : NewPageTable) (segments : List ElfSegment64)
    (virtual_base next_v_addr : Word) (firmware : Firmware) : RamM Handover := do
  let virtual_map := VirtualMapBuilder.new 510 new_page_table
  loadSegments virtual_map firmware.kernel_ptr virtual_base next_v_addr segments
  onTables (mapAndFinish virtual_map next_v_addr firmware)

/-! ## Page tables alone -/

/-- What the segment loop does to page tables. -/
def mapSegments (virtual_map : VirtualMapBuilder) (kernel_ptr virtual_base : Word)
    (segments : List ElfSegment64) : MapM Unit :=
  forM segments fun segment ↦
    if segment.segment_type ≠ .Load then pure ()
    else mapSegment virtual_map kernel_ptr virtual_base segment

/-- What `setup_uefi_and_exit` does to page tables. -/
def buildTables (new_page_table : NewPageTable) (segments : List ElfSegment64)
    (virtual_base next_v_addr : Word) (firmware : Firmware) : MapM Handover := do
  let virtual_map := VirtualMapBuilder.new 510 new_page_table
  mapSegments virtual_map firmware.kernel_ptr virtual_base segments
  mapAndFinish virtual_map next_v_addr firmware

/-! ## The ranges that are mapped -/

def segmentRange (kernel_ptr virtual_base : Word) (segment : ElfSegment64) : PageRange where
  p_addr := kernel_ptr + (segment.virtual_address - virtual_base)
  v_addr := segment.virtual_address
  count := (segment.memory_size.toNat + (PAGE_SIZE - 1)) / PAGE_SIZE
  flags := segmentFlags segment

def switcherRange (switcher_addr : Word) : PageRange where
  p_addr := switcher_addr
  v_addr := switcher_addr
  count := 1
  flags := VFlags.empty

def freeRange (next_v_addr : Word) (p_addr : PAddr) (page_count : Word) (flags : VFlags) :
    PageRange where
  p_addr := p_addr.addr
  v_addr := next_v_addr
  count := page_count.toNat
  flags := VFlags.GLOBAL ||| flags

section

variable (virtual_map : VirtualMapBuilder)

/-- The inner loop maps the range of a segment. -/
theorem mapSegment_eq (kernel_ptr virtual_base : Word) (segment : ElfSegment64) :
    mapSegment virtual_map kernel_ptr virtual_base segment =
      mapPages virtual_map.map virtual_map.new_page_table
        (segmentRange kernel_ptr virtual_base segment).calls := by
  rw [mapSegment, PageRange.calls, mapPages, stepByPage, List.forM_map, List.forM_map]
  rfl

/-- The segment loop maps the ranges of the segments that are loaded. -/
theorem mapSegments_eq (kernel_ptr virtual_base : Word) (segments : List ElfSegment64) :
    mapSegments virtual_map kernel_ptr virtual_base segments =
      mapPages virtual_map.map virtual_map.new_page_table
        (((loads segments).map (segmentRange kernel_ptr virtual_base)).flatMap
          PageRange.calls) := by
  induction segments with
  | nil => rfl
  | cons segment segments ih =>
      rw [mapSegments, List.forM_cons, ← mapSegments, ih]
      by_cases hload : segment.segment_type = .Load
      · rw [if_neg (not_not.mpr hload), loads_cons, if_pos hload, List.map_cons,
          List.flatMap_cons, mapPages_append, mapSegment_eq]
      · rw [if_pos hload, loads_cons, if_neg hload, pure_bind]

theorem mapSwitcher_eq {switcher_addr : Word} (h : switcher_addr.toNat % PAGE_SIZE = 0) :
    mapSwitcher virtual_map switcher_addr =
      mapPages virtual_map.map virtual_map.new_page_table (switcherRange switcher_addr).calls := by
  have haligned : switcher_addr % pageSizeWord = 0 := BitVec.eq_of_toNat_eq (by
    rw [BitVec.toNat_umod, toNat_pageSizeWord, h]; rfl)
  have hcall : (switcherRange switcher_addr).call 0 =
      ⟨PAddr.new switcher_addr, VAddr.new switcher_addr, VFlags.empty⟩ := by
    rw [PageRange.call, switcherRange, Nat.zero_mul]
    simp only [BitVec.add_zero]
    rfl
  rw [mapSwitcher, if_neg (not_not.mpr haligned), PageRange.calls]
  change _ = mapPages _ _ [(switcherRange switcher_addr).call 0]
  rw [hcall]
  exact bind_pure_unit.symm

theorem nextFreePage_eq (next_v_addr : Word) (p_addr : PAddr) (page_count : Word)
    (flags : VFlags) : nextFreePage virtual_map next_v_addr p_addr page_count flags =
      mapPages virtual_map.map virtual_map.new_page_table
          (freeRange next_v_addr p_addr page_count flags).calls >>= fun _ ↦
        pure (VAddr.new next_v_addr, next_v_addr + page_count * pageSizeWord) := by
  have hoffset : ∀ i, BitVec.ofNat 64 i * pageSizeWord = BitVec.ofNat 64 (i * PAGE_SIZE) :=
    fun i ↦ BitVec.ofNat_mul_ofNat i PAGE_SIZE
  rw [nextFreePage, mapPages, PageRange.calls, List.forM_map]
  simp only [hoffset]
  rfl

end

/-- The first address after the stack. -/
def stackEnd (next_v_addr : Word) : Word :=
  next_v_addr + BitVec.ofNat 64 KERNEL_STACK_PAGES * pageSizeWord

def stackRange (next_v_addr stack_ptr : Word) : PageRange :=
  freeRange next_v_addr (PAddr.new stack_ptr) (BitVec.ofNat 64 KERNEL_STACK_PAGES) VFlags.WRITABLE

def frameBufferRange (next_v_addr fb_phys fb_size : Word) : PageRange :=
  freeRange next_v_addr (PAddr.new fb_phys) (frameBufferPages fb_phys fb_size) frameBufferFlags

/-- The ranges that are mapped after the segments. -/
def restLayout (next_v_addr : Word) (firmware : Firmware) : List PageRange :=
  [switcherRange firmware.switcher_addr, stackRange next_v_addr firmware.stack_ptr,
    frameBufferRange (stackEnd next_v_addr) firmware.fb_phys firmware.fb_size]

/-- All ranges that are mapped, in order. -/
def layout (segments : List ElfSegment64) (virtual_base next_v_addr : Word) (firmware : Firmware) :
    List PageRange :=
  (loads segments).map (segmentRange firmware.kernel_ptr virtual_base) ++
    restLayout next_v_addr firmware

theorem mem_layout {segments : List ElfSegment64} {virtual_base next_v_addr : Word}
    {firmware : Firmware} {r : PageRange} : r ∈ layout segments virtual_base next_v_addr firmware ↔
      (∃ segment ∈ loads segments, segmentRange firmware.kernel_ptr virtual_base segment = r) ∨
        r = switcherRange firmware.switcher_addr ∨ r = stackRange next_v_addr firmware.stack_ptr ∨
        r = frameBufferRange (stackEnd next_v_addr) firmware.fb_phys firmware.fb_size := by
  simp only [layout, restLayout, List.mem_append, List.mem_map, List.mem_cons, List.not_mem_nil,
    or_false]

/-- What is handed over once the tables are finished. -/
def handover (next_v_addr : Word) (firmware : Firmware) (pml4_phys : PAddr)
    (virtual_map : RecursiveMapper) : Handover where
  pml4_phys
  kernel_stack_base := ⟨stackEnd next_v_addr⟩
  frame_buffer := ⟨stackEnd next_v_addr⟩
  frame_buffer_size := firmware.fb_size
  virtual_map
  switcher_map := ⟨firmware.switcher_addr⟩
  v_addr_start :=
    ⟨stackEnd next_v_addr + frameBufferPages firmware.fb_phys firmware.fb_size * pageSizeWord⟩
  v_addr_end := ⟨BitVec.allOnes 64⟩

/-- After the segments three ranges are mapped, and the tables are finished. -/
theorem mapAndFinish_eq (alloc : NewPageTable) (next_v_addr : Word) {firmware : Firmware}
    (h : firmware.switcher_addr.toNat % PAGE_SIZE = 0) :
    mapAndFinish (VirtualMapBuilder.new 510 alloc) next_v_addr firmware =
      mapPages (VirtualMapBuilder.new 510 alloc).map alloc
          ((restLayout next_v_addr firmware).flatMap PageRange.calls) >>= fun _ ↦
        unwrapOrPanic (VirtualMapBuilder.new 510 alloc).finish >>= fun out ↦
          pure (handover next_v_addr firmware out.1 out.2) := by
  have hcalls : (restLayout next_v_addr firmware).flatMap PageRange.calls =
      (switcherRange firmware.switcher_addr).calls ++
        ((stackRange next_v_addr firmware.stack_ptr).calls ++
          (frameBufferRange (stackEnd next_v_addr) firmware.fb_phys firmware.fb_size).calls) := by
    simp [restLayout]
  rw [hcalls, mapPages_append, mapPages_append, mapAndFinish]
  simp only [mapSwitcher_eq _ h, mapFrameBuffer, nextFreePage_eq, bind_assoc, pure_bind]
  rfl

/-- The ranges of the layout are mapped, and the tables are finished. -/
theorem buildTables_eq (alloc : NewPageTable) (segments : List ElfSegment64)
    (virtual_base next_v_addr : Word) {firmware : Firmware}
    (h : firmware.switcher_addr.toNat % PAGE_SIZE = 0) :
    buildTables alloc segments virtual_base next_v_addr firmware =
      mapPages (VirtualMapBuilder.new 510 alloc).map alloc
          ((layout segments virtual_base next_v_addr firmware).flatMap PageRange.calls) >>= fun _ ↦
        unwrapOrPanic (VirtualMapBuilder.new 510 alloc).finish >>= fun out ↦
          pure (handover next_v_addr firmware out.1 out.2) := by
  rw [layout, List.flatMap_append, mapPages_append, buildTables]
  simp only [mapSegments_eq, mapAndFinish_eq _ _ h, bind_assoc]
  rfl

end Elpytios
