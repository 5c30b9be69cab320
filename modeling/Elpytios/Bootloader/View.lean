import Elpytios.Bootloader.Booted
import Elpytios.Bootloader.Build

/-!
# What the kernel finds in memory

The bytes of the file of the kernel go through the parser, the constants of the build, the copies
of the segment loop and the page tables before the kernel reads them, and copies and page tables
are made in one memory.  At the end of it the kernel reads at each address of its segments the byte
that the file has for it, or zero where the file has none, and at the address of the boot
information what the bootloader wrote there (`kernel_view`).

The zero-fill of the segment loop is misplaced for a segment with both data and zeros
(`loaded_iff`), so this is about kernels without such a segment.
-/

namespace Elpytios

open ByteOrder

/-- What is read at a virtual address, through the page tables at `cr3`. -/
def readVirtual (mem : Bytes) (cr3 : PAddr) (v : VAddr) : Option Byte :=
  (translate mem.tables (.page cr3) v).map fun p ↦ mem p.addr.toNat

/-- An address is read as the same if it leads to the same place, and the byte there is the same. -/
theorem readVirtual_congr {mem mem' : Bytes} {cr3 : PAddr} {v : VAddr} {x : PAddr}
    (hx : translate mem.tables (.page cr3) v = some x)
    (hx' : translate mem'.tables (.page cr3) v = some x)
    (hmem : mem' x.addr.toNat = mem x.addr.toNat) :
    readVirtual mem' cr3 v = readVirtual mem cr3 v := by
  rw [readVirtual, readVirtual, hx, hx', Option.map_some, Option.map_some, hmem]

/-- `boot_info_ptr.write(..)` and the writes through `boot_info_ptr` after it, as the bytes that
are there in the end.  They are undefined outside the image. -/
def writeBootInfo (kernel_ptr virtual_base next_v_addr bootinfo_address : Word)
    (boot_info : List Byte) : RamM Unit := fun m ↦
  let offset := (bootinfo_address - virtual_base).toNat
  if offset + boot_info.length ≤ imageSize virtual_base next_v_addr then
    .ok () { m with mem := m.mem.copyFromNonoverlapping (kernel_ptr.toNat + offset) boot_info }
  else .error .undefined m

/-- `setup_uefi_and_exit` for the kernel of a build. -/
def bootKernel (new_page_table : NewPageTable) (k : Build) (firmware : Firmware)
    (boot_info : List Byte) : RamM Handover := do
  let out ← setupUefiAndExit new_page_table k.kernel_segments k.virtual_base k.next_v_addr firmware
  writeBootInfo firmware.kernel_ptr k.virtual_base k.next_v_addr k.bootinfo_address boot_info
  return out

/-- The memory that the kernel is started with, but for its page tables. -/
def kernelMemory (k : Build) (kernel_ptr : Word) (boot_info : List Byte) (mem : Bytes) : Bytes :=
  (copySegments kernel_ptr k.virtual_base k.kernel_segments mem).copyFromNonoverlapping
    (kernel_ptr.toNat + (k.bootinfo_address - k.virtual_base).toNat) boot_info

/-- A byte that the bootloader does not write: neither in the image nor on a page that is handed
out for a page table. -/
def Spared (alloc : NewPageTable) (k : Build) (firmware : Firmware) (p : ℕ) : Prop :=
  ¬ Within (HandedOut alloc) p ∧ ¬ (firmware.kernel_ptr.toNat ≤ p ∧
    p < imageEnd firmware.kernel_ptr k.virtual_base k.next_v_addr)

/-! ## Where addresses lead -/

theorem toNat_leafBase_lt (x : Word) : (leafBase 3 x).addr.toNat < 2 ^ 52 := by
  change (x &&& (((1 : Word) <<< 40) - 1) <<< 12).toNat < 2 ^ 52
  rw [BitVec.toNat_and]
  exact lt_of_le_of_lt Nat.and_le_right (by decide)

section

variable {segments : List ElfSegment64} {virtual_base next_v_addr : Word} {firmware : Firmware}
  {out : Handover} {tables : Memory}

/-- An address of a page that is meant to be mapped leads to its place in the page. -/
theorem LaidOut.translate_eq (h : LaidOut segments virtual_base next_v_addr firmware out tables)
    {u : VAddr} (hslot : u.slot 3 ≠ 510) (hu : u.Canonical) {p : ℕ} {f : VFlags}
    (hp : Intended segments virtual_base next_v_addr firmware (u.pageNumber * PAGE_SIZE) p f) :
    ∃ x, translate tables (.page out.pml4_phys) u = some x ∧
      x.addr.toNat = p + u.addr.toNat % PAGE_SIZE := by
  obtain ⟨w, hw, hlen, hbase, -, -⟩ := h.mapped hslot hu hp
  have hlt := toNat_leafBase_lt w.2
  have hoff : u.addr.toNat % PAGE_SIZE < PAGE_SIZE := Nat.mod_lt _ (by decide)
  have hword : (BitVec.ofNat 64 (u.addr.toNat % PAGE_SIZE) : Word).toNat =
      u.addr.toNat % PAGE_SIZE := by
    rw [BitVec.toNat_ofNat]
    exact Nat.mod_eq_of_lt (by simp only [PAGE_SIZE] at hoff ⊢; omega)
  refine ⟨_, by rw [translate, hw, Option.map_some, hlen], ?_⟩
  change ((leafBase 3 w.2).addr + BitVec.ofNat 64 (u.addr.toNat % PAGE_SIZE)).toNat = _
  rw [BitVec.toNat_add, hword, hbase]
  rw [hbase] at hlt
  simp only [PAGE_SIZE] at hoff ⊢
  omega

variable (hboot : Bootable segments virtual_base next_v_addr firmware)
  (h : LaidOut segments virtual_base next_v_addr firmware out tables)

include hboot h

/-- An address on a page of a segment leads to its place in the image. -/
theorem LaidOut.translate_segment {segment : ElfSegment64} (hsegment : segment ∈ loads segments)
    {a : VAddr} (ha : segment.OnPage (a.addr.toNat / PAGE_SIZE)) :
    ∃ x, translate tables (.page out.pml4_phys) a = some x ∧
      x.addr.toNat = firmware.kernel_ptr.toNat + (a.addr.toNat - virtual_base.toNat) := by
  have hle := (hboot.bounds_of_onPage hsegment ha).1
  obtain ⟨y, hy, hstop, hpage⟩ := ha
  have hupper := hboot.upper segment hsegment
  have haligned := hboot.aligned segment hsegment
  have hbase := hboot.linked.base_le segment hsegment
  simp only [PAGE_SIZE] at haligned hpage
  have hslot : a.slot 3 ≠ 510 := slot_ne_of_upper (hupper.trans hle)
  -- page number `i` of the segment
  have hi : (a.addr.toNat - segment.virtual_address.toNat) / PAGE_SIZE * PAGE_SIZE <
      segment.memory_size.toNat := by
    simp only [ElfSegment64.stop] at hstop
    simp only [PAGE_SIZE]
    omega
  have hintended : Intended segments virtual_base next_v_addr firmware _ _ _ :=
    Intended.segment hsegment hi
  rw [show segment.virtual_address.toNat +
      (a.addr.toNat - segment.virtual_address.toNat) / PAGE_SIZE * PAGE_SIZE =
        a.pageNumber * PAGE_SIZE by simp only [VAddr.pageNumber, PAGE_SIZE]; omega] at hintended
  obtain ⟨x, hx, hval⟩ := h.translate_eq hslot (Or.inr (by omega)) hintended
  refine ⟨x, hx, hval.trans ?_⟩
  simp only [PAGE_SIZE]
  omega

end

/-! ## The file behind the page tables -/

/-- A kernel that the segment loop loads as it is meant to, with the boot information on a page of
one of its segments. -/
structure Loadable (k : Build) (boot_info : List Byte) : Prop where
  length_le : ∀ segment ∈ k.kernel_segments, segment.data.length ≤ segment.memory_size.toNat
  zero_fill : ∀ segment ∈ k.kernel_segments, segment.ZeroFillInPlace
  boot_info_le : boot_info.length ≤ PAGE_SIZE
  boot_info_page : ∃ segment ∈ k.kernel_segments,
    segment.OnPage (k.bootinfo_address.toNat / PAGE_SIZE)

/-- The kernel reads the bytes of its file, zeros where there are none, and the boot
information. -/
structure KernelView (file : List Byte) (k : Build) (boot_info : List Byte) (cr3 : PAddr)
    (mem : Bytes) : Prop where
  segment : ∀ i < (programTable file).count, ∀ a : VAddr,
    (programHeader file i).segment_virtual_address.toNat ≤ a.addr.toNat →
    a.addr.toNat < (programHeader file i).segment_virtual_address.toNat +
      (programHeader file i).segment_memory_size.toNat →
    ¬ (k.bootinfo_address.toNat ≤ a.addr.toNat ∧
      a.addr.toNat < k.bootinfo_address.toNat + boot_info.length) →
    readVirtual mem cr3 a = some
      (if a.addr.toNat - (programHeader file i).segment_virtual_address.toNat <
          (programHeader file i).segment_file_size.toNat then
        file.getD ((programHeader file i).segment_offset.toNat +
          (a.addr.toNat - (programHeader file i).segment_virtual_address.toNat)) 0
      else 0)
  boot_info : ∀ (j : ℕ) (hj : j < boot_info.length),
    readVirtual mem cr3 ⟨k.bootinfo_address + BitVec.ofNat 64 j⟩ = some boot_info[j]

theorem slice_getElem? (file : List Byte) (offset : ℕ) {n j : ℕ} (hj : j < n)
    (h : offset + n ≤ file.length) :
    (slice file offset n)[j]? = some (file.getD (offset + j) 0) := by
  rw [slice, List.getElem?_take_of_lt hj, List.getElem?_drop, List.getD_eq_getElem?_getD,
    List.getElem?_eq_getElem (by omega), Option.getD_some]

theorem disjoint_of_onPage {a b : ElfSegment64} (h : ∀ n, a.OnPage n → ¬ b.OnPage n) :
    a.Disjoint b :=
  fun x hx hx' hy hy' ↦ h (x / PAGE_SIZE) ⟨x, hx, hx', rfl⟩ ⟨x, hy, hy', rfl⟩

section

variable {file : List Byte} {k : Build} {firmware : Firmware} {boot_info : List Byte}
  (hbuilt : Built file k)
  (hboot : Bootable k.kernel_segments k.virtual_base k.next_v_addr firmware)
  (hloadable : Loadable k boot_info)

include hbuilt hboot hloadable

/-- The boot information is not below the image. -/
theorem Loadable.base_le : k.virtual_base.toNat ≤ k.bootinfo_address.toNat := by
  obtain ⟨segment, hsegment, y, hy, -, hpage⟩ := hloadable.boot_info_page
  rw [← hbuilt.loads_eq] at hsegment
  have hbase := hboot.linked.base_le segment hsegment
  have haligned := hboot.aligned segment hsegment
  simp only [PAGE_SIZE] at haligned hpage
  omega

/-- Where the boot information begins in memory. -/
theorem Loadable.toNat_offset : (k.bootinfo_address - k.virtual_base).toNat =
    k.bootinfo_address.toNat - k.virtual_base.toNat :=
  BitVec.toNat_sub_of_le (BitVec.le_def.mpr (hloadable.base_le hbuilt hboot))

/-- The boot information is in the image. -/
theorem Loadable.boot_info_in_image : (k.bootinfo_address - k.virtual_base).toNat +
    boot_info.length ≤ imageSize k.virtual_base k.next_v_addr := by
  obtain ⟨segment, hsegment, hpage⟩ := hloadable.boot_info_page
  rw [← hbuilt.loads_eq] at hsegment
  have hlt := (hboot.bounds_of_onPage hsegment hpage).2
  have hle := hloadable.base_le hbuilt hboot
  have hlen := hloadable.boot_info_le
  have haligned := hbuilt.bootinfo_aligned
  have hnext := hboot.linked.next_aligned
  rw [hloadable.toNat_offset hbuilt hboot, hboot.linked.imageSize_eq (by omega)]
  simp only [PAGE_SIZE] at *
  omega

omit hboot in
/-- No zero-fill leaves the image. -/
theorem Loadable.fillInImage :
    ∀ segment ∈ loads k.kernel_segments, segment.FillInImage k.virtual_base k.next_v_addr := by
  intro segment hsegment
  have hbase := hbuilt.linked.base_le segment hsegment
  have hstop := hbuilt.linked.stop_le segment hsegment
  rw [hbuilt.loads_eq] at hsegment
  refine ⟨hloadable.length_le segment hsegment, ?_⟩
  rcases hloadable.zero_fill segment hsegment with hnil | hall
  · rw [ElfSegment64.stop] at hstop
    rw [hnil, List.length_nil]
    omega
  · exact Or.inl hall

/-- The image is loaded. -/
theorem Loadable.loaded (mem : Bytes) : Loaded firmware.kernel_ptr k.virtual_base k.kernel_segments
    mem (copySegments firmware.kernel_ptr k.virtual_base k.kernel_segments mem) := by
  have hmem {segment : ElfSegment64} (h : segment ∈ loads k.kernel_segments) :
      segment ∈ k.kernel_segments := hbuilt.loads_eq ▸ h
  have hfits : ∀ segment ∈ loads k.kernel_segments, Fits k.virtual_base k.next_v_addr segment :=
    fun segment hsegment ↦ ⟨hboot.linked.base_le segment hsegment,
      hboot.linked.stop_le segment hsegment, hloadable.length_le segment (hmem hsegment)⟩
  exact loaded_of_zeroFillInPlace hfits (hboot.disjoint.imp disjoint_of_onPage)
    (fun segment h ↦ hloadable.zero_fill segment (hmem h)) mem

/-- The bytes of a segment are in memory, where the boot information does not cover them. -/
theorem kernelMemory_segment {i : ℕ} (hi : i < (programTable file).count) (mem : Bytes) {j : ℕ}
    (hj : j < (programHeader file i).segment_memory_size.toNat)
    (hout : ¬ (k.bootinfo_address.toNat ≤
        (programHeader file i).segment_virtual_address.toNat + j ∧
      (programHeader file i).segment_virtual_address.toNat + j <
        k.bootinfo_address.toNat + boot_info.length)) :
    kernelMemory k firmware.kernel_ptr boot_info mem (firmware.kernel_ptr.toNat +
      ((programHeader file i).segment_virtual_address.toNat + j - k.virtual_base.toNat)) =
      if j < (programHeader file i).segment_file_size.toNat then
        file.getD ((programHeader file i).segment_offset.toNat + j) 0
      else 0 := by
  obtain ⟨-, hcontents, -⟩ := hbuilt.buildable i hi
  have hmem : (segmentOf file (programHeader file i)) ∈ loads k.kernel_segments := by
    rw [hbuilt.loads_eq]
    exact List.mem_of_getElem? (hbuilt.getElem? i hi)
  have hbase : k.virtual_base.toNat ≤ (programHeader file i).segment_virtual_address.toNat :=
    hboot.linked.base_le _ hmem
  have hle := hloadable.base_le hbuilt hboot
  have hloaded := hloadable.loaded hbuilt hboot mem
  have hplace : firmware.kernel_ptr.toNat +
      ((programHeader file i).segment_virtual_address.toNat + j - k.virtual_base.toNat) =
        byteAt firmware.kernel_ptr k.virtual_base
          (segmentOf file (programHeader file i)) j := by
    change _ = firmware.kernel_ptr.toNat +
      ((programHeader file i).segment_virtual_address.toNat - k.virtual_base.toNat) + j
    omega
  rw [kernelMemory, Bytes.copyFromNonoverlapping_of_notMem _ (by
    rw [hloadable.toNat_offset hbuilt hboot]; omega), hplace]
  have hlen : (segmentOf file (programHeader file i)).data.length =
      (programHeader file i).segment_file_size.toNat := by
    change (slice file _ _).length = _
    rw [slice, List.length_take, List.length_drop]
    omega
  split_ifs with hdata
  · have hbyte := slice_getElem? file _ hdata hcontents
    rw [hloaded.data _ hmem j (by rw [hlen]; exact hdata)]
    exact (List.getElem_eq_iff _).mpr hbyte
  · exact hloaded.zero _ hmem j (by rw [hlen]; omega) hj

/-- The boot information is in memory. -/
theorem kernelMemory_boot_info (mem : Bytes) {j : ℕ} (hj : j < boot_info.length) :
    kernelMemory k firmware.kernel_ptr boot_info mem
      (firmware.kernel_ptr.toNat + (k.bootinfo_address.toNat + j - k.virtual_base.toNat)) =
        boot_info[j] := by
  have hle := hloadable.base_le hbuilt hboot
  have hplace : firmware.kernel_ptr.toNat + (k.bootinfo_address.toNat + j - k.virtual_base.toNat) =
      firmware.kernel_ptr.toNat + (k.bootinfo_address - k.virtual_base).toNat + j := by
    rw [hloadable.toNat_offset hbuilt hboot]
    omega
  rw [hplace]
  exact Bytes.copyFromNonoverlapping_add _ _ hj

/-- What is not in the image is what it was. -/
theorem kernelMemory_of_not_image (mem : Bytes) {p : ℕ}
    (hp : ¬ (firmware.kernel_ptr.toNat ≤ p ∧
      p < imageEnd firmware.kernel_ptr k.virtual_base k.next_v_addr)) :
    kernelMemory k firmware.kernel_ptr boot_info mem p = mem p := by
  have hinfo := hloadable.boot_info_in_image hbuilt hboot
  rw [imageEnd] at hp
  rw [kernelMemory, Bytes.copyFromNonoverlapping_of_notMem _ (by omega)]
  apply copySegments_of_not_image _ hp
  exact fun segment hsegment ↦ (writesWithin_iff hboot.linked hsegment).mpr
    (hloadable.fillInImage hbuilt segment hsegment)

omit hboot hloadable in
theorem Built.mem_loads {i : ℕ} (hi : i < (programTable file).count) :
    (segmentOf file (programHeader file i)) ∈ loads k.kernel_segments := by
  rw [hbuilt.loads_eq]
  exact List.mem_of_getElem? (hbuilt.getElem? i hi)

omit hboot in
/-- The boot information is on a page of a segment. -/
theorem Loadable.onPage {j : ℕ} (hj : j < boot_info.length) :
    (k.bootinfo_address + BitVec.ofNat 64 j).toNat = k.bootinfo_address.toNat + j ∧
      ∃ segment ∈ loads k.kernel_segments,
        segment.OnPage ((k.bootinfo_address + BitVec.ofNat 64 j).toNat / PAGE_SIZE) := by
  obtain ⟨segment, hsegment, hpage⟩ := hloadable.boot_info_page
  rw [← hbuilt.loads_eq] at hsegment
  have haligned := hbuilt.bootinfo_aligned
  have hlen := hloadable.boot_info_le
  have hlt := k.bootinfo_address.isLt
  have haddr : (k.bootinfo_address + BitVec.ofNat 64 j).toNat = k.bootinfo_address.toNat + j := by
    rw [BitVec.toNat_add, BitVec.toNat_ofNat]
    simp only [PAGE_SIZE] at haligned hlen
    omega
  have hsame : (k.bootinfo_address.toNat + j) / PAGE_SIZE =
      k.bootinfo_address.toNat / PAGE_SIZE := by
    simp only [PAGE_SIZE] at haligned hlen ⊢
    omega
  refine ⟨haddr, segment, hsegment, ?_⟩
  rw [haddr, hsame]
  exact hpage

/-- What the kernel sees where the tables in memory were laid out for it, and the image is what was
written there. -/
theorem LaidOut.kernelView {out : Handover} {mem mem' : Bytes}
    (h : LaidOut k.kernel_segments k.virtual_base k.next_v_addr firmware out mem'.tables)
    (himage : ∀ p, firmware.kernel_ptr.toNat ≤ p →
      p < imageEnd firmware.kernel_ptr k.virtual_base k.next_v_addr →
      mem' p = kernelMemory k firmware.kernel_ptr boot_info mem p) :
    KernelView file k boot_info out.pml4_phys mem' := by
  have hread {segment : ElfSegment64} (hsegment : segment ∈ loads k.kernel_segments) {a : VAddr}
      (ha : segment.OnPage (a.addr.toNat / PAGE_SIZE)) : readVirtual mem' out.pml4_phys a =
        some (kernelMemory k firmware.kernel_ptr boot_info mem
          (firmware.kernel_ptr.toNat + (a.addr.toNat - k.virtual_base.toNat))) := by
    obtain ⟨x, hx, hval⟩ := h.translate_segment hboot hsegment ha
    rw [readVirtual, hx, Option.map_some, hval,
      himage _ (Nat.le_add_right _ _) (hboot.place_lt hsegment ha)]
  constructor
  · intro i hi a hlo hhi hout
    obtain ⟨j, hj⟩ := Nat.exists_eq_add_of_le hlo
    rw [hread (hbuilt.mem_loads hi) ⟨a.addr.toNat, hlo, hhi, rfl⟩]
    rw [hj] at hhi hout ⊢
    rw [kernelMemory_segment hbuilt hboot hloadable hi mem (by omega) hout, Nat.add_sub_cancel_left]
  · intro j hj
    obtain ⟨haddr, segment, hsegment, hpage⟩ := hloadable.onPage hbuilt hj
    rw [hread hsegment (a := ⟨k.bootinfo_address + BitVec.ofNat 64 j⟩) hpage, haddr,
      kernelMemory_boot_info hbuilt hboot hloadable mem hj]

omit hboot in
/-- The kernel sees the same wherever the pages of its segments are read as the same. -/
theorem KernelView.congr {cr3 : PAddr} {mem mem' : Bytes}
    (hview : KernelView file k boot_info cr3 mem)
    (h : ∀ segment ∈ loads k.kernel_segments, ∀ a : VAddr,
      segment.OnPage (a.addr.toNat / PAGE_SIZE) → ∀ byte,
        readVirtual mem cr3 a = some byte → readVirtual mem' cr3 a = some byte) :
    KernelView file k boot_info cr3 mem' where
  segment i hi a hlo hhi hout :=
    h _ (hbuilt.mem_loads hi) a ⟨a.addr.toNat, hlo, hhi, rfl⟩ _ (hview.segment i hi a hlo hhi hout)
  boot_info j hj := by
    obtain ⟨-, segment, hsegment, hpage⟩ := hloadable.onPage hbuilt hj
    exact h segment hsegment _ hpage _ (hview.boot_info j hj)

/-- The kernel sees the same as long as addresses lead where they led and the image is as it
was. -/
theorem KernelView.of_image {out : Handover} {mem mem' : Bytes}
    (hview : KernelView file k boot_info out.pml4_phys mem)
    (hlaid : LaidOut k.kernel_segments k.virtual_base k.next_v_addr firmware out mem.tables)
    (htranslate : ∀ {a : VAddr} {x : PAddr}, a.slot 3 ≠ 510 →
      translate mem.tables (.page out.pml4_phys) a = some x →
        translate mem'.tables (.page out.pml4_phys) a = some x)
    (himage : ∀ p, firmware.kernel_ptr.toNat ≤ p →
      p < imageEnd firmware.kernel_ptr k.virtual_base k.next_v_addr → mem' p = mem p) :
    KernelView file k boot_info out.pml4_phys mem' := by
  refine hview.congr hbuilt hloadable fun segment hsegment a ha byte hread ↦ ?_
  obtain ⟨x, hx, hval⟩ := hlaid.translate_segment hboot hsegment ha
  have hlt := hboot.place_lt hsegment ha
  have hle := (hboot.bounds_of_onPage hsegment ha).1
  have hslot := slot_ne_of_upper ((hboot.upper _ hsegment).trans hle)
  rw [readVirtual_congr hx (htranslate hslot hx) (himage _ (by omega) (hval ▸ hlt)), hread]

end

/-! ## The run of the bootloader -/

theorem writeBootInfo_calls (kernel_ptr virtual_base next_v_addr bootinfo_address : Word)
    (boot_info : List Byte) (m : Ram) :
    (after (writeBootInfo kernel_ptr virtual_base next_v_addr bootinfo_address boot_info m)).calls =
      m.calls := by
  rw [writeBootInfo]
  split_ifs <;> rfl

/-- No page table is asked for with the boot information. -/
theorem granted_bootKernel {alloc : NewPageTable} {k : Build} {firmware : Firmware}
    {boot_info : List Byte} {m : Ram} :
    Ram.Granted alloc (bootKernel alloc k firmware boot_info) m ↔
      Ram.Granted alloc (setupUefiAndExit alloc k.kernel_segments k.virtual_base k.next_v_addr
        firmware) m := by
  have hcalls : (after (bootKernel alloc k firmware boot_info m)).calls = (after (setupUefiAndExit
      alloc k.kernel_segments k.virtual_base k.next_v_addr firmware m)).calls := by
    rw [bootKernel]
    cases hrun : setupUefiAndExit alloc k.kernel_segments k.virtual_base k.next_v_addr firmware
        m with
    | ok out m₁ =>
        rw [run_bind_ok hrun, after_bind_pure, writeBootInfo_calls, after_ok]
    | error e m₁ =>
        rw [run_bind_error hrun]
  rw [Ram.Granted, Ram.Granted, hcalls]

section

variable {file : List Byte} {k : Build} (h : build file = some k) {alloc : NewPageTable}
  (halloc : Documented alloc) {firmware : Firmware}
  (hboot : Bootable k.kernel_segments k.virtual_base k.next_v_addr firmware)
  (happart : Apart alloc firmware.kernel_ptr.toNat
    (imageEnd firmware.kernel_ptr k.virtual_base k.next_v_addr)) {boot_info : List Byte}
  (hloadable : Loadable k boot_info) {mem : Bytes}
  (hall : Ram.Granted alloc (bootKernel alloc k firmware boot_info) (Ram.start mem))

include h halloc hboot happart hloadable hall

/-- The bootloader comes to its end, and what is in memory then. -/
theorem exists_bootKernel :
    ∃ out m s, bootKernel alloc k firmware boot_info (Ram.start mem) = .ok out m ∧
      Booted alloc k.kernel_segments k.virtual_base k.next_v_addr firmware out m s ∧
      KernelView file k boot_info out.pml4_phys m.mem ∧
      ∀ p, Spared alloc k firmware p → m.mem p = mem p := by
  have hbuilt := built_of_build h
  obtain ⟨out, m₁, hsetup⟩ := exists_booted halloc hboot happart (hloadable.fillInImage hbuilt)
    (granted_bootKernel.mp hall)
  obtain ⟨⟨s, hbooted₁⟩, hrest₁⟩ := booted_of_ok halloc hboot happart hsetup
  have hin := hloadable.boot_info_in_image hbuilt hboot
  let mem₂ := m₁.mem.copyFromNonoverlapping
    (firmware.kernel_ptr.toNat + (k.bootinfo_address - k.virtual_base).toNat) boot_info
  have hwrite : writeBootInfo firmware.kernel_ptr k.virtual_base k.next_v_addr k.bootinfo_address
      boot_info m₁ = .ok () { m₁ with mem := mem₂ } := if_pos hin
  have hbooted : Booted alloc k.kernel_segments k.virtual_base k.next_v_addr firmware out
      { m₁ with mem := mem₂ } s := hbooted₁.withMem halloc fun p hp ↦ by
    refine Bytes.copyFromNonoverlapping_of_notMem _ fun hp' ↦ ?_
    exact happart.not_within (by omega) (by rw [imageEnd]; omega)
      (hp.imp fun _ ↦ Provided.handedOut)
  have hrest : ∀ p, ¬ Within (HandedOut alloc) p →
      mem₂ p = kernelMemory k firmware.kernel_ptr boot_info mem p :=
    fun p hp ↦ Bytes.copyFromNonoverlapping_congr (hrest₁ p hp) ..
  refine ⟨out, { m₁ with mem := mem₂ }, s, ?_, hbooted, ?_, fun p hspared ↦ ?_⟩
  · rw [bootKernel, run_bind_ok hsetup, run_bind_ok hwrite]
    rfl
  · exact (hbooted.laidOut_mem hboot).kernelView hbuilt hboot hloadable
      fun p hlo hhi ↦ hrest p (happart.not_within hlo hhi)
  · obtain ⟨hp, hout⟩ := hspared
    exact (hrest p hp).trans (kernelMemory_of_not_image hbuilt hboot hloadable mem hout)

/-- From the file of the kernel to what the kernel finds: where the build succeeds, the machine is
one that the kernel fits on and no page table is refused, the bootloader does not panic, and the
kernel sees its file and the boot information at the addresses they belong to.  Nothing but the
image and page tables was written. -/
theorem kernel_view :
    ∃ out m, bootKernel alloc k firmware boot_info (Ram.start mem) = .ok out m ∧
      KernelView file k boot_info out.pml4_phys m.mem ∧
      ∀ p, Spared alloc k firmware p → m.mem p = mem p := by
  obtain ⟨out, m, -, hok, -, hview, hspared⟩ :=
    exists_bootKernel h halloc hboot happart hloadable hall
  exact ⟨out, m, hok, hview, hspared⟩

end

/-! ## The small kernel -/

/-- A machine that the small kernel fits on. -/
def smallFirmware : Firmware := ⟨0x100000, 0x6000000, 0x200000, 0x80000000, 0x1000⟩

theorem bootable_smallKernel : Bootable smallKernelBuild.kernel_segments
    smallKernelBuild.virtual_base smallKernelBuild.next_v_addr smallFirmware where
  linked := linked_of_kernelVirtualAddresses (by decide)
  upper := by decide
  next_upper := by decide
  aligned := by decide
  disjoint := List.pairwise_pair.mpr fun _ ↦ ElfSegment64.not_onPage_of_le (by decide)
  kernel_ptr := by decide
  kernel_frames := by decide
  switcher := by decide
  switcher_lt := by decide
  stack_ptr := by decide
  stack_frames := by decide
  fb_frames := by decide
  room := by decide

theorem apart_smallKernel : Apart (firstPages 7) smallFirmware.kernel_ptr.toNat
    (imageEnd smallFirmware.kernel_ptr smallKernelBuild.virtual_base
      smallKernelBuild.next_v_addr) :=
  apart_firstPages (by omega) (by decide) _

theorem loadable_smallKernel : Loadable smallKernelBuild [1, 2, 3] where
  length_le := by decide
  zero_fill := by
    refine List.forall_mem_cons.mpr ⟨Or.inr rfl, List.forall_mem_singleton.mpr (Or.inl rfl)⟩
  boot_info_le := by decide
  boot_info_page := ⟨_, List.mem_cons_of_mem _ List.mem_cons_self, 0xffffffff80001000, by decide,
    by decide, by decide⟩

/-- The page tables that are built for the small kernel. -/
def smallKernelTables : Tables :=
  after (buildTables (firstPages 7) smallKernelBuild.kernel_segments smallKernelBuild.virtual_base
    smallKernelBuild.next_v_addr smallFirmware VirtualMapBuilder.tables)

theorem granted_smallKernel (mem : Bytes) : Ram.Granted (firstPages 7)
    (bootKernel (firstPages 7) smallKernelBuild smallFirmware [1, 2, 3]) (Ram.start mem) := by
  have hcalls : smallKernelTables.calls ≤ 7 := by decide +kernel
  have hbacked := backed_of_fillInImage (documented_firstPages (by omega)) apart_smallKernel
    bootable_smallKernel (loadable_smallKernel.fillInImage (built_of_build build_smallKernel)) mem
  exact granted_bootKernel.mpr ((hbacked.granted rfl).mpr (granted_firstPages hcalls))

theorem kernel_view_smallKernel :
    ∃ out m, bootKernel (firstPages 7) smallKernelBuild smallFirmware [1, 2, 3]
        (Ram.start fun _ ↦ 0xCC) = .ok out m ∧
      KernelView smallKernel smallKernelBuild [1, 2, 3] out.pml4_phys m.mem ∧
      ∀ p, Spared (firstPages 7) smallKernelBuild smallFirmware p → m.mem p = 0xCC :=
  kernel_view build_smallKernel (documented_firstPages (by omega)) bootable_smallKernel
    apart_smallKernel loadable_smallKernel (granted_smallKernel _)

end Elpytios
