import Elpytios.Bootloader.Recorded
import Elpytios.Bootloader.Upper
import Mathlib.Data.List.Sort

/-!
# The memory the kernel is free to use

The bootloader allocates the image of the kernel, its stack and its page tables with types of
memory of its own, and the memory map that the firmware leaves has them under these types.  So
none of their pages is among those that are recorded for the kernel.  It may take page tables from
the pages that are, and write what it likes to the others of them, in any order
(`kernel_free_memory`).
-/

namespace Elpytios

open Radix

def ELPYTI_KERNEL_CODE : MemoryType := .other 0x80000000

def ELPYTI_KERNEL_STACK : MemoryType := .other 0x80000001

def ELPYTI_PAGE_TABLE : MemoryType := .other 0x80000002

/-- The pages that the bootloader has allocated, with the types it has asked for. -/
inductive Allocated (alloc : NewPageTable) (k : Build) (firmware : Firmware) (m : Ram) :
    MemoryType → Word → Prop
  | code {i : ℕ} (hi : i < ((k.next_v_addr - k.virtual_base) / pageSizeWord).toNat) :
      Allocated alloc k firmware m ELPYTI_KERNEL_CODE
        (firmware.kernel_ptr + BitVec.ofNat 64 (i * PAGE_SIZE))
  | stack {i : ℕ} (hi : i < KERNEL_STACK_PAGES) :
      Allocated alloc k firmware m ELPYTI_KERNEL_STACK
        (firmware.stack_ptr + BitVec.ofNat 64 (i * PAGE_SIZE))
  | table {a : PAddr} (ha : Provided alloc m.tables a) :
      Allocated alloc k firmware m ELPYTI_PAGE_TABLE a.addr

/-- A memory map whose entries do not overlap, with pages under the types they were allocated
with. -/
structure Reports (entries : List MemoryDescriptor) (allocated : MemoryType → Word → Prop) :
    Prop where
  separate : Separate entries
  reported : ∀ {ty page}, allocated ty page →
    ∃ entry ∈ entries, entry.ty = ty ∧ page ∈ entry.pageAddrs

/-- The byte at an address is on one of the pages. -/
def OnPages (pages : List Word) (p : ℕ) : Prop :=
  ∃ page ∈ pages, page.toNat ≤ p ∧ p < page.toNat + PAGE_SIZE

/-- What the kernel does with the pages that are recorded: it takes page tables from them, to map
pages from `v_addr_start` on, and writes to those of them that it takes no page tables from. -/
structure FreeUse (regions : List MemoryRegion) (out : Handover) (m : Ram)
    (new_page_table : NewPageTable) (ops : List KernelOp) : Prop where
  documented : Documented new_page_table
  taken : ∀ {n a}, new_page_table n = some a → a.addr ∈ pagesOf regions
  above : ∀ c ∈ KernelOp.calls ops, out.v_addr_start.addr.toNat ≤ c.v_addr.addr.toNat
  distinct : (KernelOp.calls ops).Pairwise fun c d ↦ c.v_addr.pageIndex ≠ d.v_addr.pageIndex
  granted : Ram.Granted new_page_table (KernelOp.runAll out.virtual_map new_page_table ops) m
  written : ∀ {p byte}, KernelOp.write p byte ∈ ops →
    OnPages (pagesOf regions) p ∧ ¬ Within (HandedOut new_page_table) p

/-! ## What is recorded was not allocated -/

/-- A page of an entry lies in it as a whole. -/
theorem MemoryDescriptor.page_le {entry : MemoryDescriptor} (hfits : entry.hi ≤ 2 ^ 64)
    {page : Word} (h : page ∈ entry.pageAddrs) :
    entry.lo ≤ page.toNat ∧ page.toNat + PAGE_SIZE ≤ entry.hi := by
  obtain ⟨i, hi, rfl⟩ := mem_pageAddrs_iff.mp h
  rw [toNat_page hfits hi, MemoryDescriptor.lo, MemoryDescriptor.hi, PAGE_SIZE]
  omega

section

variable {alloc : NewPageTable} {k : Build} {firmware : Firmware} {m : Ram} {ty : MemoryType}
  {page : Word}

theorem Allocated.usable_eq_false (h : Allocated alloc k firmware m ty page) :
    ty.usable = false := by
  cases h with
  | code => rfl
  | stack => rfl
  | table => rfl

/-- No byte of a page that was allocated is on a page that is recorded. -/
theorem Reports.not_onPages {entries : List MemoryDescriptor} {regions : List MemoryRegion}
    (h : Reports entries (Allocated alloc k firmware m)) (hregions : SoundRegions entries regions)
    (hpage : Allocated alloc k firmware m ty page) {p : ℕ} (hlo : page.toNat ≤ p)
    (hhi : p < page.toNat + PAGE_SIZE) : ¬ OnPages (pagesOf regions) p := by
  rintro ⟨other, hother, hlo', hhi'⟩
  obtain ⟨region, hregion, hother⟩ := List.mem_flatMap.mp hother
  obtain ⟨usable, husable, hu, hother⟩ := hregions.usable region hregion other hother
  obtain ⟨entry, hentry, rfl, hmem⟩ := h.reported hpage
  have hne : entry ≠ usable := by
    rintro rfl
    cases hpage.usable_eq_false.symm.trans hu
  have : Std.Symm fun a b : MemoryDescriptor ↦
      ∀ x, a.lo ≤ x → x < a.hi → b.lo ≤ x → ¬ x < b.hi :=
    ⟨fun _ _ hab x hlo hhi hlo' hhi' ↦ hab x hlo' hhi' hlo hhi⟩
  have hentryPage := MemoryDescriptor.page_le (h.separate.fits entry hentry) hmem
  have husablePage := MemoryDescriptor.page_le (h.separate.fits usable husable) hother
  exact h.separate.disjoint.forall hentry husable hne p (by omega) (by omega) (by omega) (by omega)

end

section

variable {alloc : NewPageTable} {k : Build} {firmware : Firmware} {out : Handover} {m : Ram}
  {entries : List MemoryDescriptor} {regions : List MemoryRegion}
  (hreports : Reports entries (Allocated alloc k firmware m))
  (hregions : SoundRegions entries regions)

include hreports hregions

/-- No byte of pages that were allocated in a row is on a page that is recorded. -/
theorem Reports.not_onPages_range {ty : MemoryType} {lo : Word} {count : ℕ}
    (hfits : lo.toNat + count * PAGE_SIZE < 2 ^ 64)
    (hpages : ∀ {i}, i < count →
      Allocated alloc k firmware m ty (lo + BitVec.ofNat 64 (i * PAGE_SIZE))) {p : ℕ}
    (hlo : lo.toNat ≤ p) (hhi : p < lo.toNat + count * PAGE_SIZE) :
    ¬ OnPages (pagesOf regions) p := by
  simp only [PAGE_SIZE] at hfits hhi
  have hi : (p - lo.toNat) / PAGE_SIZE < count := by
    simp only [PAGE_SIZE]
    omega
  have hpage : (lo + BitVec.ofNat 64 ((p - lo.toNat) / PAGE_SIZE * PAGE_SIZE)).toNat =
      lo.toNat + (p - lo.toNat) / PAGE_SIZE * PAGE_SIZE := by
    rw [BitVec.toNat_add, BitVec.toNat_ofNat]
    simp only [PAGE_SIZE]
    omega
  refine hreports.not_onPages hregions (hpages hi) ?_ ?_
  · rw [hpage]
    simp only [PAGE_SIZE]
    omega
  · rw [hpage]
    simp only [PAGE_SIZE]
    omega

/-- No byte of the image is on a page that is recorded. -/
theorem Reports.image (hboot : Bootable k.kernel_segments k.virtual_base k.next_v_addr firmware)
    (hlt : k.virtual_base.toNat < k.next_v_addr.toNat) {p : ℕ}
    (hlo : firmware.kernel_ptr.toNat ≤ p)
    (hhi : p < imageEnd firmware.kernel_ptr k.virtual_base k.next_v_addr) :
    ¬ OnPages (pagesOf regions) p := by
  have hframes := hboot.kernel_frames
  have hsize := hboot.linked.imageSize_eq hlt.le
  rw [imageSize] at hsize
  exact hreports.not_onPages_range hregions (by omega) .code hlo hhi

/-- No byte of the stack is on a page that is recorded. -/
theorem Reports.stack (hboot : Bootable k.kernel_segments k.virtual_base k.next_v_addr firmware)
    {p : ℕ} (hlo : firmware.stack_ptr.toNat ≤ p)
    (hhi : p < firmware.stack_ptr.toNat + KERNEL_STACK_PAGES * PAGE_SIZE) :
    ¬ OnPages (pagesOf regions) p :=
  hreports.not_onPages_range hregions (lt_of_le_of_lt hboot.stack_frames (by decide)) .stack hlo hhi

omit hreports hregions in
/-- Pages that are recorded are apart from a range none of whose bytes is on one. -/
theorem apart_of_not_onPages {new_page_table : NewPageTable} {lo hi : ℕ}
    (hlt : lo < hi) (htaken : ∀ {n a}, new_page_table n = some a → a.addr ∈ pagesOf regions)
    (h : ∀ p, lo ≤ p → p < hi → ¬ OnPages (pagesOf regions) p) : Apart new_page_table lo hi := by
  intro n a ha
  by_contra hoverlap
  rw [PAGE_SIZE] at hoverlap
  refine h (max lo a.addr.toNat) (le_max_left _ _) (by omega) ⟨a.addr, htaken ha, ?_, ?_⟩
  · exact le_max_right _ _
  · rw [PAGE_SIZE]
    omega

/-- What the kernel does with the pages that are recorded is away from what it was started with. -/
theorem FreeUse.elsewhere
    (hboot : Bootable k.kernel_segments k.virtual_base k.next_v_addr firmware)
    (hlt : k.virtual_base.toNat < k.next_v_addr.toNat) {new_page_table : NewPageTable}
    {ops : List KernelOp} (huse : FreeUse regions out m new_page_table ops) :
    Elsewhere alloc k firmware out m new_page_table ops where
  documented := huse.documented
  fresh {n a} ha hprovided := by
    have hon : OnPages (pagesOf regions) a.addr.toNat :=
      ⟨a.addr, huse.taken ha, le_rfl, Nat.lt_add_of_pos_right (by decide)⟩
    exact hreports.not_onPages hregions (.table hprovided) le_rfl
      (Nat.lt_add_of_pos_right (by decide)) hon
  image_apart := by
    have hsize := hboot.linked.imageSize_eq hlt.le
    exact apart_of_not_onPages (by rw [imageEnd]; omega) huse.taken
      fun _ ↦ hreports.image hregions hboot hlt
  stack_apart := apart_of_not_onPages (Nat.lt_add_of_pos_right (by decide)) huse.taken
    fun _ ↦ hreports.stack hregions hboot
  above := huse.above
  distinct := huse.distinct
  granted := huse.granted
  written {p byte} hmem := by
    obtain ⟨hon, hnot⟩ := huse.written hmem
    refine ⟨?_, fun hin ↦ hreports.image hregions hboot hlt hin.1 hin.2 hon,
      fun hin ↦ hreports.stack hregions hboot hin.1 hin.2 hon⟩
    rintro ⟨hp, hprovided | hgiven⟩
    · have hpage := toNat_pageOf hp
      simp only [PAGE_SIZE] at hpage
      exact hreports.not_onPages hregions (.table hprovided) (by omega)
        (by simp only [PAGE_SIZE]; omega) hon
    · exact hnot ⟨hp, hgiven⟩

end

/-- The kernel may use the pages that are recorded as it likes: no byte of its image, of its stack
and of its page tables is on one of them, and whatever it writes there and maps with page tables
from there, it goes on seeing what it was started with. -/
theorem kernel_free_memory {file : List Byte} {k : Build} (h : build file = some k)
    {alloc : NewPageTable} (halloc : Documented alloc) {firmware : Firmware}
    (hboot : Bootable k.kernel_segments k.virtual_base k.next_v_addr firmware)
    (happart : Apart alloc firmware.kernel_ptr.toNat
      (imageEnd firmware.kernel_ptr k.virtual_base k.next_v_addr))
    (hstack : Apart alloc firmware.stack_ptr.toNat
      (firmware.stack_ptr.toNat + KERNEL_STACK_PAGES * PAGE_SIZE)) {boot_info : List Byte}
    (hloadable : Loadable k boot_info) {mem : Bytes}
    (hall : Ram.Granted alloc (bootKernel alloc k firmware boot_info) (Ram.start mem))
    {sort_unstable : List MemoryRegion → List MemoryRegion} (hsort : SortsByPages sort_unstable) :
    ∃ out m, bootKernel alloc k firmware boot_info (Ram.start mem) = .ok out m ∧
      ∀ entries, Reports entries (Allocated alloc k firmware m) →
        ∃ table regions, recordRegions sort_unstable entries = some table ∧
          table.memory_regions = some regions ∧
          (∀ ty page p, Allocated alloc k firmware m ty page → page.toNat ≤ p →
            p < page.toNat + PAGE_SIZE → ¬ OnPages (pagesOf regions) p) ∧
          ∀ new_page_table ops, FreeUse regions out m new_page_table ops →
            ∃ m', KernelOp.runAll out.virtual_map new_page_table ops m = .ok () m' ∧
              Undisturbed file alloc k firmware boot_info out m m' new_page_table ops := by
  obtain ⟨out, m, s, hok, hbooted, hview, -⟩ :=
    exists_bootKernel h halloc hboot happart hloadable hall
  have hbuilt := built_of_build h
  have hlt : k.virtual_base.toNat < k.next_v_addr.toNat := by
    obtain ⟨segment, hsegment, hpage⟩ := hloadable.boot_info_page
    rw [← hbuilt.loads_eq] at hsegment
    have hbase := hloadable.base_le hbuilt hboot
    have hstop := (hboot.bounds_of_onPage hsegment hpage).2
    omega
  refine ⟨out, m, hok, fun entries hreports ↦ ?_⟩
  obtain ⟨table, hrecord, hholds, -⟩ := exists_recordRegions hsort entries
  have hregions := hreports.separate.soundRegions (hsort.perm _)
  refine ⟨table, _, hrecord, hholds.memory_regions, fun ty page p hpage hlo hhi ↦
    hreports.not_onPages hregions hpage hlo hhi, fun new_page_table ops huse ↦ ?_⟩
  exact hbooted.exists_undisturbed halloc hboot (huse.elsewhere hreports hregions hboot hlt) hbuilt
    hloadable happart hstack hview

/-- A memory map for the small kernel. -/
def smallMap : List MemoryDescriptor :=
  [⟨ELPYTI_PAGE_TABLE, 0x1000, 7⟩, ⟨.CONVENTIONAL, 0x8000, 16⟩, ⟨ELPYTI_KERNEL_CODE, 0x100000, 2⟩,
    ⟨ELPYTI_KERNEL_STACK, 0x200000, 8⟩, ⟨.CONVENTIONAL, 0x300000, 256⟩]

theorem reports_smallKernel {m : Ram} :
    Reports smallMap (Allocated (firstPages 7) smallKernelBuild smallFirmware m) where
  separate := by
    have happart : smallMap.Pairwise fun a b ↦ a.hi ≤ b.lo ∨ b.hi ≤ a.lo := by decide
    refine ⟨by decide, happart.imp ?_⟩
    intro a b hab x hla hha hlb hhb
    omega
  reported {ty page} hpage := by
    cases hpage with
    | @code i hi =>
        refine ⟨⟨ELPYTI_KERNEL_CODE, 0x100000, 2⟩, by decide, rfl, ?_⟩
        exact MemoryDescriptor.mem_pageAddrs_iff.mpr ⟨i, hi, rfl⟩
    | @stack i hi =>
        refine ⟨⟨ELPYTI_KERNEL_STACK, 0x200000, 8⟩, by decide, rfl, ?_⟩
        exact MemoryDescriptor.mem_pageAddrs_iff.mpr ⟨i, hi, rfl⟩
    | @table a ha =>
        obtain ⟨n, -, ha⟩ := ha
        rw [firstPages] at ha
        split_ifs at ha with hn
        cases ha
        refine ⟨⟨ELPYTI_PAGE_TABLE, 0x1000, 7⟩, by decide, rfl, ?_⟩
        refine MemoryDescriptor.mem_pageAddrs_iff.mpr ⟨n, hn, ?_⟩
        rw [Nat.succ_mul, Nat.add_comm, BitVec.ofNat_add]
        rfl

theorem sortsByPages_insertionSort :
    SortsByPages fun regions ↦ regions.insertionSort fun a b ↦ b.pages ≤ a.pages := by
  have : Std.Total fun a b : MemoryRegion ↦ b.pages ≤ a.pages :=
    ⟨fun a b ↦ Nat.le_total b.pages.toNat a.pages.toNat⟩
  have : IsTrans MemoryRegion fun a b ↦ b.pages ≤ a.pages :=
    ⟨fun _ _ _ hab hbc ↦ Nat.le_trans hbc hab⟩
  exact ⟨fun regions ↦ List.perm_insertionSort _ regions,
    fun regions ↦ List.pairwise_insertionSort _ regions⟩

/-- What is recorded for the small kernel. -/
def smallRegions : List MemoryRegion := [⟨⟨0x300000⟩, 256⟩, ⟨⟨0x8000⟩, 16⟩]

/-- The small kernel writes to a region, and maps a page with a page table from another. -/
theorem kernel_free_memory_smallKernel :
    ∃ out m m', bootKernel (firstPages 7) smallKernelBuild smallFirmware [1, 2, 3]
        (Ram.start fun _ ↦ 0xCC) = .ok out m ∧
      KernelOp.runAll out.virtual_map sparePage smallOps m = .ok () m' ∧
      Undisturbed smallKernel (firstPages 7) smallKernelBuild smallFirmware [1, 2, 3] out m m'
        sparePage smallOps := by
  obtain ⟨out, m, hok, hfree⟩ := kernel_free_memory build_smallKernel
    (documented_firstPages (by omega)) bootable_smallKernel apart_smallKernel
    stack_apart_smallKernel loadable_smallKernel (granted_smallKernel fun _ ↦ 0xCC)
    sortsByPages_insertionSort
  obtain ⟨table, regions, hrecord, hmemory, -, huse⟩ := hfree smallMap reports_smallKernel
  have hregions : (recordRegions (fun regions ↦ regions.insertionSort fun a b ↦ b.pages ≤ a.pages)
      smallMap).bind RegionTable.memory_regions = some smallRegions := by decide +kernel
  rw [hrecord, Option.bind_some, hmemory] at hregions
  obtain rfl := Option.some.inj hregions
  have hpage : (0x300000 : Word) ∈ pagesOf smallRegions := List.mem_flatMap.mpr
    ⟨_, List.mem_cons_self, List.mem_map.mpr ⟨0, List.mem_range.mpr (by decide), rfl⟩⟩
  have hfreeUse : FreeUse smallRegions out m sparePage smallOps :=
    { documented := documented_sparePage
      taken := fun {n a} ha ↦ by
        rw [(eq_of_sparePage ha).2]
        refine List.mem_flatMap.mpr ⟨_, List.mem_cons_of_mem _ List.mem_cons_self, ?_⟩
        exact List.mem_map.mpr ⟨0, List.mem_range.mpr (by decide), rfl⟩
      above := by
        rw [(booted_smallKernel hok).2]
        exact List.forall_mem_singleton.mpr (by decide)
      distinct := List.pairwise_singleton _ _
      granted := granted_smallOps hok
      written := fun hmem ↦ ⟨⟨_, hpage, by
          rcases mem_smallOps hmem with rfl | rfl <;> decide⟩,
        fun hwithin ↦ smallOps_not_within m hmem (hwithin.imp fun _ ↦ Or.inr)⟩ }
  obtain ⟨m', hm', hundisturbed⟩ := huse sparePage smallOps hfreeUse
  exact ⟨out, m, m', hok, hm', hundisturbed⟩

end Elpytios
