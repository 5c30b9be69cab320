import Elpytios.Bootloader.Handover
import Elpytios.Bootloader.Mode
import Elpytios.Kernel.Main

/-!
# What is on the display

The pixels that the kernel writes go through the page tables of the bootloader to the memory of the
graphics mode that the bootloader has set.  Page tables and pixels are in one memory, and every
pixel finds its place through what memory holds by then.  In the end the framebuffer holds the text
that `main` prints, and nothing else in memory has changed (`main_displayed`).

The pointer to a framebuffer that starts inside a page is wrong (`mapFrameBuffer_iff`), so this is
about one that does not.
-/

namespace Elpytios

open ByteOrder TextGrid

/-- `frame_buffer.cast::<u32>().add(pixel).write_volatile(..)`, through the page tables that are in
memory.  There is nothing if the page is not mapped or must not be written to. -/
def storePixel (cr3 : PAddr) (frame_buffer : VAddr) (mem : Bytes) (write : ℕ × Pixel) :
    Option Bytes := do
  let v : VAddr := ⟨frame_buffer.addr + BitVec.ofNat 64 (4 * write.1)⟩
  let w ← walk mem.tables (.page cr3) v
  let p ← translate mem.tables (.page cr3) v
  if VirtualMapBuilder.Writable w then
    pure (mem.copyFromNonoverlapping p.addr.toNat (bytesOf .little 4 write.2.toNat))
  else none

/-- All writes of a console, the first one first. -/
def storePixels (cr3 : PAddr) (frame_buffer : VAddr) (writes : List (ℕ × Pixel)) (mem : Bytes) :
    Option Bytes :=
  writes.foldlM (storePixel cr3 frame_buffer) mem

/-- The pixels in memory from an address on. -/
def pixelAt (mem : Bytes) (fb_phys i : ℕ) : Pixel :=
  BitVec.ofNat 32 (value .little (mem.read (fb_phys + 4 * i) 4))

/-! ## Pixels in memory -/

theorem pixelAt_copy_self (mem : Bytes) (fb_phys i : ℕ) (x : Pixel) :
    pixelAt (mem.copyFromNonoverlapping (fb_phys + 4 * i) (bytesOf .little 4 x.toNat)) fb_phys i =
      x := by
  have hbytes : (mem.copyFromNonoverlapping (fb_phys + 4 * i) (bytesOf .little 4 x.toNat)).read
      (fb_phys + 4 * i) 4 = bytesOf .little 4 x.toNat :=
    Bytes.read_eq (length_bytesOf ..) fun j hj ↦ Bytes.copyFromNonoverlapping_add mem _ hj
  rw [pixelAt, hbytes, value_bytesOf, Nat.mod_eq_of_lt (show x.toNat < 256 ^ 4 from x.isLt),
    BitVec.ofNat_toNat, BitVec.setWidth_eq]

theorem pixelAt_copy_of_ne (mem : Bytes) (fb_phys : ℕ) {i k : ℕ} (hne : k ≠ i) (x : Pixel) :
    pixelAt (mem.copyFromNonoverlapping (fb_phys + 4 * i) (bytesOf .little 4 x.toNat)) fb_phys k =
      pixelAt mem fb_phys k := by
  have hbytes : (mem.copyFromNonoverlapping (fb_phys + 4 * i) (bytesOf .little 4 x.toNat)).read
      (fb_phys + 4 * k) 4 = mem.read (fb_phys + 4 * k) 4 := by
    refine Bytes.read_congr fun j hj ↦ Bytes.copyFromNonoverlapping_of_notMem mem ?_
    rw [length_bytesOf]
    omega
  rw [pixelAt, hbytes, pixelAt]

/-- A pixel that is written replaces the one that was there. -/
theorem pixelAt_copy (mem : Bytes) (fb_phys i : ℕ) (x : Pixel) :
    pixelAt (mem.copyFromNonoverlapping (fb_phys + 4 * i) (bytesOf .little 4 x.toNat)) fb_phys =
      Function.update (pixelAt mem fb_phys) i x := by
  funext k
  by_cases hk : k = i
  · subst hk
    rw [pixelAt_copy_self, Function.update_self]
  · rw [pixelAt_copy_of_ne mem fb_phys hk, Function.update_of_ne hk]

/-! ## The framebuffer -/

/-- The bytes of the framebuffer can be written at the pointer that is handed over. -/
def FrameBufferMapped (firmware : Firmware) (out : Handover) (tables : Memory) : Prop :=
  ∀ k < firmware.fb_size.toNat, ∃ x w,
    translate tables (.page out.pml4_phys) ⟨out.frame_buffer.addr + BitVec.ofNat 64 k⟩ = some x ∧
    x.addr.toNat = firmware.fb_phys.toNat + k ∧
    walk tables (.page out.pml4_phys) ⟨out.frame_buffer.addr + BitVec.ofNat 64 k⟩ = some w ∧
    VirtualMapBuilder.Writable w

section

variable {segments : List ElfSegment64} {virtual_base next_v_addr : Word} {firmware : Firmware}
  {out : Handover} {tables : Memory}

theorem LaidOut.frameBufferMapped (hboot : Bootable segments virtual_base next_v_addr firmware)
    (h : LaidOut segments virtual_base next_v_addr firmware out tables)
    (hfb : firmware.fb_phys.toNat % PAGE_SIZE = 0) : FrameBufferMapped firmware out tables := by
  intro k hk
  have hupper := hboot.next_upper
  have hnext := hboot.linked.next_aligned
  have hroom := hboot.room
  have hbase := h.kernel_stack_base
  rw [toNat_frameBufferPages hboot.fb_frames] at hroom
  rw [← h.frame_buffer] at hbase
  simp only [PAGE_SIZE, KERNEL_STACK_PAGES] at hnext hroom hbase hfb
  have haddr : (out.frame_buffer.addr + BitVec.ofNat 64 k).toNat =
      out.frame_buffer.addr.toNat + k := by
    rw [BitVec.toNat_add, BitVec.toNat_ofNat]
    omega
  generalize ha : (⟨out.frame_buffer.addr + BitVec.ofNat 64 k⟩ : VAddr) = a
  replace haddr : a.addr.toNat = out.frame_buffer.addr.toNat + k := ha ▸ haddr
  have hslot : a.slot 3 ≠ 510 := slot_ne_of_upper (by omega)
  have hcanonical : a.Canonical := Or.inr (by omega)
  have hi : (firmware.fb_phys.toNat / PAGE_SIZE + k / PAGE_SIZE) * PAGE_SIZE <
      firmware.fb_phys.toNat + firmware.fb_size.toNat := by
    simp only [PAGE_SIZE]
    omega
  have hintended : Intended segments virtual_base next_v_addr firmware _ _ _ :=
    Intended.frameBuffer hi
  rw [show next_v_addr.toNat + (KERNEL_STACK_PAGES + k / PAGE_SIZE) * PAGE_SIZE =
    a.pageNumber * PAGE_SIZE by
      simp only [VAddr.pageNumber, PAGE_SIZE, KERNEL_STACK_PAGES]; omega] at hintended
  obtain ⟨x, hx, hval⟩ := h.translate_eq hslot hcanonical hintended
  obtain ⟨w, hw, -, -, -, hwritable⟩ := h.mapped hslot hcanonical hintended
  refine ⟨x, w, hx, hval.trans ?_, hw, hwritable.mpr (by decide)⟩
  simp only [PAGE_SIZE]
  omega

/-- A pixel is written to its place in the framebuffer. -/
theorem FrameBufferMapped.storePixel_eq {mem : Bytes}
    (h : FrameBufferMapped firmware out mem.tables) {i : ℕ} (hi : 4 * i < firmware.fb_size.toNat)
    (x : Pixel) : storePixel out.pml4_phys out.frame_buffer mem (i, x) =
      some (mem.copyFromNonoverlapping (firmware.fb_phys.toNat + 4 * i)
        (bytesOf .little 4 x.toNat)) := by
  obtain ⟨p, w, hp, hval, hw, hwritable⟩ := h (4 * i) hi
  rw [storePixel]
  simp only [hw, hp, Option.bind_eq_bind, Option.bind_some, if_pos hwritable, hval]
  rfl

/-- What is written is in the framebuffer then, and nowhere else.  As it is not in page tables, the
next pixel finds its place as well. -/
theorem Booted.exists_storePixels {alloc : NewPageTable} (halloc : Documented alloc)
    (hboot : Bootable segments virtual_base next_v_addr firmware)
    (hfb : firmware.fb_phys.toNat % PAGE_SIZE = 0)
    (happart : Apart alloc firmware.fb_phys.toNat
      (firmware.fb_phys.toNat + firmware.fb_size.toNat)) {m : Ram} {s : Tables}
    (h : Booted alloc segments virtual_base next_v_addr firmware out m s) {n : ℕ}
    (hn : n * 4 ≤ firmware.fb_size.toNat) {writes : List (ℕ × Pixel)}
    (hwrites : ∀ write ∈ writes, write.1 < n) :
    ∃ mem', storePixels out.pml4_phys out.frame_buffer writes m.mem = some mem' ∧
      pixelAt mem' firmware.fb_phys.toNat =
        WriteLog.play writes (pixelAt m.mem firmware.fb_phys.toNat) ∧
      ∀ a, (a < firmware.fb_phys.toNat ∨ firmware.fb_phys.toNat + firmware.fb_size.toNat ≤ a) →
        mem' a = m.mem a := by
  induction writes generalizing m with
  | nil => exact ⟨m.mem, rfl, rfl, fun _ _ ↦ rfl⟩
  | cons write writes ih =>
      obtain ⟨i, x⟩ := write
      obtain ⟨hi, htail⟩ := List.forall_mem_cons.mp hwrites
      have hlt : i < n := hi
      let mem₁ := m.mem.copyFromNonoverlapping (firmware.fb_phys.toNat + 4 * i)
        (bytesOf .little 4 x.toNat)
      have hstore := ((h.laidOut_mem hboot).frameBufferMapped hboot hfb).storePixel_eq
        (i := i) (by omega) x
      have hout (a : ℕ) (ha : a < firmware.fb_phys.toNat ∨
          firmware.fb_phys.toNat + firmware.fb_size.toNat ≤ a) : mem₁ a = m.mem a := by
        refine Bytes.copyFromNonoverlapping_of_notMem m.mem ?_
        rw [length_bytesOf]
        omega
      have h₁ : Booted alloc segments virtual_base next_v_addr firmware out
          { m with mem := mem₁ } s := h.withMem halloc fun p hp ↦
        hout p (happart.outside (hp.imp fun _ ↦ Provided.handedOut))
      obtain ⟨mem', hmem', hpixels, hframe⟩ := ih h₁ htail
      refine ⟨mem', ?_, ?_, fun a ha ↦ (hframe a ha).trans (hout a ha)⟩
      · rw [storePixels, List.foldlM_cons, hstore]
        exact hmem'
      · rw [hpixels]
        change WriteLog.play writes (pixelAt mem₁ _) = _
        rw [pixelAt_copy]
        rfl

end

/-- The framebuffer begins on a page and is memory of its own: neither page tables nor the image
or the stack of the kernel are in it. -/
structure Dedicated (alloc : NewPageTable) (k : Build) (firmware : Firmware) : Prop where
  aligned : firmware.fb_phys.toNat % PAGE_SIZE = 0
  tables_apart : Apart alloc firmware.fb_phys.toNat
    (firmware.fb_phys.toNat + firmware.fb_size.toNat)
  image_apart : imageEnd firmware.kernel_ptr k.virtual_base k.next_v_addr ≤
      firmware.fb_phys.toNat ∨
    firmware.fb_phys.toNat + firmware.fb_size.toNat ≤ firmware.kernel_ptr.toNat
  stack_apart : firmware.stack_ptr.toNat + KERNEL_STACK_PAGES * PAGE_SIZE ≤
      firmware.fb_phys.toNat ∨
    firmware.fb_phys.toNat + firmware.fb_size.toNat ≤ firmware.stack_ptr.toNat

/-- The kernel sees its file and the boot information, and on its stack what was there before. -/
structure KernelKeeps (file : List Byte) (k : Build) (boot_info : List Byte) (out : Handover)
    (before after : Bytes) : Prop where
  view : KernelView file k boot_info out.pml4_phys after
  stack : ∀ a : VAddr, k.next_v_addr.toNat ≤ a.addr.toNat →
    a.addr.toNat < out.kernel_stack_base.addr.toNat →
    readVirtual after out.pml4_phys a = readVirtual before out.pml4_phys a

/-- Whatever is written to the framebuffer, the kernel keeps what it was started with. -/
theorem Booted.kernelKeeps {file : List Byte} {k : Build} (hbuilt : Built file k)
    {alloc : NewPageTable} (halloc : Documented alloc) {firmware : Firmware}
    (hboot : Bootable k.kernel_segments k.virtual_base k.next_v_addr firmware)
    (hfb : Dedicated alloc k firmware) {boot_info : List Byte} (hloadable : Loadable k boot_info)
    {out : Handover} {m : Ram} {s : Tables}
    (h : Booted alloc k.kernel_segments k.virtual_base k.next_v_addr firmware out m s)
    (hview : KernelView file k boot_info out.pml4_phys m.mem) {mem' : Bytes}
    (hframe : ∀ a, (a < firmware.fb_phys.toNat ∨
      firmware.fb_phys.toNat + firmware.fb_size.toNat ≤ a) → mem' a = m.mem a) :
    KernelKeeps file k boot_info out m.mem mem' := by
  have h' : Booted alloc k.kernel_segments k.virtual_base k.next_v_addr firmware out
      { m with mem := mem' } s := h.withMem halloc fun p hp ↦
    hframe p (hfb.tables_apart.outside (hp.imp fun _ ↦ Provided.handedOut))
  have htranslate {a : VAddr} {x : PAddr} (ha : a.slot 3 ≠ 510)
      (hx : translate m.mem.tables (.page out.pml4_phys) a = some x) :
      translate mem'.tables (.page out.pml4_phys) a = some x := by
    rw [translate, h'.walk_eq ha, ← h.walk_eq ha, ← translate, hx]
  constructor
  · have hapart := hfb.image_apart
    exact hview.of_image hbuilt hboot hloadable (h.laidOut_mem hboot) htranslate
      fun p hlo hhi ↦ hframe p (by omega)
  · intro a hlo hhi
    have hstack := (h.laidOut_mem hboot).stackMapped hboot
    obtain ⟨x, -, hx, hval, -, -⟩ := hstack.mapped a hlo hhi
    have hsize := hstack.size
    have hapart := hfb.stack_apart
    exact readVirtual_congr hx (htranslate (slot_ne_of_upper (hboot.next_upper.trans hlo)) hx)
      (hframe _ (by omega))

/-! ## From the firmware to the display -/

/-- A text that was typed from a cell on is on the display: each point of a cell has the colour of
the character that was placed there last, and the rest is as it was before. -/
structure Shown {g : GraphicsInfo} (hg : g.Drawable) (start : TextCell g) (text : List Byte)
    (before after : ℕ → Pixel) : Prop where
  shown : ∀ c x y ch, WriteLog.last (written 0 start (text.map key)) c = some ch →
    ∃ character, get_character ch = some character ∧
      after (hg.layout.place c x y) = shade character x y
  blank : ∀ c x y, WriteLog.last (written 0 start (text.map key)) c = none →
    after (hg.layout.place c x y) = before (hg.layout.place c x y)
  frame : ∀ i, ¬ hg.layout.InBox i → after i = before i

theorem Rendered.toShown {g : GraphicsInfo} {hg : g.Drawable} {start : TextCell g}
    {text : List Byte} {pixels : ℕ → Pixel} {con : Console}
    (h : Rendered hg start text pixels con) :
    Shown hg start text pixels (WriteLog.play con.writes pixels) :=
  ⟨h.shown, h.blank, h.frame⟩

/-- From the firmware to the display: the kernel is loaded, prints the memory regions that were
recorded, and the memory of the largest graphics mode shows them in the end.  All the while the
kernel keeps what it was started with, and nothing outside that memory changes. -/
theorem main_displayed {file : List Byte} {k : Build} (h : build file = some k)
    {alloc : NewPageTable} (halloc : Documented alloc) {firmware : Firmware}
    (hboot : Bootable k.kernel_segments k.virtual_base k.next_v_addr firmware)
    (happart : Apart alloc firmware.kernel_ptr.toNat
      (imageEnd firmware.kernel_ptr k.virtual_base k.next_v_addr))
    (hfb : Dedicated alloc k firmware) {boot_info : List Byte}
    (hloadable : Loadable k boot_info) {mem : Bytes}
    (hall : Ram.Granted alloc (bootKernel alloc k firmware boot_info) (Ram.start mem))
    {modes : List Mode} {mode : Mode} {info : ModeInfo}
    (hmode : selectMode modes = some (mode, info))
    (hg : (graphicsInfo info firmware.fb_size).Drawable)
    (hknown : (graphicsInfo info firmware.fb_size).Known)
    {sort_unstable : List MemoryRegion → List MemoryRegion} (hsort : SortsByPages sort_unstable)
    {entries : List MemoryDescriptor} (hseparate : Separate entries)
    (hfits : ∀ entry ∈ entries, entry.hi < 2 ^ 64) {pieces : String → List String}
    (hpieces : ∀ s, (pieces s).flatMap bytes = bytes s) {profile : Profile}
    {debug_halt : ℕ → Byte} (hhalt : profile.debug_assertions = true → ∃ n, debug_halt n = 0)
    (main_addr : Word) :
    ∃ out m table regions fuel con mem',
      bootKernel alloc k firmware boot_info (Ram.start mem) = .ok out m ∧
      KernelView file k boot_info out.pml4_phys m.mem ∧
      (mode ∈ modes ∧ info = mode.info ∧ ∀ other ∈ modes, other.area ≤ mode.area) ∧
      recordRegions sort_unstable entries = some table ∧ table.memory_regions = some regions ∧
      SoundRegions entries regions ∧
      main profile pieces main_addr
        ⟨graphicsInfo info firmware.fb_size, table, out.v_addr_start, out.v_addr_end⟩ debug_halt
          fuel = some (.ok con) ∧
      (∀ n, ∃ mem₁, storePixels out.pml4_phys out.frame_buffer (con.writes.take n) m.mem =
        some mem₁ ∧ KernelKeeps file k boot_info out m.mem mem₁) ∧
      storePixels out.pml4_phys out.frame_buffer con.writes m.mem = some mem' ∧
      Shown hg (firstCell hg)
        (linesBytes (greeting main_addr regions (out.v_addr_start, out.v_addr_end)))
        (pixelAt m.mem firmware.fb_phys.toNat) (pixelAt mem' firmware.fb_phys.toNat) ∧
      readGreeting (linesChars (greeting main_addr regions (out.v_addr_start, out.v_addr_end))) =
        some ((main_addr, regions, out.v_addr_start, out.v_addr_end), []) ∧
      ∀ a, (a < firmware.fb_phys.toNat ∨ firmware.fb_phys.toNat + firmware.fb_size.toNat ≤ a) →
        mem' a = m.mem a := by
  obtain ⟨out, m, s, hok, hbooted, hview, -⟩ :=
    exists_bootKernel h halloc hboot happart hloadable hall
  obtain ⟨table, regions, fuel, con, hrecord, hregions, hsound, hmain, hrendered⟩ :=
    exists_main_recorded hsort hseparate hfits hg hknown hpieces hhalt main_addr out.v_addr_start
      out.v_addr_end (pixelAt m.mem firmware.fb_phys.toNat)
  have hstored {writes : List (ℕ × Pixel)} (hwrites : ∀ write ∈ writes, write ∈ con.writes) :=
    hbooted.exists_storePixels halloc hboot hfb.aligned hfb.tables_apart hg.size_ge
      fun write hwrite ↦ hrendered.lt write (hwrites write hwrite)
  obtain ⟨mem', hstore, hpixels, hframe⟩ := hstored fun _ hwrite ↦ hwrite
  have hkeeps (n : ℕ) : ∃ mem₁, storePixels out.pml4_phys out.frame_buffer (con.writes.take n)
      m.mem = some mem₁ ∧ KernelKeeps file k boot_info out m.mem mem₁ := by
    obtain ⟨mem₁, hstore₁, -, hframe₁⟩ := hstored fun _ ↦ List.mem_of_mem_take
    exact ⟨mem₁, hstore₁,
      hbooted.kernelKeeps (built_of_build h) halloc hboot hfb hloadable hview hframe₁⟩
  have hread := readGreeting_greeting main_addr regions (out.v_addr_start, out.v_addr_end) []
  rw [List.append_nil] at hread
  refine ⟨out, m, table, regions, fuel, con, mem', hok, hview, mem_of_selectMode hmode, hrecord,
    hregions, hsound, hmain, hkeeps, hstore, ?_, hread, hframe⟩
  rw [hpixels]
  exact hrendered.toShown

/-- The small kernel, on a machine with two graphics modes and a memory map in descending order. -/
theorem main_displayed_smallKernel :
    let modes : List Mode := [⟨0, ⟨(9, 16), 9, .Rgb⟩⟩, ⟨1, ⟨(18, 32), 20, .Bgr⟩⟩]
    let entries : List MemoryDescriptor :=
      [⟨.CONVENTIONAL, 0x20000, 16⟩, ⟨.other 0x80000000, 0x10000, 16⟩, ⟨.LOADER_DATA, 0x1000, 15⟩]
    let sort_unstable := fun regions : List MemoryRegion ↦
      regions.mergeSort fun a b ↦ b.pages ≤ a.pages
    let g := graphicsInfo ⟨(18, 32), 20, .Bgr⟩ smallFirmware.fb_size
    ∃ (hg : g.Drawable) (out : Handover) (m : Ram) (table : RegionTable)
      (regions : List MemoryRegion) (fuel : ℕ) (con : Console) (mem' : Bytes),
      bootKernel (firstPages 7) smallKernelBuild smallFirmware [1, 2, 3] (Ram.start fun _ ↦ 0xCC) =
        .ok out m ∧
      (⟨1, ⟨(18, 32), 20, .Bgr⟩⟩ : Mode) ∈ modes ∧
      recordRegions sort_unstable entries = some table ∧ SoundRegions entries regions ∧
      main ⟨false, true⟩ (fun s ↦ [s]) 0xffffffff80000005
        ⟨g, table, out.v_addr_start, out.v_addr_end⟩ (fun _ ↦ 1) fuel = some (.ok con) ∧
      (∀ n, ∃ mem₁, storePixels out.pml4_phys out.frame_buffer (con.writes.take n) m.mem =
        some mem₁ ∧ KernelKeeps smallKernel smallKernelBuild [1, 2, 3] out m.mem mem₁) ∧
      storePixels out.pml4_phys out.frame_buffer con.writes m.mem = some mem' ∧
      Shown hg (firstCell hg)
        (linesBytes (greeting 0xffffffff80000005 regions (out.v_addr_start, out.v_addr_end)))
        (pixelAt m.mem 0x80000000) (pixelAt mem' 0x80000000) := by
  intro modes entries sort_unstable g
  have hg : g.Drawable := ⟨by decide, by decide, by decide, by decide⟩
  have happart : entries.Pairwise fun a b ↦ a.hi ≤ b.lo ∨ b.hi ≤ a.lo := by decide
  have hseparate : Separate entries :=
    ⟨by decide, happart.imp fun {a b} hab x hla hha hlb hhb ↦ by omega⟩
  have hmode : selectMode modes = some (⟨1, ⟨(18, 32), 20, .Bgr⟩⟩, ⟨(18, 32), 20, .Bgr⟩) := by
    decide
  have hfb : Dedicated (firstPages 7) smallKernelBuild smallFirmware :=
    ⟨by decide, apart_firstPages (by omega) (by decide) _, by decide, by decide⟩
  obtain ⟨out, m, table, regions, fuel, con, mem', hok, -, ⟨hmem, -⟩, hrecord, -, hsound, hmain,
    hkeeps, hstore, hshown, -⟩ := main_displayed build_smallKernel
      (documented_firstPages (by omega)) bootable_smallKernel apart_smallKernel hfb
      loadable_smallKernel
      (granted_smallKernel fun _ ↦ 0xCC) hmode hg (Or.inr rfl) sortsByPages_mergeSort hseparate
      (by decide) (fun _ ↦ List.flatMap_singleton ..)
      (nofun : Profile.debug_assertions ⟨false, true⟩ = true → ∃ _ : ℕ, (1 : Byte) = 0)
      0xffffffff80000005
  exact ⟨hg, out, m, table, regions, fuel, con, mem', hok, hmem, hrecord, hsound, hmain, hkeeps,
    hstore, hshown⟩

end Elpytios
