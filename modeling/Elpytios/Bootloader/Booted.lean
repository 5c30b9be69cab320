import Elpytios.Bootloader.Loading
import Elpytios.Paging.Ownership

/-!
# After the bootloader

What is known whenever `setup_uefi_and_exit` has come to `finish` (`booted_of_ok`): the tables in
memory are a tree that the mapper it hands over can work on, and they show the layout that is
meant.  The rest of memory is as it was, but for the image.

It gets there if the firmware refuses no page table and no zero-fill leaves the image, and
otherwise it does not (`setupUefiAndExit_iff`).
-/

namespace Elpytios

open Radix

theorem slot_ne_of_upper {a : VAddr} (ha : 2 ^ 64 - 2 ^ 39 ≤ a.addr.toNat) : a.slot 3 ≠ 510 := by
  have hlt := a.addr.isLt
  rw [Ne, Fin.ext_iff]
  change ¬ a.addr.toNat / 2 ^ 39 % 512 = 510
  omega

variable {alloc : NewPageTable} (halloc : Documented alloc) {segments : List ElfSegment64}
  {virtual_base next_v_addr : Word} {firmware : Firmware}
  (h : Bootable segments virtual_base next_v_addr firmware)

include h in
theorem Bootable.usable_layout (hR : (510 : Word).toNat < 512) :
    ∀ r ∈ layout segments virtual_base next_v_addr firmware, r.Usable ⟨(510 : Word).toNat, hR⟩ :=
  fun _ hr ↦ h.usable hr

/-! ## The tables that are built -/

section

variable {s₁ s : Tables} {pml4 : PAddr}
  (hs₁ : mapPages (VirtualMapBuilder.new 510 alloc).map alloc
    ((layout segments virtual_base next_v_addr firmware).flatMap PageRange.calls)
      VirtualMapBuilder.tables = .ok () s₁)
  (hs : (VirtualMapBuilder.new 510 alloc).finish s₁ = .ok (pml4, ⟨510, pml4⟩) s)

include halloc h hs₁ hs

/-- Pages that are meant to be mapped are. -/
theorem Bootable.walk_intended {u : VAddr} {p : ℕ} {f : VFlags}
    (hp : Intended segments virtual_base next_v_addr firmware (u.pageNumber * PAGE_SIZE) p f) :
    ∃ w, walk s.store (.page pml4) u = some w ∧ w.1.length = 3 ∧
      (leafBase 3 w.2).addr.toNat = p ∧ Grants w.2 f ∧
      (VirtualMapBuilder.Writable w ↔ f.contains VFlags.WRITABLE = true) := by
  obtain ⟨r, hr, hmaps, rfl⟩ := h.intended_iff.mp hp
  obtain ⟨hcov, hp⟩ := (PageRange.maps_iff (h.frames hr)).mp hmaps
  obtain ⟨w, hw, hlen, hbase, hgrants, hwritable⟩ :=
    finished_of_covers (by decide) halloc (h.usable_layout _) hs₁ hs hr hcov
  exact ⟨w, hw, hlen, hbase ▸ hp, hgrants, hwritable⟩

/-- Other pages are not. -/
theorem Bootable.walk_not_intended {u : VAddr} (hslot : u.slot 3 ≠ 510) (hu : u.Canonical)
    (hnot : ∀ p f, ¬ Intended segments virtual_base next_v_addr firmware
      (u.pageNumber * PAGE_SIZE) p f) : walk s.store (.page pml4) u = none := by
  apply finished_of_not_covered (by decide) halloc (h.usable_layout _) hs₁ hs hu hslot
  intro r hr hcov
  have hmaps := (PageRange.maps_iff (h.frames hr)).mpr ⟨hcov, rfl⟩
  exact hnot _ _ (h.intended_iff.mpr ⟨r, hr, hmaps, rfl⟩)

theorem Bootable.laidOut : LaidOut segments virtual_base next_v_addr firmware
    (handover next_v_addr firmware pml4 ⟨510, pml4⟩) s.store where
  mapped _ _ hp := h.walk_intended halloc hs₁ hs hp
  unmapped hslot hu hnot := h.walk_not_intended halloc hs₁ hs hslot hu hnot
  kernel_stack_base := h.toNat_stackEnd
  frame_buffer := rfl
  disjoint := by
    have hbase : (handover next_v_addr firmware pml4 ⟨510, pml4⟩).kernel_stack_base.addr.toNat =
        next_v_addr.toNat + KERNEL_STACK_PAGES * PAGE_SIZE := h.toNat_stackEnd
    have hbuffer : (handover next_v_addr firmware pml4 ⟨510, pml4⟩).frame_buffer.addr.toNat =
        next_v_addr.toNat + KERNEL_STACK_PAGES * PAGE_SIZE := hbase
    simp only [List.pairwise_cons, List.mem_cons, List.not_mem_nil, or_false, forall_eq_or_imp,
      forall_eq, false_imp_iff, implies_true, List.Pairwise.nil, and_true,
      ← Set.disjoint_iff_inter_eq_empty, Set.Ico_disjoint_Ico]
    rw [hbase, hbuffer]
    omega
  free {u} hu := by
    have hupper := h.next_upper
    have hnext := h.linked.next_aligned
    rw [h.toNat_v_addr_start] at hu
    have hhigh : 2 ^ 64 - 2 ^ 39 ≤ u.addr.toNat := by omega
    apply h.walk_not_intended halloc hs₁ hs (slot_ne_of_upper hhigh) (Or.inr (by omega))
    intro p f hp
    obtain ⟨r, hr, hmaps, -⟩ := h.intended_iff.mp hp
    have hlt := h.lt_of_covers hr ((PageRange.maps_iff (h.frames hr)).mp hmaps).1
    simp only [VAddr.pageNumber, PAGE_SIZE] at hu hlt hnext
    omega

end

section

include halloc h

/-- Whenever the tables are built, the layout was mapped and the tables were finished. -/
theorem exists_of_buildTables_ok {out : Handover} {s : Tables}
    (hok : buildTables alloc segments virtual_base next_v_addr firmware
      VirtualMapBuilder.tables = .ok out s) :
    ∃ s₁ pml4, mapPages (VirtualMapBuilder.new 510 alloc).map alloc
        ((layout segments virtual_base next_v_addr firmware).flatMap PageRange.calls)
          VirtualMapBuilder.tables = .ok () s₁ ∧
      Intact alloc .own 510 0 s₁ ∧ alloc s₁.calls = some pml4 ∧
      (VirtualMapBuilder.new 510 alloc).finish s₁ = .ok (pml4, ⟨510, pml4⟩) s ∧
      out = handover next_v_addr firmware pml4 ⟨510, pml4⟩ := by
  have hR : (510 : Word).toNat < 512 := by decide
  rw [buildTables_eq _ _ _ _ h.switcher] at hok
  obtain ⟨⟨⟩, s₁, hs₁, hok⟩ := exists_of_run_bind_ok hok
  obtain ⟨⟨pml4, m⟩, s₂, hs₂, hok⟩ := exists_of_run_bind_ok hok
  have hs := unwrapOrPanic_eq_ok.mp hs₂
  have hintact := intact_of_mapPages hR halloc hs₁
  cases hok
  cases ha : alloc s₁.calls with
  | none =>
      rw [VirtualMapBuilder.finish_of_none ha] at hs
      cases hs
  | some a =>
      have hfinish := VirtualMapBuilder.finish_of_some hR hintact ha
      rw [hfinish] at hs
      cases hs
      exact ⟨s₁, pml4, hs₁, hintact, ha, hfinish, rfl⟩

/-- They are in pages that were handed out for them. -/
theorem exists_provided {out : Handover} {s : Tables}
    (hok : buildTables alloc segments virtual_base next_v_addr firmware
      VirtualMapBuilder.tables = .ok out s) {l : Loc} {t : PageTable} (ht : s.store l = some t) :
    ∃ a, Provided alloc s a ∧ l = .page a := by
  have hR : (510 : Word).toNat < 512 := by decide
  obtain ⟨s₁, pml4, hs₁, hintact, ha, hs, -⟩ := exists_of_buildTables_ok halloc h hok
  have hrun : (VirtualMapBuilder.new 510 alloc).run
      ((layout segments virtual_base next_v_addr firmware).flatMap PageRange.calls) = s₁ :=
    (eq_mapAll_of_ok hs₁).symm
  have howned := hrun ▸ VirtualMapBuilder.owned_run halloc hR
    ((layout segments virtual_base next_v_addr firmware).flatMap PageRange.calls)
  have hfinished := VirtualMapBuilder.owned_finished hR hintact howned ha
  rw [VirtualMapBuilder.finish_of_some hR hintact ha] at hs
  cases hs
  rcases hfinished.held ht with rfl | ⟨n, hn, hl⟩
  · exact ⟨pml4, ⟨s₁.calls, Nat.lt_succ_self _, ha⟩, rfl⟩
  · obtain ⟨a, hprovided, rfl⟩ := supply_eq_some.mp hl
    exact ⟨a, ⟨n, hn, hprovided⟩, rfl⟩

/-- Without a refused page table they are built. -/
theorem exists_buildTables
    (hall : Granted alloc (buildTables alloc segments virtual_base next_v_addr firmware)
      VirtualMapBuilder.tables) :
    ∃ out s, buildTables alloc segments virtual_base next_v_addr firmware
        VirtualMapBuilder.tables = .ok out s := by
  rw [buildTables_eq _ _ _ _ h.switcher, ← bind_assoc, Granted, after_bind_pure] at hall
  obtain ⟨s₁, pml4, s, hs₁, hs⟩ :=
    exists_finished (by decide) halloc (h.usable_layout _) h.layout_disjoint hall
  refine ⟨handover next_v_addr firmware pml4 ⟨510, pml4⟩, s, ?_⟩
  rw [buildTables_eq _ _ _ _ h.switcher, run_bind_ok hs₁,
    run_bind_ok (unwrapOrPanic_eq_ok.mpr hs)]
  rfl

end

/-! ## The tables in memory -/

include h in
/-- The addresses that are free begin in the last slot of the PML4. -/
theorem Bootable.upper_v_addr_start (pml4 : PAddr) (m : RecursiveMapper) : 2 ^ 64 - 2 ^ 39 ≤
    (handover next_v_addr firmware pml4 m).v_addr_start.addr.toNat := by
  have hupper := h.next_upper
  rw [h.toNat_v_addr_start]
  omega

/-- The layout is the same wherever the walks are. -/
theorem LaidOut.congr {out : Handover} {tables tables' : Memory}
    (h : LaidOut segments virtual_base next_v_addr firmware out tables)
    (hstart : 2 ^ 64 - 2 ^ 39 ≤ out.v_addr_start.addr.toNat)
    (hwalk : ∀ u : VAddr, u.slot 3 ≠ 510 →
      walk tables' (.page out.pml4_phys) u = walk tables (.page out.pml4_phys) u) :
    LaidOut segments virtual_base next_v_addr firmware out tables' where
  mapped {u _ _} hslot hu hp := by
    rw [hwalk u hslot]
    exact h.mapped hslot hu hp
  unmapped {u} hslot hu hnot := (hwalk u hslot).trans (h.unmapped hslot hu hnot)
  kernel_stack_base := h.kernel_stack_base
  frame_buffer := h.frame_buffer
  disjoint := h.disjoint
  free {u} hu := (hwalk u (slot_ne_of_upper (hstart.trans hu))).trans (h.free hu)

/-- What is handed over, the memory it is about, and the tables in it: those that are built. -/
structure Booted (alloc : NewPageTable) (segments : List ElfSegment64)
    (virtual_base next_v_addr : Word) (firmware : Firmware) (out : Handover) (m : Ram)
    (s : Tables) : Prop where
  tables_eq : buildTables alloc segments virtual_base next_v_addr firmware
    VirtualMapBuilder.tables = .ok out s
  handover_eq : out = handover next_v_addr firmware out.pml4_phys ⟨510, out.pml4_phys⟩
  isPage : out.pml4_phys.IsPage
  intact : Intact alloc (.page out.pml4_phys) 510
    (NodeEntry.new Entry.WRITABLE out.pml4_phys).bits s
  selfLink : RecursiveMapper.SelfLink out.pml4_phys
    (NodeEntry.new Entry.WRITABLE out.pml4_phys).bits
  holds : Ram.Holds (Provided alloc s) m s
  laidOut : LaidOut segments virtual_base next_v_addr firmware out s.store

theorem Provided.handedOut {alloc : NewPageTable} {s : Tables} {a : PAddr}
    (h : Provided alloc s a) : HandedOut alloc a :=
  h.imp fun _ hn ↦ hn.2

/-- Writes to other pages change nothing about the tables. -/
theorem Booted.withMem {out : Handover} {m : Ram} {s : Tables}
    (hbooted : Booted alloc segments virtual_base next_v_addr firmware out m s)
    (halloc : Documented alloc) {mem : Bytes}
    (hmem : ∀ p, Within (Provided alloc s) p → mem p = m.mem p) :
    Booted alloc segments virtual_base next_v_addr firmware out { m with mem := mem } s where
  tables_eq := hbooted.tables_eq
  handover_eq := hbooted.handover_eq
  isPage := hbooted.isPage
  intact := hbooted.intact
  selfLink := hbooted.selfLink
  holds := hbooted.holds.withMem (fun _ ha ↦ halloc.isPage _ ha.handedOut) hmem
  laidOut := hbooted.laidOut

/-- The walks through memory are those through the tables. -/
theorem Booted.walk_eq {out : Handover} {m : Ram} {s : Tables}
    (hbooted : Booted alloc segments virtual_base next_v_addr firmware out m s) {u : VAddr}
    (hu : u.slot 3 ≠ 510) :
    walk m.mem.tables (.page out.pml4_phys) u = walk s.store (.page out.pml4_phys) u := by
  rw [← Ram.walk_tables]
  exact hbooted.holds.part.walk_of_tree hbooted.intact.table hu

/-- The layout is that of memory. -/
theorem Booted.laidOut_mem {out : Handover} {m : Ram} {s : Tables}
    (h : Bootable segments virtual_base next_v_addr firmware)
    (hbooted : Booted alloc segments virtual_base next_v_addr firmware out m s) :
    LaidOut segments virtual_base next_v_addr firmware out m.mem.tables := by
  refine hbooted.laidOut.congr ?_ fun _ hu ↦ hbooted.walk_eq hu
  rw [hbooted.handover_eq]
  exact h.upper_v_addr_start _ _

section

variable (happart : Apart alloc firmware.kernel_ptr.toNat
  (imageEnd firmware.kernel_ptr virtual_base next_v_addr)) {mem : Bytes}

include halloc happart in
/-- Where no zero-fill leaves the image, the tables are built in memory. -/
theorem backed_of_fillInImage (h : Bootable segments virtual_base next_v_addr firmware)
    (hfill : ∀ segment ∈ loads segments, segment.FillInImage virtual_base next_v_addr)
    (mem : Bytes) : Backed (HandedOut alloc)
      (setupUefiAndExit alloc segments virtual_base next_v_addr firmware (Ram.start mem))
      (buildTables alloc segments virtual_base next_v_addr firmware VirtualMapBuilder.tables)
      (copySegments firmware.kernel_ptr virtual_base segments mem) :=
  setupUefiAndExit_backed halloc.isPage (fun n _ ha ↦ ⟨n, ha⟩)
    (fun _ hlo hhi ↦ happart.not_within hlo hhi) halloc h.switcher
    (fun _ hsegment ↦ (writesWithin_iff h.linked hsegment).mpr (hfill _ hsegment)) mem

/-- Where `setup_uefi_and_exit` comes to `finish`, no zero-fill has left the image. -/
theorem fillInImage_of_ok (h : Bootable segments virtual_base next_v_addr firmware) {out : Handover}
    {m m' : Ram} (hok : setupUefiAndExit alloc segments virtual_base next_v_addr firmware m =
      .ok out m') :
    ∀ segment ∈ loads segments, segment.FillInImage virtual_base next_v_addr := by
  obtain ⟨⟨⟩, m₁, hload, -⟩ := exists_of_run_bind_ok hok
  exact fun segment hsegment ↦ (writesWithin_iff h.linked hsegment).mp
    (writesWithin_of_loadSegments hload segment hsegment)

include halloc h happart

/-- Whenever `setup_uefi_and_exit` comes to `finish`, the kernel finds the layout it is to find.
Nothing but the image and the page tables was written. -/
theorem booted_of_ok {out : Handover} {m : Ram}
    (hok : setupUefiAndExit alloc segments virtual_base next_v_addr firmware (Ram.start mem) =
      .ok out m) :
    (∃ s, Booted alloc segments virtual_base next_v_addr firmware out m s) ∧
      ∀ p, ¬ Within (HandedOut alloc) p →
        m.mem p = copySegments firmware.kernel_ptr virtual_base segments mem p := by
  have hbacked := backed_of_fillInImage halloc happart h (fillInImage_of_ok h hok) mem
  obtain ⟨s, hs⟩ := hbacked.exists_iff.mp ⟨m, hok⟩
  obtain ⟨s₁, pml4, hs₁, hintact, ha, hfinish, rfl⟩ := exists_of_buildTables_ok halloc h hs
  obtain ⟨-, -, hfinished, hself, -, -⟩ := VirtualMapBuilder.finish_spec (by decide) hintact hfinish
  have hholds := hbacked.holds
  have hrest := hbacked.rest _ (by rw [hok, answer_ok])
  rw [hok, hs, after_ok, after_ok] at hholds
  rw [hok, after_ok] at hrest
  have hprovided : ∀ a, s.store (.page a) ≠ none → Provided alloc s a := fun a hsome ↦ by
    obtain ⟨t, ht⟩ := Option.ne_none_iff_exists'.mp hsome
    obtain ⟨b, hb, hl⟩ := exists_provided halloc h hs ht
    rwa [Loc.page.inj hl]
  exact ⟨⟨s, hs, rfl, halloc.page ha, hfinished, hself, ⟨hholds.part, hprovided⟩,
    h.laidOut halloc hs₁ hfinish⟩, hrest⟩

/-- Without a refused page table, and with no zero-fill that leaves the image, it comes there. -/
theorem exists_booted
    (hfill : ∀ segment ∈ loads segments, segment.FillInImage virtual_base next_v_addr)
    (hall : Ram.Granted alloc (setupUefiAndExit alloc segments virtual_base next_v_addr firmware)
      (Ram.start mem)) :
    ∃ out m, setupUefiAndExit alloc segments virtual_base next_v_addr firmware (Ram.start mem) =
      .ok out m := by
  have hbacked := backed_of_fillInImage halloc happart h hfill mem
  obtain ⟨out, s, hs⟩ := exists_buildTables halloc h ((hbacked.granted rfl).mp hall)
  obtain ⟨m, hm⟩ := hbacked.exists_iff.mpr ⟨s, hs⟩
  exact ⟨out, m, hm⟩

/-- The bootloader does not panic, and the kernel finds the pages it is to find, exactly if no
zero-fill leaves the image. -/
theorem setupUefiAndExit_iff
    (hall : Ram.Granted alloc (setupUefiAndExit alloc segments virtual_base next_v_addr firmware)
      (Ram.start mem)) :
    (∃ out m, setupUefiAndExit alloc segments virtual_base next_v_addr firmware (Ram.start mem) =
        .ok out m ∧ LaidOut segments virtual_base next_v_addr firmware out m.mem.tables) ↔
      ∀ segment ∈ loads segments, segment.FillInImage virtual_base next_v_addr := by
  constructor
  · rintro ⟨out, m, hok, -⟩
    exact fillInImage_of_ok h hok
  · intro hfill
    obtain ⟨out, m, hok⟩ := exists_booted halloc h happart hfill hall
    obtain ⟨⟨s, hbooted⟩, -⟩ := booted_of_ok halloc h happart hok
    exact ⟨out, m, hok, hbooted.laidOut_mem h⟩

end

/-- A kernel of two segments and a framebuffer that starts inside a page.  The zero-fill of the
code is misplaced, but stays in the image. -/
theorem setupUefiAndExit_two_segments :
    let code : ElfSegment64 :=
      ⟨.Load, [0x90], ElfProgramFlags.EXECUTABLE, 0xffffffff80000000, 0, 0x1800, 0x1000⟩
    let data : ElfSegment64 :=
      ⟨.Load, [], ElfProgramFlags.WRITABLE, 0xffffffff80002000, 0, 0x1000, 0x1000⟩
    let firmware : Firmware := ⟨0x100000, 0x6000000, 0x200000, 0x80000123, 0x2000⟩
    ∃ out m, setupUefiAndExit (firstPages 7) [code, data] 0xffffffff80000000 0xffffffff80003000
        firmware (Ram.start fun _ ↦ 0xCC) = .ok out m ∧
      LaidOut [code, data] 0xffffffff80000000 0xffffffff80003000 firmware out m.mem.tables := by
  intro code data firmware
  have halloc : Documented (firstPages 7) := documented_firstPages (by omega)
  have hloads : loads [code, data] = [code, data] := rfl
  have hboot : Bootable [code, data] 0xffffffff80000000 0xffffffff80003000 firmware :=
    { linked := linked_of_kernelVirtualAddresses (by decide)
      upper := by decide
      next_upper := by decide
      aligned := by decide
      disjoint := hloads ▸ List.pairwise_pair.mpr fun _ ↦
        ElfSegment64.not_onPage_of_le (by decide)
      kernel_ptr := by decide
      kernel_frames := by decide
      switcher := by decide
      switcher_lt := by decide
      stack_ptr := by decide
      stack_frames := by decide
      fb_frames := by decide
      room := by decide }
  have happart : Apart (firstPages 7) firmware.kernel_ptr.toNat
      (imageEnd firmware.kernel_ptr 0xffffffff80000000 0xffffffff80003000) :=
    apart_firstPages (by omega) (by decide) _
  have hfill : ∀ segment ∈ loads [code, data],
      segment.FillInImage 0xffffffff80000000 0xffffffff80003000 := by decide
  have htables : Granted (firstPages 7) (buildTables (firstPages 7) [code, data] 0xffffffff80000000
      0xffffffff80003000 firmware) VirtualMapBuilder.tables :=
    granted_firstPages (by decide +kernel)
  have hbacked := backed_of_fillInImage halloc happart hboot hfill fun _ ↦ 0xCC
  exact (setupUefiAndExit_iff halloc hboot happart ((hbacked.granted rfl).mpr htables)).mpr hfill

/-- A page of data, the last of the image, with eight bytes in the file.  Its zero-fill runs eight
bytes past the image.  The firmware is free to hand out what is there for a page table, and then
the entry that maps the code is cleared. -/
theorem zero_fill_clears_page_table :
    let code : ElfSegment64 :=
      ⟨.Load, [0x90, 0xC3], ElfProgramFlags.EXECUTABLE, 0xffffffff80000000, 0, 2, 0x1000⟩
    let data : ElfSegment64 := ⟨.Load, List.replicate 8 1, ElfProgramFlags.WRITABLE,
      0xffffffff80001000, 0, 0x1000, 0x1000⟩
    let firmware : Firmware := ⟨0x100000, 0x6000000, 0x200000, 0x80000000, 0x2000⟩
    let pages : List PAddr := [⟨0x104000⟩, ⟨0x103000⟩, ⟨0x102000⟩, ⟨0x105000⟩, ⟨0x106000⟩,
      ⟨0x107000⟩, ⟨0x108000⟩]
    let alloc : NewPageTable := fun n ↦ pages[n]?
    let m := Ram.start fun _ ↦ 0xCC
    let loaded := after (loadSegments (VirtualMapBuilder.new 510 alloc) firmware.kernel_ptr
      0xffffffff80000000 0xffffffff80002000 [code] m)
    let cleared := copySegment firmware.kernel_ptr 0xffffffff80000000 data loaded.mem
    Documented alloc ∧ Bootable [code, data] 0xffffffff80000000 0xffffffff80002000 firmware ∧
      Apart alloc 0x100000 (imageEnd 0x100000 0xffffffff80000000 0xffffffff80002000) ∧
      Ram.Granted alloc
        (setupUefiAndExit alloc [code, data] 0xffffffff80000000 0xffffffff80002000 firmware) m ∧
      (¬ ∃ out m', setupUefiAndExit alloc [code, data] 0xffffffff80000000 0xffffffff80002000
          firmware m = .ok out m' ∧
        LaidOut [code, data] 0xffffffff80000000 0xffffffff80002000 firmware out m'.mem.tables) ∧
      translate loaded.tables.store .own ⟨0xffffffff80000000⟩ = some ⟨0x100000⟩ ∧
      translate { loaded with mem := cleared }.tables.store .own ⟨0xffffffff80000000⟩ = none := by
  intro code data firmware pages alloc m loaded cleared
  have hpages : ∀ a ∈ pages, a.IsPage ∧
      (a.addr.toNat + PAGE_SIZE ≤ 0x100000 ∨ 0x102000 ≤ a.addr.toNat) := by decide
  have hmem : ∀ {n a}, alloc n = some a → a ∈ pages := List.mem_of_getElem?
  refine ⟨⟨fun ha ↦ (hpages _ (hmem ha)).1, fun {n k a} hn hk ↦ ?_⟩, ?_,
    fun n a ha ↦ (hpages a (hmem ha)).2, fun n _ hn ↦ ?_, ?_, ?_, ?_⟩
  · have hnodup : pages.Nodup := by decide
    exact (List.getElem?_inj (List.getElem?_eq_some_iff.mp hn).1 hnodup).mp (hn.trans hk.symm)
  · exact
      { linked := linked_of_kernelVirtualAddresses (by decide)
        upper := by decide
        next_upper := by decide
        aligned := by decide
        disjoint := (show loads [code, data] = [code, data] from rfl) ▸
          List.pairwise_pair.mpr fun _ ↦ ElfSegment64.not_onPage_of_le (by decide)
        kernel_ptr := by decide
        kernel_frames := by decide
        switcher := by decide
        switcher_lt := by decide
        stack_ptr := by decide
        stack_frames := by decide
        fb_frames := by decide
        room := by decide }
  · have hcalls : (after (setupUefiAndExit alloc [code, data] 0xffffffff80000000
        0xffffffff80002000 firmware m)).calls ≤ pages.length := by decide +kernel
    exact fun hnone ↦ absurd (List.getElem?_eq_none_iff.mp hnone) (by omega)
  · have hanswer : answer (setupUefiAndExit alloc [code, data] 0xffffffff80000000
        0xffffffff80002000 firmware m) = .error .undefined := by decide +kernel
    rintro ⟨out, m', hok, -⟩
    rw [hok] at hanswer
    cases hanswer
  · decide +kernel
  · decide +kernel

end Elpytios
