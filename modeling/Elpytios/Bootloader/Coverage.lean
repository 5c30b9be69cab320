import Elpytios.Bootloader.Loading

/-!
# Where the bytes of the segments and of the framebuffer are mapped

The segment loop derives the number of pages of a segment from its size alone.  A segment
that starts inside a page can reach one page more than that, and two segments that meet on
a page map it twice.  The alignment that the build checks is the `p_align` of a segment,
which says nothing about either.  A zero-fill that leaves the image is a third way to fail
(`loadSegments_iff`).

The framebuffer is mapped from the page it starts on, and the pointer that is handed over
is the start of that page.
-/

namespace Elpytios

open Radix

namespace ElfSegment64

/-- The loop maps the page with the given number for the segment. -/
def MapsPage (self : ElfSegment64) (n : ℕ) : Prop :=
  self.virtual_address.toNat / PAGE_SIZE ≤ n ∧
    n < self.virtual_address.toNat / PAGE_SIZE +
      (self.memory_size.toNat + (PAGE_SIZE - 1)) / PAGE_SIZE

instance (self : ElfSegment64) (n : ℕ) : Decidable (self.MapsPage n) :=
  inferInstanceAs (Decidable (_ ∧ _))

end ElfSegment64

/-- Every byte of every segment that is loaded is mapped to its place in the image. -/
def Translated (kernel_ptr virtual_base : Word) (segments : List ElfSegment64) (mem : Memory) :
    Prop :=
  ∀ segment ∈ loads segments, ∀ a : VAddr, segment.virtual_address.toNat ≤ a.addr.toNat →
    a.addr.toNat < segment.stop → ∃ x, translate mem .own a = some x ∧
      x.addr.toNat = kernel_ptr.toNat + (a.addr.toNat - virtual_base.toNat)

/-- No page is mapped twice, the last page of every segment is mapped, be it for another
segment, and the image lies where the entries of a page table can point. -/
structure PagesMeet (kernel_ptr virtual_base : Word) (segments : List ElfSegment64) : Prop where
  once : (loads segments).Pairwise fun a b ↦ ∀ n, a.MapsPage n → ¬ b.MapsPage n
  last : ∀ segment ∈ loads segments, 0 < segment.memory_size.toNat →
    ∃ other ∈ loads segments, other.MapsPage ((segment.stop - 1) / PAGE_SIZE)
  frames : ∀ segment ∈ loads segments, 0 < segment.memory_size.toNat →
    kernel_ptr.toNat + (segment.stop - 1 - virtual_base.toNat) < 2 ^ 52

section

variable {segments : List ElfSegment64} {kernel_ptr virtual_base next_v_addr : Word}
  (hlinked : Linked virtual_base next_v_addr segments)
  (hupper : ∀ segment ∈ loads segments, 2 ^ 64 - 2 ^ 39 ≤ segment.virtual_address.toNat)

include hlinked hupper

theorem usable_segmentRange {r : PageRange}
    (hr : r ∈ (loads segments).map (segmentRange kernel_ptr virtual_base)) : r.Usable 510 := by
  obtain ⟨segment, hsegment, rfl⟩ := List.mem_map.mp hr
  have hstop := hlinked.stop_le segment hsegment
  have hnext := hlinked.next_aligned
  apply usable_of_upper (hupper segment hsegment)
  simp only [PageRange.first, segmentRange, PAGE_SIZE, ElfSegment64.stop] at *
  omega

omit hupper in
/-- All segments map a page to the same frame, the one at its place in the image. -/
theorem toNat_frameOf_segmentRange (hkernel : kernel_ptr.toNat % PAGE_SIZE = 0)
    {segment : ElfSegment64} (hsegment : segment ∈ loads segments) {n : ℕ}
    (hn : segment.MapsPage n) :
    ((segmentRange kernel_ptr virtual_base segment).frameOf n).addr.toNat =
      (kernel_ptr.toNat + (n * PAGE_SIZE - virtual_base.toNat)) % 2 ^ 52 := by
  have hbase := hlinked.base_le segment hsegment
  have haligned := hlinked.base_aligned
  obtain ⟨hlo, -⟩ := hn
  rw [PageRange.frameOf, PAddr.toNat_frame, PageRange.call, BitVec.toNat_add]
  simp only [segmentRange, PageRange.first]
  rw [BitVec.toNat_add, BitVec.toNat_sub_of_le (BitVec.le_def.mpr hbase), BitVec.toNat_ofNat]
  simp only [PAGE_SIZE] at *
  omega

/-- The addresses of a segment are in the last slot of the PML4. -/
theorem addr_of_segment {segment : ElfSegment64} (hsegment : segment ∈ loads segments) {a : VAddr}
    (ha : segment.virtual_address.toNat ≤ a.addr.toNat) :
    a.Canonical ∧ a.slot 3 ≠ 510 ∧ virtual_base.toNat ≤ a.addr.toNat := by
  have hlo := hupper segment hsegment
  have hbase := hlinked.base_le segment hsegment
  refine ⟨Or.inr (by omega), ?_, hbase.trans ha⟩
  rw [Ne, Fin.ext_iff]
  change ¬ a.addr.toNat / 2 ^ 39 % 512 = 510
  omega

variable {alloc : NewPageTable} (halloc : Documented alloc)

include halloc

/-- The segment loop ends without a panic exactly if no page is mapped twice. -/
theorem exists_mapSegments_iff
    (hall : Granted alloc (mapSegments (VirtualMapBuilder.new 510 alloc) kernel_ptr virtual_base
      segments) VirtualMapBuilder.tables) :
    (∃ s', mapSegments (VirtualMapBuilder.new 510 alloc) kernel_ptr virtual_base segments
        VirtualMapBuilder.tables = .ok () s') ↔
      (loads segments).Pairwise fun a b ↦ ∀ n, a.MapsPage n → ¬ b.MapsPage n := by
  have hm : Lawful (VirtualMapBuilder.new 510 alloc).map .own 510 0 :=
    LocalMapper.lawful _ rfl
  have hs := intact_tables halloc 510
  have husable : ∀ r ∈ (loads segments).map (segmentRange kernel_ptr virtual_base), r.Usable 510 :=
    fun r hr ↦ usable_segmentRange hlinked hupper hr
  rw [mapSegments_eq] at hall ⊢
  apply (exists_mapPages_iff hm hs hall).trans
  rw [mappable_ranges_iff husable, List.pairwise_map]
  exact and_iff_right fun r _ c _ ↦ walk_tables c.v_addr

variable (hkernel : kernel_ptr.toNat % PAGE_SIZE = 0)

include hkernel

/-- The physical address behind an address is right if its page is mapped for some segment
and its place in the image is within reach. -/
theorem translate_segment_iff {s' : Tables}
    (hs' : mapSegments (VirtualMapBuilder.new 510 alloc) kernel_ptr virtual_base segments
      VirtualMapBuilder.tables = .ok () s') {a : VAddr} (hcanonical : a.Canonical)
    (hslot : a.slot 3 ≠ 510) (hbase : virtual_base.toNat ≤ a.addr.toNat) :
    (∃ x, translate s'.store .own a = some x ∧
        x.addr.toNat = kernel_ptr.toNat + (a.addr.toNat - virtual_base.toNat)) ↔
      (∃ segment ∈ loads segments, segment.MapsPage a.pageNumber) ∧
        kernel_ptr.toNat + (a.addr.toNat - virtual_base.toNat) < 2 ^ 52 := by
  have hm : Lawful (VirtualMapBuilder.new 510 alloc).map .own 510 0 :=
    LocalMapper.lawful _ rfl
  have hs := intact_tables halloc 510
  have husable : ∀ r ∈ (loads segments).map (segmentRange kernel_ptr virtual_base), r.Usable 510 :=
    fun r hr ↦ usable_segmentRange hlinked hupper hr
  have haligned := hlinked.base_aligned
  rw [mapSegments_eq] at hs'
  have hmapped : ∀ segment ∈ loads segments, segment.MapsPage a.pageNumber →
      ∃ x, translate s'.store .own a = some x ∧ x.addr.toNat =
        (kernel_ptr.toNat + (a.pageNumber * PAGE_SIZE - virtual_base.toNat)) % 2 ^ 52 +
          a.addr.toNat % PAGE_SIZE := by
    intro segment hsegment hn
    have hr := List.mem_map_of_mem (f := segmentRange kernel_ptr virtual_base) hsegment
    obtain ⟨ws, p, hw, hlen, hp⟩ := walk_of_covers hm hs husable hs' hr hn
    obtain ⟨x, hx, hval⟩ := translate_of_walk hw hlen
    rw [hp, toNat_frameOf_segmentRange hlinked hkernel hsegment hn] at hval
    exact ⟨x, hx, hval⟩
  simp only [VAddr.pageNumber, PAGE_SIZE] at hmapped hkernel haligned
  constructor
  · rintro ⟨x, hx, hval⟩
    have hsome : ∃ segment ∈ loads segments, segment.MapsPage a.pageNumber := by
      by_contra hno
      have hnone := walk_of_not_covered hm hs husable hs' hcanonical hslot fun r hr hcov ↦ by
        obtain ⟨segment, hsegment, rfl⟩ := List.mem_map.mp hr
        exact hno ⟨segment, hsegment, hcov⟩
      rw [translate, hnone, walk_tables] at hx
      cases hx
    obtain ⟨segment, hsegment, hn⟩ := hsome
    obtain ⟨y, hy, hval'⟩ := hmapped segment hsegment hn
    obtain rfl := Option.some.inj (hx.symm.trans hy)
    exact ⟨⟨segment, hsegment, hn⟩, by omega⟩
  · rintro ⟨⟨segment, hsegment, hn⟩, hlt⟩
    obtain ⟨x, hx, hval⟩ := hmapped segment hsegment hn
    exact ⟨x, hx, by omega⟩

/-- On page tables alone, the segment loop ends without a panic and maps every byte to its place
exactly if the pages of the segments meet. -/
theorem mapSegments_iff
    (hall : Granted alloc (mapSegments (VirtualMapBuilder.new 510 alloc) kernel_ptr virtual_base
      segments) VirtualMapBuilder.tables) :
    (∃ s', mapSegments (VirtualMapBuilder.new 510 alloc) kernel_ptr virtual_base segments
        VirtualMapBuilder.tables = .ok () s' ∧
      Translated kernel_ptr virtual_base segments s'.store) ↔
      PagesMeet kernel_ptr virtual_base segments := by
  have hmeet := exists_mapSegments_iff hlinked hupper halloc hall
  constructor
  · rintro ⟨s', hs', htranslated⟩
    have htop : ∀ segment ∈ loads segments, 0 < segment.memory_size.toNat →
        (∃ other ∈ loads segments, other.MapsPage ((segment.stop - 1) / PAGE_SIZE)) ∧
          kernel_ptr.toNat + (segment.stop - 1 - virtual_base.toNat) < 2 ^ 52 := by
      intro segment hsegment hpos
      have hstop := hlinked.stop_le segment hsegment
      have hlt := next_v_addr.isLt
      let a : VAddr := ⟨BitVec.ofNat 64 (segment.stop - 1)⟩
      have hval : a.addr.toNat = segment.stop - 1 := by
        rw [BitVec.toNat_ofNat]; exact Nat.mod_eq_of_lt (by omega)
      have hle : segment.virtual_address.toNat ≤ a.addr.toNat := by
        rw [hval, ElfSegment64.stop]; omega
      obtain ⟨hcanonical, hslot, hbase⟩ := addr_of_segment hlinked hupper hsegment hle
      have := (translate_segment_iff hlinked hupper halloc hkernel hs' hcanonical hslot hbase).mp
        (htranslated segment hsegment a hle (by rw [hval, ElfSegment64.stop]; omega))
      rwa [VAddr.pageNumber, hval] at this
    exact ⟨hmeet.mp ⟨s', hs'⟩, fun segment hsegment hpos ↦ (htop segment hsegment hpos).1,
      fun segment hsegment hpos ↦ (htop segment hsegment hpos).2⟩
  · rintro ⟨honce, hlast, hframes⟩
    obtain ⟨s', hs'⟩ := hmeet.mpr honce
    refine ⟨s', hs', fun segment hsegment a hlo hhi ↦ ?_⟩
    obtain ⟨hcanonical, hslot, hbase⟩ := addr_of_segment hlinked hupper hsegment hlo
    have hpos : 0 < segment.memory_size.toNat := by
      rw [ElfSegment64.stop] at hhi; omega
    refine (translate_segment_iff hlinked hupper halloc hkernel hs' hcanonical hslot hbase).mpr
      ⟨?_, ?_⟩
    · -- all pages of the segment but the last are its own
      by_cases hown : segment.MapsPage a.pageNumber
      · exact ⟨segment, hsegment, hown⟩
      · obtain ⟨other, hother, hn⟩ := hlast segment hsegment hpos
        have hpage : a.pageNumber = (segment.stop - 1) / PAGE_SIZE := by
          simp only [ElfSegment64.MapsPage, VAddr.pageNumber, ElfSegment64.stop, PAGE_SIZE]
            at hown hhi ⊢
          omega
        exact ⟨other, hother, hpage ▸ hn⟩
    · have := hframes segment hsegment hpos
      omega

/-- The segment loop ends and maps every byte to its place, exactly if the pages of the segments
meet and no zero-fill leaves the image. -/
theorem loadSegments_iff
    (happart : Apart alloc kernel_ptr.toNat (imageEnd kernel_ptr virtual_base next_v_addr))
    {mem : Bytes} (hall : Ram.Granted alloc (loadSegments (VirtualMapBuilder.new 510 alloc)
      kernel_ptr virtual_base next_v_addr segments) (Ram.start mem)) :
    (∃ m, loadSegments (VirtualMapBuilder.new 510 alloc) kernel_ptr virtual_base next_v_addr
        segments (Ram.start mem) = .ok () m ∧
        Translated kernel_ptr virtual_base segments m.tables.store) ↔
      PagesMeet kernel_ptr virtual_base segments ∧
        ∀ segment ∈ loads segments, segment.FillInImage virtual_base next_v_addr := by
  have hs := intact_tables halloc 510
  have hbacked (hfill : ∀ segment ∈ loads segments, segment.FillInImage virtual_base next_v_addr) :=
    loadSegments_backed halloc.isPage (fun n _ ha ↦ ⟨n, ha⟩)
      (fun _ hlo hhi ↦ happart.not_within hlo hhi) hs (holds_start (HandedOut alloc) mem)
      fun _ hsegment ↦ (writesWithin_iff hlinked hsegment).mpr (hfill _ hsegment)
  have htranslated {m : Ram} {s : Tables} (hholds : Ram.Holds (HandedOut alloc) m s)
      (hs' : mapSegments (VirtualMapBuilder.new 510 alloc) kernel_ptr virtual_base segments
        VirtualMapBuilder.tables = .ok () s) :
      Translated kernel_ptr virtual_base segments m.tables.store ↔
        Translated kernel_ptr virtual_base segments s.store := by
    rw [mapSegments_eq] at hs'
    have hintact := intact_of_mapPages (R := 510) (by decide) halloc hs'
    refine forall₂_congr fun segment hsegment ↦ forall₂_congr fun a hlo ↦ ?_
    have hslot := (addr_of_segment hlinked hupper hsegment hlo).2.1
    rw [translate, translate, hholds.part.walk_of_tree hintact.table hslot]
  have hall' (hfill) := ((hbacked hfill).granted rfl).mp hall
  constructor
  · rintro ⟨m, hm, hmapped⟩
    have hfill : ∀ segment ∈ loads segments, segment.FillInImage virtual_base next_v_addr :=
      fun segment hsegment ↦ (writesWithin_iff hlinked hsegment).mp
        (writesWithin_of_loadSegments hm segment hsegment)
    obtain ⟨s, hs'⟩ := (hbacked hfill).exists_iff.mp ⟨m, hm⟩
    have hholds := (hbacked hfill).holds
    rw [hm, hs'] at hholds
    exact ⟨(mapSegments_iff hlinked hupper halloc hkernel (hall' hfill)).mp
      ⟨s, hs', (htranslated hholds hs').mp hmapped⟩, hfill⟩
  · rintro ⟨hmeet, hfill⟩
    obtain ⟨s, hs', hmapped⟩ :=
      (mapSegments_iff hlinked hupper halloc hkernel (hall' hfill)).mpr hmeet
    obtain ⟨m, hm⟩ := (hbacked hfill).exists_iff.mpr ⟨s, hs'⟩
    have hholds := (hbacked hfill).holds
    rw [hm, hs'] at hholds
    exact ⟨m, hm, (htranslated hholds hs').mpr hmapped⟩

end

/-- Two segments that meet on a page: the second page of the first is the page of the
second. -/
theorem loadSegments_iff_shared_page :
    let text : ElfSegment64 :=
      ⟨.Load, [0x90], ElfProgramFlags.EXECUTABLE, 0xffffffff80000000, 0, 0x1000, 0x1000⟩
    let data : ElfSegment64 :=
      ⟨.Load, [], ElfProgramFlags.WRITABLE, 0xffffffff80001ff0, 0, 0x20, 0x1000⟩
    let bss : ElfSegment64 :=
      ⟨.Load, [], ElfProgramFlags.WRITABLE, 0xffffffff80002010, 0, 0x100, 0x1000⟩
    (∃ m, loadSegments (VirtualMapBuilder.new 510 (firstPages 3)) 0x100000 0xffffffff80000000
        0xffffffff80003000 [text, data, bss] (Ram.start fun _ ↦ 0xCC) = .ok () m ∧
      Translated 0x100000 0xffffffff80000000 [text, data, bss] m.tables.store) ↔
      PagesMeet 0x100000 0xffffffff80000000 [text, data, bss] ∧
        ∀ segment ∈ loads [text, data, bss],
          segment.FillInImage 0xffffffff80000000 0xffffffff80003000 := by
  intro text data bss
  have hlinked : Linked 0xffffffff80000000 0xffffffff80003000 [text, data, bss] :=
    linked_of_kernelVirtualAddresses (by decide)
  have hcalls : (after (loadSegments (VirtualMapBuilder.new 510 (firstPages 3)) 0x100000
      0xffffffff80000000 0xffffffff80003000 [text, data, bss]
        (Ram.start fun _ ↦ 0xCC))).calls ≤ 3 := by decide +kernel
  exact loadSegments_iff hlinked (by decide) (documented_firstPages (by omega)) (by decide)
    (apart_firstPages (by omega) (by decide) _) (Ram.granted_firstPages hcalls)

/-- A segment of 32 bytes across the end of a page passes the checks of the build, and its
second half is not mapped. -/
theorem end_of_segment_not_mapped :
    let text : ElfSegment64 :=
      ⟨.Load, [0x90], ElfProgramFlags.EXECUTABLE, 0xffffffff80000000, 0, 0x1000, 0x1000⟩
    let data : ElfSegment64 :=
      ⟨.Load, [], ElfProgramFlags.WRITABLE, 0xffffffff80001ff0, 0, 0x20, 0x1000⟩
    let r := loadSegments (VirtualMapBuilder.new 510 (firstPages 3)) 0x100000 0xffffffff80000000
      0xffffffff80003000 [text, data] (Ram.start fun _ ↦ 0xCC)
    kernelSegments [text, data] = some [text, data] ∧
      kernelVirtualAddresses [text, data] = some (0xffffffff80000000, 0xffffffff80003000) ∧
      (loads [text, data]).Pairwise ElfSegment64.Disjoint ∧ answer r = .ok () ∧
      translate (after r).tables.store .own ⟨0xffffffff80002000⟩ = none ∧
      ¬ Translated 0x100000 0xffffffff80000000 [text, data] (after r).tables.store := by
  intro text data r
  have hnone : translate (after r).tables.store .own ⟨0xffffffff80002000⟩ = none := by
    decide +kernel
  have hdisjoint : text.Disjoint data := by
    intro x _ hx hx' _
    have h₁ : x < 0xffffffff80001000 := hx
    have h₂ : 0xffffffff80001ff0 ≤ x := hx'
    omega
  refine ⟨by decide, by decide, ?_, by decide +kernel, hnone, fun h ↦ ?_⟩
  · exact (show loads [text, data] = [text, data] from rfl) ▸ List.pairwise_pair.mpr hdisjoint
  · obtain ⟨x, hx, -⟩ := h data (by decide) ⟨0xffffffff80002000⟩ (by decide) (by decide)
    rw [hnone] at hx
    cases hx

/-! ## The framebuffer -/

/-- The pointer handed over leads to the bytes of the framebuffer. -/
def Addresses (frame_buffer : VAddr) (fb_phys fb_size : Word) (mem : Memory) : Prop :=
  ∀ k < fb_size.toNat, ∃ x, translate mem .own ⟨frame_buffer.addr + BitVec.ofNat 64 k⟩ = some x ∧
    x.addr.toNat = fb_phys.toNat + k

section

variable {alloc : NewPageTable} {s : Tables} (hs : Intact alloc .own 510 0 s)
  {next_v_addr fb_phys fb_size : Word} (hnext : next_v_addr.toNat % PAGE_SIZE = 0)
  (hfb : fb_phys.toNat + fb_size.toNat ≤ 2 ^ 52)
  (husable : (frameBufferRange next_v_addr fb_phys fb_size).Usable 510)

include hs hnext hfb husable

/-- The bytes from `next_v_addr` on are those of the framebuffer's first page and the pages
after it. -/
theorem translate_frameBuffer {s' : Tables}
    (hs' : mapPages (VirtualMapBuilder.new 510 alloc).map alloc
      (frameBufferRange next_v_addr fb_phys fb_size).calls s = .ok () s') {k : ℕ}
    (hk : k < fb_size.toNat) :
    ∃ x, translate s'.store .own ⟨next_v_addr + BitVec.ofNat 64 k⟩ = some x ∧
      x.addr.toNat = fb_phys.toNat / PAGE_SIZE * PAGE_SIZE + k := by
  have hm : Lawful (VirtualMapBuilder.new 510 alloc).map .own 510 0 :=
    LocalMapper.lawful _ rfl
  have hpages := toNat_frameBufferPages hfb
  have hle := husable.le
  have haddr : (next_v_addr + BitVec.ofNat 64 k).toNat = next_v_addr.toNat + k := by
    rw [BitVec.toNat_add, BitVec.toNat_ofNat]
    simp only [PageRange.first, frameBufferRange, freeRange, hpages, PAGE_SIZE] at hle hnext
    omega
  -- page `k / PAGE_SIZE` of the range
  have hmaps : (frameBufferRange next_v_addr fb_phys fb_size).Maps
      (VAddr.pageNumber ⟨next_v_addr + BitVec.ofNat 64 k⟩ * PAGE_SIZE)
      ((fb_phys.toNat / PAGE_SIZE + k / PAGE_SIZE) * PAGE_SIZE) := by
    refine ⟨k / PAGE_SIZE, ?_, ?_, rfl⟩
    · simp only [frameBufferRange, freeRange, hpages, PAGE_SIZE]
      omega
    · rw [VAddr.pageNumber, haddr]
      simp only [PageRange.first, frameBufferRange, freeRange, PAGE_SIZE] at hnext ⊢
      omega
  obtain ⟨hcov, hframe⟩ := (PageRange.maps_iff (frames_frameBufferRange next_v_addr hfb)).mp hmaps
  have hrange : ∀ r ∈ [frameBufferRange next_v_addr fb_phys fb_size], r.Usable 510 :=
    List.forall_mem_singleton.mpr husable
  have hflat : [frameBufferRange next_v_addr fb_phys fb_size].flatMap PageRange.calls =
      (frameBufferRange next_v_addr fb_phys fb_size).calls := List.append_nil _
  rw [← hflat] at hs'
  obtain ⟨ws, p, hw, hlen, hp⟩ := walk_of_covers hm hs hrange hs' (List.mem_singleton_self _) hcov
  obtain ⟨x, hx, hval⟩ := translate_of_walk hw hlen
  rw [hp, hframe, haddr] at hval
  have hoff : (next_v_addr.toNat + k) % PAGE_SIZE = k % PAGE_SIZE := by
    rw [Nat.add_mod, hnext, Nat.zero_add, Nat.mod_mod]
  refine ⟨x, hx, ?_⟩
  rw [hval, hoff, Nat.add_mul, Nat.add_assoc, Nat.div_add_mod']

/-- The framebuffer is mapped without a panic, and the pointer leads to it exactly if it
starts on a page. -/
theorem mapFrameBuffer_iff (hsize : 0 < fb_size.toNat)
    (hfree : ∀ u : VAddr, (frameBufferRange next_v_addr fb_phys fb_size).Covers u.pageNumber →
      walk s.store .own u = none)
    (hall : Granted alloc (mapFrameBuffer (VirtualMapBuilder.new 510 alloc) next_v_addr fb_phys
      fb_size) s) :
    (∃ out s', mapFrameBuffer (VirtualMapBuilder.new 510 alloc) next_v_addr fb_phys fb_size s =
        .ok out s' ∧ Addresses out.1 fb_phys fb_size s'.store) ↔
      fb_phys.toNat % PAGE_SIZE = 0 := by
  have hm : Lawful (VirtualMapBuilder.new 510 alloc).map .own 510 0 :=
    LocalMapper.lawful _ rfl
  have hrange : ∀ r ∈ [frameBufferRange next_v_addr fb_phys fb_size], r.Usable 510 :=
    List.forall_mem_singleton.mpr husable
  have heq := nextFreePage_eq (VirtualMapBuilder.new 510 alloc) next_v_addr (PAddr.new fb_phys)
    (frameBufferPages fb_phys fb_size) frameBufferFlags
  rw [Granted, mapFrameBuffer, heq, after_bind_pure] at hall
  have hmappable : Mappable .own 510 s (frameBufferRange next_v_addr fb_phys fb_size).calls := by
    have hflat : [frameBufferRange next_v_addr fb_phys fb_size].flatMap PageRange.calls =
        (frameBufferRange next_v_addr fb_phys fb_size).calls := List.append_nil _
    rw [← hflat]
    refine (mappable_ranges_iff hrange).mpr ⟨?_, List.pairwise_singleton _ _⟩
    refine List.forall_mem_singleton.mpr fun c hc ↦ ?_
    obtain ⟨i, hi, rfl⟩ := PageRange.mem_calls.mp hc
    exact hfree _ (PageRange.covers_call husable hi)
  obtain ⟨s', hs'⟩ := exists_mapPages hm hs hmappable hall
  have hrun : mapFrameBuffer (VirtualMapBuilder.new 510 alloc) next_v_addr fb_phys fb_size s =
      .ok (VAddr.new next_v_addr,
        next_v_addr + frameBufferPages fb_phys fb_size * pageSizeWord) s' := by
    rw [mapFrameBuffer, heq]
    exact run_bind_ok hs'
  constructor
  · rintro ⟨out, s₁, hout, haddresses⟩
    obtain ⟨rfl, rfl⟩ : _ = out ∧ s' = s₁ := by simpa using hrun.symm.trans hout
    obtain ⟨x, hx, hval⟩ := haddresses 0 hsize
    obtain ⟨y, hy, hval'⟩ := translate_frameBuffer hs hnext hfb husable hs' hsize
    obtain rfl := Option.some.inj (hx.symm.trans hy)
    simp only [PAGE_SIZE] at hval' ⊢
    omega
  · intro haligned
    refine ⟨_, s', hrun, fun k hk ↦ ?_⟩
    obtain ⟨x, hx, hval⟩ := translate_frameBuffer hs hnext hfb husable hs' hk
    refine ⟨x, hx, ?_⟩
    simp only [PAGE_SIZE] at hval haligned
    omega

end

/-- A framebuffer of one page and a half. -/
theorem mapFrameBuffer_iff_two_pages :
    (∃ out s', mapFrameBuffer (VirtualMapBuilder.new 510 (firstPages 3)) 0xffffffff80003000
        0x80000000 0x1800 VirtualMapBuilder.tables = .ok out s' ∧
      Addresses out.1 0x80000000 0x1800 s'.store) ↔
      (0x80000000 : Word).toNat % PAGE_SIZE = 0 := by
  have hcalls : (after (mapFrameBuffer (VirtualMapBuilder.new 510 (firstPages 3))
      0xffffffff80003000 0x80000000 0x1800 VirtualMapBuilder.tables)).calls = 3 := by
    decide +kernel
  exact mapFrameBuffer_iff (intact_tables (documented_firstPages (by omega)) 510) (by decide)
    (by decide) (usable_of_upper (by decide) (by decide)) (by decide)
    (fun u _ ↦ walk_tables u) (granted_firstPages hcalls.le)

/-- The pointer to a framebuffer that starts inside a page leads to the start of the page. -/
theorem frame_buffer_off_by_page_offset :
    let r := mapFrameBuffer (VirtualMapBuilder.new 510 (firstPages 3)) 0xffffffff80003000
      0x80000123 0x10 VirtualMapBuilder.tables
    answer r = .ok (⟨0xffffffff80003000⟩, 0xffffffff80004000) ∧
      translate (after r).store .own ⟨0xffffffff80003000⟩ = some ⟨0x80000000⟩ ∧
      ¬ Addresses ⟨0xffffffff80003000⟩ 0x80000123 0x10 (after r).store := by
  intro r
  have htranslate : translate (after r).store .own ⟨0xffffffff80003000⟩ = some ⟨0x80000000⟩ := by
    decide +kernel
  refine ⟨by decide +kernel, htranslate, fun h ↦ ?_⟩
  obtain ⟨x, hx, hval⟩ := h 0 (by decide)
  obtain rfl := Option.some.inj (htranslate.symm.trans hx)
  exact absurd hval (by decide)

end Elpytios
