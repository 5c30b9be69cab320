import Elpytios.Bootloader.Bounds
import Elpytios.Elf.Sections

/-!
# Building the bootloader

The constants of `bootloader/src/main.rs`, which are computed from the file of the kernel while
the bootloader is built.  Where the build does not succeed there is no result.

`KERNEL_SEGMENTS` is an array with an element for each program header the file is said to have.
It is filled through a pointer by what the iterator on the segments gives, and used as it is then.
Neither reaches beyond the array or leaves an element of it out, as the iterator gives the right
number of segments wherever the build goes on (`kernelSegmentArray_iff`).  `build_iff` says which
files the build comes to its end on, and with which constants.
-/

namespace Elpytios

open ByteOrder Cursor

/-! ## Going through the tables of a file -/

/-- What a `for` loop on an iterator goes through. -/
def Entries.items {Item : Type} (next : Entries → Option Item × Entries) (self : Entries) :
    List Item :=
  collect next self.len.toNat self

theorem Entries.yields_items {T Item : Type} [AnyBitPattern T]
    (item : Reader → T → Except ElfError Item) (self : Entries) :
    Yields (Entries.next item) self (self.items (Entries.next item)) := by
  refine yields_collect (fun self ↦ self.len.toNat) (fun self x hx ↦ ?_) le_rfl
  have hlen : self.len ≠ 0 := fun hc ↦ by simp [Entries.next_of_len_eq_zero hc] at hx
  have hpos : 1 ≤ self.len.toNat := Nat.one_le_iff_ne_zero.mpr fun hc ↦
    hlen (BitVec.eq_of_toNat_eq hc)
  have hsub : (self.len - 1).toNat = self.len.toNat - 1 :=
    BitVec.toNat_sub_of_le (BitVec.le_def.mpr hpos)
  by_cases hle : AnyBitPattern.size T ≤ self.table_reader.bytes.length
  · rw [Entries.next_of_le hlen hle]
    change (self.len - 1).toNat < _
    omega
  · rw [Entries.next_of_lt hlen (by omega)] at hx
    cases hx

/-! ## The constants -/

/-- `KERNEL_BINARY`. -/
def kernelBinary (file : List Byte) : Option Elf64 :=
  match Elf.from_bytes file with
  | some (.ok elf) => some elf
  | _ => none

/-- `out` and `ptr` of `KERNEL_SEGMENTS`.  Elements that have not been written are `none`. -/
structure SegmentArray where
  out : List (Option ElfSegment64)
  ptr : ℕ
deriving DecidableEq, Repr

namespace SegmentArray

def uninit (count : ℕ) : SegmentArray := ⟨List.replicate count none, 0⟩

/-- `ptr.write(segment)`, which has to be in the array, and `ptr.add(1)`. -/
def write (self : SegmentArray) (segment : ElfSegment64) : Option SegmentArray :=
  if self.ptr < self.out.length then some ⟨self.out.set self.ptr (some segment), self.ptr + 1⟩
  else none

/-- `assume_init`, which all elements have to have been written for. -/
def assume_init (self : SegmentArray) : Option (List ElfSegment64) := initialised self.out
where
  initialised : List (Option ElfSegment64) → Option (List ElfSegment64)
    | [] => some []
    | slot :: rest => slot.bind fun segment ↦ (initialised rest).map (segment :: ·)

end SegmentArray

/-- The loop of `KERNEL_SEGMENTS`. -/
def fillSegments : List (Except ElfError ElfSegment64) → SegmentArray → Option SegmentArray
  | [], array => some array
  | .error _ :: _, _ => none
  | .ok segment :: rest, array =>
      if segment.alignment ≠ pageSizeWord then none
      else (array.write segment).bind (fillSegments rest)

/-- `KERNEL_SEGMENTS`, as it is computed. -/
def kernelSegmentArray (elf : Elf64) : Option (List ElfSegment64) :=
  (fillSegments (elf.program_segments.items Elf64Programs.next)
    (.uninit elf.program_header_count)).bind SegmentArray.assume_init

/-- `next_multiple_of(PAGE_SIZE)` while the bootloader is built.  Where the result has no room in
a word the build fails. -/
def nextPage (x : Word) : Option Word :=
  if x % pageSizeWord ≠ 0 ∧ 2 ^ 64 ≤ x.toNat - x.toNat % PAGE_SIZE + PAGE_SIZE then none
  else some (next_multiple_of x pageSizeWord)

/-- The loop of `KERNEL_BOOTINFO_ADDRESS`. -/
def findBootinfo (elf : Elf64) : List (Except ElfError ElfSection64) → Option Word
  | [] => some 0
  | .error _ :: _ => none
  | .ok section_ :: rest =>
      match section_.name elf with
      | none => none
      | some name =>
          if name = bootinfoName then nextPage section_.virtual_address else findBootinfo elf rest

/-- `KERNEL_BOOTINFO_ADDRESS`. -/
def kernelBootinfoAddress (elf : Elf64) : Option Word :=
  match findBootinfo elf (elf.sections.items Elf64Sections.next) with
  | none => none
  | some ret => if ret = 0 then none else if ret % pageSizeWord ≠ 0 then none else some ret

/-- The constants, and `KERNEL_BINARY.program_entry()`. -/
structure Build where
  kernel_segments : List ElfSegment64
  bootinfo_address : Word
  virtual_base : Word
  next_v_addr : Word
  program_entry : Word
deriving DecidableEq, Repr

/-- What the bootloader knows of the kernel once it is built. -/
def build (file : List Byte) : Option Build := do
  let elf ← kernelBinary file
  let kernel_segments ← kernelSegmentArray elf
  let bootinfo_address ← kernelBootinfoAddress elf
  let (virtual_base, next_v_addr) ← kernelVirtualAddresses kernel_segments
  return {
    kernel_segments, bootinfo_address, virtual_base, next_v_addr
    program_entry := elf.program_entry }

/-! ## Filling the array -/

namespace SegmentArray

/-- An array after the given segments were written. -/
def written (count : ℕ) (segments : List ElfSegment64) : SegmentArray :=
  ⟨segments.map some ++ List.replicate (count - segments.length) none, segments.length⟩

theorem write_written {count : ℕ} {segments : List ElfSegment64}
    (h : segments.length < count) (segment : ElfSegment64) :
    (written count segments).write segment = some (written count (segments ++ [segment])) := by
  have hsucc : count - segments.length = count - (segments.length + 1) + 1 := by omega
  have hset : (segments.map some ++ List.replicate (count - segments.length) none).set
      segments.length (some segment) =
        (segments ++ [segment]).map some ++
          List.replicate (count - (segments.length + 1)) none := by
    rw [hsucc, List.replicate_succ, List.set_append_right _ _ (by simp)]
    simp
  rw [write, if_pos (by simp [written]; omega)]
  simp only [written, hset, List.length_append, List.length_singleton]

theorem initialised_eq_some {out : List (Option ElfSegment64)}
    {init : List ElfSegment64} :
    assume_init.initialised out = some init ↔ out = init.map some := by
  induction out generalizing init with
  | nil =>
      cases init <;> simp [assume_init.initialised]
  | cons slot rest ih =>
      rcases slot with _ | segment
      · cases init <;> simp [assume_init.initialised]
      · rw [assume_init.initialised, Option.bind_some, Option.map_eq_some_iff]
        constructor
        · rintro ⟨segments, hsegments, rfl⟩
          rw [ih.mp hsegments, List.map_cons]
        · intro hout
          rcases init with _ | ⟨first, segments⟩
          · cases hout
          · obtain ⟨hfirst, hrest⟩ := List.cons.inj hout
            exact ⟨segments, ih.mpr hrest, by rw [Option.some.inj hfirst]⟩

theorem assume_init_written {count : ℕ} {segments : List ElfSegment64}
    {init : List ElfSegment64} (h : segments.length ≤ count) :
    (written count segments).assume_init = some init ↔
      segments.length = count ∧ init = segments := by
  rw [assume_init, initialised_eq_some, written]
  constructor
  · intro hout
    have hlen : segments.length = count := by
      by_contra hne
      have hmem : none ∈ init.map some := hout ▸ List.mem_append_right _
        (List.mem_replicate.mpr ⟨by omega, rfl⟩)
      simp at hmem
    rw [hlen, Nat.sub_self, List.replicate_zero, List.append_nil] at hout
    exact ⟨hlen, (List.map_injective_iff.mpr (Option.some_injective _) hout).symm⟩
  · rintro ⟨rfl, rfl⟩
    rw [Nat.sub_self, List.replicate_zero, List.append_nil]

end SegmentArray

/-- The segments of items that are all segments, and aligned as the build wants it. -/
theorem fillSegments_eq_some {count : ℕ} {items : List (Except ElfError ElfSegment64)}
    (pre : List ElfSegment64) (hlen : pre.length + items.length ≤ count) {array : SegmentArray} :
    fillSegments items (.written count pre) = some array ↔
      ∃ segments, items = segments.map .ok ∧
        (∀ segment ∈ segments, segment.alignment = pageSizeWord) ∧
        array = .written count (pre ++ segments) := by
  induction items generalizing pre with
  | nil =>
      constructor
      · rintro h
        exact ⟨[], rfl, by simp, by rw [List.append_nil]; exact (Option.some.inj h).symm⟩
      · rintro ⟨segments, hitems, -, rfl⟩
        obtain rfl := List.map_eq_nil_iff.mp hitems.symm
        rw [List.append_nil]
        rfl
  | cons item rest ih =>
      rw [List.length_cons] at hlen
      rcases item with err | segment
      · constructor
        · intro h
          cases h
        · rintro ⟨_ | ⟨segment, segments⟩, hitems, -, -⟩ <;> cases hitems
      · rw [fillSegments]
        split_ifs with halign
        · refine ⟨nofun, ?_⟩
          rintro ⟨_ | ⟨other, segments⟩, hitems, hall, -⟩
          · cases hitems
          · obtain rfl : segment = other := by simpa using (List.cons.inj hitems).1
            exact absurd (hall _ List.mem_cons_self) halign
        · rw [SegmentArray.write_written (by omega), Option.bind_some,
            ih _ (by rw [List.length_append, List.length_singleton]; omega)]
          constructor
          · rintro ⟨segments, rfl, hall, rfl⟩
            refine ⟨segment :: segments, rfl, ?_, by rw [List.append_assoc, List.singleton_append]⟩
            exact List.forall_mem_cons.mpr ⟨not_not.mp halign, hall⟩
          · rintro ⟨_ | ⟨other, segments⟩, hitems, hall, rfl⟩
            · cases hitems
            · obtain ⟨hseg, rfl⟩ := List.cons.inj hitems
              obtain rfl : segment = other := by simpa using hseg
              refine ⟨segments, rfl, fun x hx ↦ hall x (List.mem_cons_of_mem _ hx), ?_⟩
              rw [List.append_assoc, List.singleton_append]

/-- The array holds what the iterator gives, if that is as many segments as the array has
elements. -/
theorem kernelSegmentArray_eq_some {elf : Elf64} {items : List (Except ElfError ElfSegment64)}
    (h : Yields Elf64Programs.next elf.program_segments items)
    (hle : items.length ≤ elf.program_header_count) {segments : List ElfSegment64} :
    kernelSegmentArray elf = some segments ↔
      items = segments.map .ok ∧ segments.length = elf.program_header_count ∧
        ∀ segment ∈ segments, segment.alignment = pageSizeWord := by
  have hitems : elf.program_segments.items Elf64Programs.next = items :=
    (Entries.yields_items Elf64Programs.item _).unique h
  have huninit : SegmentArray.uninit elf.program_header_count =
      .written elf.program_header_count [] := by
    simp [SegmentArray.uninit, SegmentArray.written]
  rw [kernelSegmentArray, hitems, huninit, Option.bind_eq_some_iff]
  simp only [fillSegments_eq_some [] (by simpa using hle), List.nil_append]
  constructor
  · rintro ⟨_, ⟨filled, rfl, hall, rfl⟩, hinit⟩
    obtain ⟨hlen, rfl⟩ := (SegmentArray.assume_init_written (by simpa using hle)).mp hinit
    exact ⟨rfl, hlen, hall⟩
  · rintro ⟨rfl, hlen, hall⟩
    exact ⟨_, ⟨segments, rfl, hall, rfl⟩,
      (SegmentArray.assume_init_written hlen.le).mpr ⟨hlen, rfl⟩⟩

/-- The program header that the iterator reads for segment number `k`. -/
def programHeader (b : List Byte) (k : ℕ) : ElfProgramHeader64 :=
  AnyBitPattern.ofBytes nativeOrder (slice b ((programTable b).readPlace b k) 56)

/-- A program header of a kernel that can be built in: it and its contents lie in the file, and it
asks for pages. -/
structure Buildable (b : List Byte) (k : ℕ) : Prop where
  holds : (programTable b).Holds 56 b k
  contents_le : (programHeader b k).segment_offset.toNat +
    (programHeader b k).segment_file_size.toNat ≤ b.length
  alignment_eq : (programHeader b k).section_alignment = pageSizeWord

section

variable {b : List Byte} {elf : Elf64} (h : Elf.from_bytes b = some (.ok elf))

include h

theorem program_header_count_eq : elf.program_header_count = (programTable b).count :=
  (starts_of_from_bytes h).1.len_eq

/-- The segments of a file as the iterator gives them. -/
theorem segment_getElem? {items : List (Except ElfError ElfSegment64)}
    (hitems : Yields Elf64Programs.next elf.program_segments items) (k : ℕ) :
    items[k]? = if (programTable b).Holds 56 b k then
      some (if (programHeader b k).segment_offset.toNat +
          (programHeader b k).segment_file_size.toNat ≤ b.length then
        .ok (segmentOf b (programHeader b k)) else .error .Eof) else none := by
  have hget := (starts_of_from_bytes h).1.getElem?_of_yields hitems k
  rw [Elf64Programs.item_eq] at hget
  exact hget

/-- The array is filled exactly if every program header can be built in, and then it holds their
segments: the pointer never leaves the array, and no element is left out. -/
theorem kernelSegmentArray_iff {segments : List ElfSegment64} :
    kernelSegmentArray elf = some segments ↔
      segments.length = (programTable b).count ∧ ∀ k < (programTable b).count,
        Buildable b k ∧ segments[k]? = some (segmentOf b (programHeader b k)) := by
  obtain ⟨items, hitems⟩ := elf.program_segments.exists_yields Elf64Programs.item
  have hget := segment_getElem? h hitems
  have hle : items.length ≤ elf.program_header_count := by
    by_contra hlt
    have hholds := (starts_of_from_bytes h).1.holds_of_lt hitems (not_le.mp hlt)
    exact absurd hholds.1 (program_header_count_eq h).ge.not_gt
  rw [kernelSegmentArray_eq_some hitems hle, program_header_count_eq h]
  constructor
  · rintro ⟨rfl, hlen, hall⟩
    refine ⟨hlen, fun k hk ↦ ?_⟩
    have hk' : k < segments.length := hlen.symm ▸ hk
    have hitem := hget k
    rw [List.getElem?_map, List.getElem?_eq_getElem hk', Option.map_some] at hitem
    split_ifs at hitem with hholds hcontents
    · have hsegment : segments[k] = segmentOf b (programHeader b k) :=
        Except.ok.inj (Option.some.inj hitem)
      refine ⟨⟨hholds, hcontents, ?_⟩, by rw [List.getElem?_eq_getElem hk', hsegment]⟩
      rw [← hall _ (List.getElem_mem hk'), hsegment]
      rfl
    · cases Option.some.inj hitem
  · rintro ⟨hlen, hall⟩
    refine ⟨List.ext_getElem? fun k ↦ ?_, hlen, fun segment hsegment ↦ ?_⟩
    · rw [hget k, List.getElem?_map]
      by_cases hk : k < (programTable b).count
      · obtain ⟨⟨hholds, hcontents, -⟩, hsegment⟩ := hall k hk
        rw [if_pos hholds, if_pos hcontents, hsegment]
        rfl
      · rw [if_neg fun hc ↦ hk hc.1, List.getElem?_eq_none (by omega)]
        rfl
    · obtain ⟨k, hk, rfl⟩ := List.mem_iff_getElem.mp hsegment
      obtain ⟨hbuild, hget'⟩ := hall k (hlen ▸ hk)
      rw [List.getElem?_eq_getElem hk] at hget'
      rw [Option.some.inj hget']
      exact hbuild.alignment_eq

end

/-! ## The section of the boot information -/

theorem nextPage_eq_some {x a : Word} : nextPage x = some a ↔
    a.toNat = (x.toNat + (PAGE_SIZE - 1)) / PAGE_SIZE * PAGE_SIZE := by
  have hlt : a.toNat < 2 ^ 64 := a.isLt
  have hmod : x % pageSizeWord = 0 ↔ x.toNat % PAGE_SIZE = 0 := toNat_mod_pageSize_iff
  rw [nextPage]
  split_ifs with hover
  · obtain ⟨hne, hle⟩ := hover
    rw [Ne, hmod] at hne
    refine ⟨nofun, fun ha ↦ ?_⟩
    simp only [PAGE_SIZE] at hne hle ha
    omega
  · have hx : x.toNat + (PAGE_SIZE - 1) < 2 ^ 64 := by
      have hx := x.isLt
      rw [Ne, hmod] at hover
      simp only [PAGE_SIZE] at hover ⊢
      omega
    rw [Option.some_inj, ← toNat_next_multiple_of hx]
    exact ⟨fun ha ↦ ha ▸ rfl, fun ha ↦ (BitVec.eq_of_toNat_eq ha).symm⟩

/-- The search is one by name, and takes the page of what it finds. -/
theorem findBootinfo_eq (elf : Elf64) (items : List (Except ElfError ElfSection64)) :
    findBootinfo elf items =
      match findSection elf bootinfoName items with
      | none => none
      | some none => some 0
      | some (some section_) => nextPage section_.virtual_address := by
  induction items with
  | nil => rfl
  | cons item rest ih =>
      rcases item with err | section_
      · rfl
      · rw [findBootinfo, findSection]
        cases hname : section_.name elf with
        | none => rfl
        | some name =>
            dsimp only
            split_ifs with hwanted
            · rfl
            · exact ih

/-- The search ends at the first section of the name, if it gets there. -/
theorem findBootinfo_eq_some {elf : Elf64} {items : List (Except ElfError ElfSection64)}
    {ret : Word} (hret : ret ≠ 0) : findBootinfo elf items = some ret ↔
      ∃ k section_, FirstNamed elf items bootinfoName k section_ ∧
        nextPage section_.virtual_address = some ret := by
  have hfound : (∃ k section_, FirstNamed elf items bootinfoName k section_ ∧
      nextPage section_.virtual_address = some ret) ↔
        ∃ section_, findSection elf bootinfoName items = some (some section_) ∧
          nextPage section_.virtual_address = some ret := by
    simp only [findSection_eq_some]
    exact exists_comm.trans (by simp only [exists_and_right])
  rw [hfound, findBootinfo_eq]
  rcases hfind : findSection elf bootinfoName items with - | - | section_
  · simp
  · simpa using hret.symm
  · simp

/-- The address of the boot information is the start of a page, not zero, and the first at or
above the start of the first section named `.bootinfo`; all sections before it have to be there
and to have names.  The check of the alignment never fails. -/
theorem kernelBootinfoAddress_iff {elf : Elf64}
    {items : List (Except ElfError ElfSection64)}
    (hitems : Yields Elf64Sections.next elf.sections items) {a : Word} :
    kernelBootinfoAddress elf = some a ↔ a ≠ 0 ∧
      ∃ k section_, FirstNamed elf items bootinfoName k section_ ∧
        a.toNat = (section_.virtual_address.toNat + (PAGE_SIZE - 1)) / PAGE_SIZE * PAGE_SIZE := by
  have hcollect : elf.sections.items Elf64Sections.next = items :=
    (Entries.yields_items Elf64Sections.item _).unique hitems
  simp only [← nextPage_eq_some]
  rw [kernelBootinfoAddress, hcollect]
  have hfound (ha : a ≠ 0) : (∃ k section_, FirstNamed elf items bootinfoName k section_ ∧
      nextPage section_.virtual_address = some a) ↔ findBootinfo elf items = some a :=
    (findBootinfo_eq_some ha).symm
  cases hfind : findBootinfo elf items with
  | none =>
      refine ⟨nofun, ?_⟩
      rintro ⟨ha, hex⟩
      rw [(hfound ha).mp hex] at hfind
      cases hfind
  | some ret =>
      dsimp only
      split_ifs with hzero haligned
      · refine ⟨nofun, ?_⟩
        rintro ⟨ha, hex⟩
        rw [(hfound ha).mp hex] at hfind
        exact absurd (Option.some.inj hfind ▸ hzero) ha
      · obtain ⟨k, section_, -, hpage⟩ := (findBootinfo_eq_some hzero).mp hfind
        have hmod : ret.toNat % PAGE_SIZE = 0 := by
          rw [nextPage_eq_some.mp hpage]
          exact Nat.mul_mod_left _ _
        exact absurd (toNat_mod_pageSize_iff.mpr hmod) haligned
      · constructor
        · rintro h
          obtain rfl := Option.some.inj h
          exact ⟨hzero, (hfound hzero).mpr hfind⟩
        · rintro ⟨ha, hex⟩
          rw [← hfind, (hfound ha).mp hex]

theorem build_eq_some {file : List Byte} {k : Build} : build file = some k ↔
    ∃ elf, Elf.from_bytes file = some (.ok elf) ∧ kernelSegmentArray elf = some k.kernel_segments ∧
      kernelBootinfoAddress elf = some k.bootinfo_address ∧
      kernelVirtualAddresses k.kernel_segments = some (k.virtual_base, k.next_v_addr) ∧
      elf.program_entry = k.program_entry := by
  constructor
  · intro h
    simp only [build, Option.bind_eq_bind, Option.bind_eq_some_iff] at h
    obtain ⟨elf, helf, segments, hsegments, a, ha, ⟨base, next⟩, hbounds, hk⟩ := h
    obtain rfl := Option.some.inj hk
    refine ⟨elf, ?_, hsegments, ha, hbounds, rfl⟩
    rw [kernelBinary] at helf
    split at helf
    · obtain rfl := Option.some.inj helf
      assumption
    · cases helf
  · rintro ⟨elf, helf, hsegments, ha, hbounds, hentry⟩
    have hbinary : kernelBinary file = some elf := by rw [kernelBinary, helf]
    rw [Build.kernel_segments] at hbounds
    simp only [build, hbinary, hsegments, ha, hbounds, hentry, Option.bind_eq_bind,
      Option.bind_some]
    rfl

/-! ## The bounds -/

theorem forall_load_of_loop {segments : List ElfSegment64} {min max : Word} {r : Word × Word}
    (h : virtualAddressesLoop segments min max = some r) :
    ∀ segment ∈ segments, segment.segment_type = .Load ∧ segment.stop < 2 ^ 64 := by
  induction segments generalizing min max with
  | nil => nofun
  | cons segment rest ih =>
      obtain ⟨hload, hstop, -⟩ := of_virtualAddressesLoop_cons h
      refine List.forall_mem_cons.mpr ⟨⟨hload, not_le.mp hstop⟩, ?_⟩
      have hcons := Bounds.virtualAddressesLoop_cons (s := ⟨0, min, max⟩) rest hload hstop
      rw [show virtualAddressesLoop (segment :: rest) min max = some r from h] at hcons
      rcases rest with _ | ⟨other, rest⟩
      · nofun
      · exact ih hcons.symm

/-- The loop comes to its end on segments that are loaded and end before the address space does. -/
theorem exists_loop_eq {segments : List ElfSegment64} (hne : segments ≠ [])
    (hall : ∀ segment ∈ segments, segment.segment_type = .Load ∧ segment.stop < 2 ^ 64) :
    ∃ min max, virtualAddressesLoop segments (BitVec.allOnes 64) 0 = some (min, max) := by
  obtain ⟨min, max, hrounds⟩ := exists_rounds_of_loads hne (fun segment h ↦ (hall segment h).1)
    fun segment h ↦ not_le.mpr (hall segment h).2
  exact ⟨min, max, (Bounds.exists_rounds_iff [] segments _ _ _).mp ⟨_, hrounds⟩⟩

theorem alignBounds_eq_some {min max : Word} {bounds : Word × Word} :
    alignBounds (min, max) = some bounds ↔ min.toNat % PAGE_SIZE = 0 ∧ bounds.1 = min ∧
      bounds.2.toNat = (max.toNat + (PAGE_SIZE - 1)) / PAGE_SIZE * PAGE_SIZE := by
  obtain ⟨lo, hi⟩ := bounds
  have halign : alignBounds (min, max) =
      if min % pageSizeWord ≠ 0 then none else (nextPage max).map (min, ·) := by
    rw [alignBounds, nextPage]
    split_ifs <;> rfl
  rw [halign, ← nextPage_eq_some, ← toNat_mod_pageSize_iff]
  split_ifs with hmin
  · exact iff_of_false not_false fun h ↦ hmin h.1
  · rw [Option.map_eq_some_iff]
    constructor
    · rintro ⟨a, ha, heq⟩
      obtain ⟨rfl, rfl⟩ := Prod.mk.inj heq
      exact ⟨not_not.mp hmin, rfl, ha⟩
    · rintro ⟨-, rfl, ha⟩
      exact ⟨hi, ha, rfl⟩

/-- The bounds are computed exactly if all segments are loaded, none ends past the address space
and the lowest of them begins on a page. -/
theorem kernelVirtualAddresses_eq_some {segments : List ElfSegment64} {bounds : Word × Word} :
    kernelVirtualAddresses segments = some bounds ↔
      (∀ segment ∈ segments, segment.segment_type = .Load ∧ segment.stop < 2 ^ 64) ∧
        IsBounds segments bounds ∧ bounds.1.toNat % PAGE_SIZE = 0 := by
  rw [kernelVirtualAddresses_eq, Option.bind_eq_some_iff]
  constructor
  · rintro ⟨⟨min, max⟩, hloop, halign⟩
    have hall := forall_load_of_loop hloop
    have hloads := loads_eq_self fun segment h ↦ (hall segment h).1
    have hne : segments ≠ [] := by
      rintro rfl
      cases hloop
    obtain ⟨hle, hmem, last, hlast, hmax, hstop⟩ := isBounds_of_loop hne hloop
    obtain ⟨hmod, hmin, hnext⟩ := alignBounds_eq_some.mp halign
    refine ⟨hall, ⟨?_, ?_, ?_⟩, hmin ▸ hmod⟩
    · rw [hloads, hmin]
      exact hle
    · rw [hloads, hmin]
      exact hmem
    · rw [hloads]
      exact ⟨last, hlast, hmax, by rw [hnext, hstop]⟩
  · rintro ⟨hall, ⟨hle, ⟨first, hfirst, hmin⟩, last, hlast, hmax, hnext⟩, hmod⟩
    have hloads := loads_eq_self fun segment h ↦ (hall segment h).1
    rw [hloads] at hle hfirst hlast hmax
    obtain ⟨lo, hi, hloop⟩ := exists_loop_eq (List.ne_nil_of_mem hfirst) hall
    obtain ⟨hle', ⟨first', hfirst', hmin'⟩, last', hlast', hmax', hstop'⟩ :=
      isBounds_of_loop (List.ne_nil_of_mem hfirst) hloop
    have hlo : bounds.1 = lo := BitVec.eq_of_toNat_eq
      (le_antisymm (hmin' ▸ hle first' hfirst') (hmin ▸ hle' first hfirst))
    have hhi : hi.toNat = last.stop :=
      hstop' ▸ le_antisymm (hmax last' hlast') (hmax' last hlast)
    exact ⟨(lo, hi), hloop, alignBounds_eq_some.mpr ⟨hlo ▸ hmod, hlo, by rw [hnext, hhi]⟩⟩

/-! ## The build -/

/-- The constants that the bootloader is built with, as the file has them. -/
structure Constants (file : List Byte) (elf : Elf64) (k : Build) : Prop where
  parsed : Elf.from_bytes file = some (.ok elf)
  length_eq : k.kernel_segments.length = (programTable file).count
  buildable : ∀ i < (programTable file).count, Buildable file i
  getElem? : ∀ i < (programTable file).count,
    k.kernel_segments[i]? = some (segmentOf file (programHeader file i))
  exists_bootinfo : ∃ i section_,
    FirstNamed elf (elf.sections.items Elf64Sections.next) bootinfoName i section_ ∧
      k.bootinfo_address.toNat =
        (section_.virtual_address.toNat + (PAGE_SIZE - 1)) / PAGE_SIZE * PAGE_SIZE
  bootinfo_ne_zero : k.bootinfo_address ≠ 0
  load : ∀ segment ∈ k.kernel_segments, segment.segment_type = .Load ∧ segment.stop < 2 ^ 64
  bounds : IsBounds k.kernel_segments (k.virtual_base, k.next_v_addr)
  base_aligned : k.virtual_base.toNat % PAGE_SIZE = 0
  entry : elf.program_entry = k.program_entry

/-- The build comes to its end exactly if the file is one that the constants can be taken from,
and they are these then. -/
theorem build_iff {file : List Byte} {k : Build} :
    build file = some k ↔ ∃ elf, Constants file elf k := by
  rw [build_eq_some]
  refine exists_congr fun elf ↦ ?_
  have hitems := Entries.yields_items Elf64Sections.item elf.sections
  constructor
  · rintro ⟨hparsed, hsegments, haddress, hbounds, hentry⟩
    obtain ⟨hlen, hall⟩ := (kernelSegmentArray_iff hparsed).mp hsegments
    obtain ⟨hne, hfirst⟩ := (kernelBootinfoAddress_iff hitems).mp haddress
    obtain ⟨hload, his, hmod⟩ := kernelVirtualAddresses_eq_some.mp hbounds
    exact ⟨hparsed, hlen, fun i hi ↦ (hall i hi).1, fun i hi ↦ (hall i hi).2, hfirst, hne, hload,
      his, hmod, hentry⟩
  · rintro ⟨hparsed, hlen, hbuildable, hget, hfirst, hne, hload, his, hmod, hentry⟩
    exact ⟨hparsed, (kernelSegmentArray_iff hparsed).mpr
        ⟨hlen, fun i hi ↦ ⟨hbuildable i hi, hget i hi⟩⟩,
      (kernelBootinfoAddress_iff hitems).mpr ⟨hne, hfirst⟩,
      kernelVirtualAddresses_eq_some.mpr ⟨hload, his, hmod⟩, hentry⟩

/-- All segments of a kernel that can be built in are loaded, and each is made of its program
header. -/
structure Built (file : List Byte) (k : Build) : Prop where
  loads_eq : loads k.kernel_segments = k.kernel_segments
  linked : Linked k.virtual_base k.next_v_addr k.kernel_segments
  length_eq : k.kernel_segments.length = (programTable file).count
  buildable : ∀ i < (programTable file).count, Buildable file i
  getElem? : ∀ i < (programTable file).count,
    k.kernel_segments[i]? = some (segmentOf file (programHeader file i))
  bootinfo_aligned : k.bootinfo_address.toNat % PAGE_SIZE = 0

theorem built_of_build {file : List Byte} {k : Build} (h : build file = some k) : Built file k := by
  obtain ⟨elf, helf, hsegments, ha, hbounds, -⟩ := build_eq_some.mp h
  obtain ⟨hlen, hall⟩ := (kernelSegmentArray_iff helf).mp hsegments
  obtain ⟨items, hitems⟩ := elf.sections.exists_yields Elf64Sections.item
  obtain ⟨-, i, section_, -, hpage⟩ := (kernelBootinfoAddress_iff hitems).mp ha
  have hlinked := linked_of_kernelVirtualAddresses hbounds
  rw [kernelVirtualAddresses_eq, Option.bind_eq_some_iff] at hbounds
  obtain ⟨bounds, hloop, -⟩ := hbounds
  exact {
    loads_eq := loads_eq_self fun segment hsegment ↦ (forall_load_of_loop hloop segment hsegment).1
    linked := hlinked
    length_eq := hlen
    buildable := fun i hi ↦ (hall i hi).1
    getElem? := fun i hi ↦ (hall i hi).2
    bootinfo_aligned := by rw [hpage]; exact Nat.mul_mod_left _ _ }

/-! ## A small kernel -/

/-- A jump and a return, a page for the boot information, and the sections with the names of
sections and with the boot information. -/
def smallKernel : List Byte :=
  [0x7F, 0x45, 0x4C, 0x46, 2, 1, 1, 0] ++ List.replicate 8 0 ++ [2, 0, 62, 0, 1, 0, 0, 0] ++
    [0, 0, 0, 0x80, 0xFF, 0xFF, 0xFF, 0xFF] ++ 64 :: List.replicate 7 0 ++
    176 :: List.replicate 7 0 ++ List.replicate 4 0 ++ [64, 0, 56, 0, 2, 0, 64, 0, 2, 0, 0, 0] ++
  -- the segment of the code
    [1, 0, 0, 0, 5, 0, 0, 0, 0x3B, 1, 0, 0, 0, 0, 0, 0] ++
    [0, 0, 0, 0x80, 0xFF, 0xFF, 0xFF, 0xFF] ++
    List.replicate 8 0 ++ 6 :: List.replicate 7 0 ++ 6 :: List.replicate 7 0 ++
    0 :: 0x10 :: List.replicate 6 0 ++
  -- the segment of the boot information
    [1, 0, 0, 0, 4, 0, 0, 0] ++ List.replicate 8 0 ++ [0, 0x10, 0, 0x80, 0xFF, 0xFF, 0xFF, 0xFF] ++
    List.replicate 8 0 ++ List.replicate 8 0 ++ 0 :: 0x10 :: List.replicate 6 0 ++
    0 :: 0x10 :: List.replicate 6 0 ++
  -- the section of the names
    [0, 0, 0, 0, 3, 0, 0, 0] ++ List.replicate 16 0 ++ [0x30, 1, 0, 0, 0, 0, 0, 0] ++
    11 :: List.replicate 31 0 ++
  -- the section of the boot information
    [1, 0, 0, 0, 8, 0, 0, 0] ++ List.replicate 8 0 ++ [0, 0x10, 0, 0x80, 0xFF, 0xFF, 0xFF, 0xFF] ++
    List.replicate 40 0 ++
  0 :: bootinfoName ++ [0] ++ [0xE9, 0, 0, 0, 0, 0xC3]

/-- The two segments of the small kernel. -/
def smallKernelSegments : List ElfSegment64 :=
  [{ segment_type := .Load, data := [0xE9, 0, 0, 0, 0, 0xC3], flags := ⟨5⟩,
     virtual_address := 0xffffffff80000000, memory_size := 6, alignment := 0x1000,
     physical_address := 0 },
   { segment_type := .Load, data := [], flags := ⟨4⟩, virtual_address := 0xffffffff80001000,
     memory_size := 0x1000, alignment := 0x1000, physical_address := 0 }]

/-- The constants that the small kernel is built in with. -/
def smallKernelBuild : Build where
  kernel_segments := smallKernelSegments
  bootinfo_address := 0xffffffff80001000
  virtual_base := 0xffffffff80000000
  next_v_addr := 0xffffffff80002000
  program_entry := 0xffffffff80000000

theorem build_smallKernel : build smallKernel = some smallKernelBuild := by
  decide +kernel

end Elpytios
