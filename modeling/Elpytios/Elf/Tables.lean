import Elpytios.Elf.Parse
import Elpytios.Lib.Strided

/-!
# The two tables of a file

An iterator keeps the number of entries still to come in `len` and the bytes still to come in its
reader, and can stop on either of them.  It also does not look at whether its reader could go on
by the size of an entry.  Both matter only for a table that runs past the end of the file.
-/

namespace Elpytios

open ByteOrder Cursor

/-! ## Iterators as cursors on a table -/

namespace Entries

/-- Where an iterator stands in its table. -/
def position (self : Entries) : Strided.Position Byte :=
  ⟨self.len.toNat, self.stride.toNat, self.table_reader.bytes⟩

variable {T Item : Type} [AnyBitPattern T] {item : Reader → T → Except ElfError Item}

theorem next_of_len_eq_zero {self : Entries} (h : self.len = 0) :
    next item self = (none, self) := if_pos h

/-- `next` on an entry that is not there. -/
theorem next_of_lt {self : Entries} (h : self.len ≠ 0)
    (hlt : self.table_reader.bytes.length < AnyBitPattern.size T) :
    next item self = (none, { self with len := self.len - 1 }) := by
  rw [next, if_neg h]
  dsimp only
  rw [Reader.read_of_lt hlt]

/-- `next` on an entry that is there. -/
theorem next_of_le {self : Entries} (h : self.len ≠ 0)
    (hle : AnyBitPattern.size T ≤ self.table_reader.bytes.length) :
    next item self =
      (some (item self.file_reader (AnyBitPattern.ofBytes nativeOrder
          (self.table_reader.bytes.take (AnyBitPattern.size T)))),
        { self with
          len := self.len - 1
          table_reader := ⟨Strided.advance self.stride.toNat self.table_reader.bytes⟩ }) := by
  rw [next, if_neg h]
  dsimp only
  rw [Reader.read_of_le hle]
  have hskip : (self.table_reader.take self.stride.toNat).2 =
      ⟨Strided.advance self.stride.toNat self.table_reader.bytes⟩ := by
    rw [Strided.advance]
    split_ifs with hstride
    · rw [Reader.take_of_le hstride]
    · rw [Reader.take_of_lt (Nat.lt_of_not_le hstride)]
  rw [hskip]

/-- An iterator goes in step with the cursor on its table. -/
theorem inStep (file_reader : Reader) :
    InStep (next item) (Strided.next (AnyBitPattern.size T))
      (fun bytes ↦ item file_reader (AnyBitPattern.ofBytes nativeOrder bytes))
      fun s p ↦ s.position = p ∧ s.file_reader = file_reader := by
  rintro s p ⟨rfl, rfl⟩
  by_cases hlen : s.len = 0
  · have hleft : s.position.left = 0 := by rw [position, hlen]; rfl
    rw [next_of_len_eq_zero hlen, Strided.next, if_pos hleft]
    exact ⟨rfl, rfl, rfl⟩
  have hleft : s.position.left ≠ 0 := fun h ↦ hlen (BitVec.eq_of_toNat_eq h)
  have hpred : (s.len - 1).toNat = s.len.toNat - 1 :=
    BitVec.toNat_sub_of_le (BitVec.le_def.mpr (Nat.pos_of_ne_zero hleft))
  by_cases hsize : AnyBitPattern.size T ≤ s.table_reader.bytes.length
  · rw [next_of_le hlen hsize, Strided.next_of_fits hleft hsize]
    refine ⟨rfl, ?_, rfl⟩
    simp only [position, hpred]
  · rw [next_of_lt hlen (Nat.lt_of_not_le hsize),
      Strided.next_of_lt hleft (Nat.lt_of_not_le hsize)]
    refine ⟨rfl, ?_, rfl⟩
    simp only [position, hpred]

theorem exists_yields (self : Entries) (item : Reader → T → Except ElfError Item) :
    ∃ items, Yields (next item) self items := by
  obtain ⟨xs, hxs⟩ := Strided.exists_yields (AnyBitPattern.size T) self.position
  exact ⟨_, (inStep self.file_reader).yields ⟨rfl, rfl⟩ hxs⟩

/-- The items are made of the entries that fit. -/
theorem getElem?_of_yields {self : Entries} {items : List (Except ElfError Item)}
    (h : Yields (next item) self items) (k : ℕ) :
    items[k]? =
      if Strided.Fits (AnyBitPattern.size T) self.position k then
        some (item self.file_reader (AnyBitPattern.ofBytes nativeOrder
          (Strided.entry (AnyBitPattern.size T) self.position k)))
      else none := by
  obtain ⟨xs, hxs⟩ := Strided.exists_yields (AnyBitPattern.size T) self.position
  rw [h.unique ((inStep self.file_reader).yields ⟨rfl, rfl⟩ hxs), List.getElem?_map,
    Strided.getElem?_of_yields hxs]
  split_ifs
  · rfl
  · rfl

/-- The reader before an entry that fits. -/
theorem table_reader_after {self : Entries} {k : ℕ}
    (h : Strided.Fits (AnyBitPattern.size T) self.position k) :
    (after (next item) k self).table_reader.bytes =
      self.table_reader.bytes.drop (Strided.offset self.position k) := by
  have hrest := Strided.rest_after h
  rwa [← ((inStep self.file_reader).after ⟨rfl, rfl⟩ k).1] at hrest

theorem file_reader_after (self : Entries) (k : ℕ) :
    (after (next item) k self).file_reader = self.file_reader :=
  ((inStep self.file_reader).after ⟨rfl, rfl⟩ k).2

/-- At every point of going through an iterator, `len` and both bounds of `size_hint` are the
number of items that are still to come. -/
def LenExact {Item : Type} (next : Entries → Option Item × Entries) (self : Entries) : Prop :=
  ∀ k, ∃ items, Yields next (after next k self) items ∧
    (after next k self).exactLen = items.length ∧
      (after next k self).size_hint = (items.length, some items.length)

theorem lenExact_iff {Item : Type} {next : Entries → Option Item × Entries} {self : Entries} :
    LenExact next self ↔ Exact next exactLen self := by
  refine forall_congr' fun k ↦ exists_congr fun items ↦ and_congr_right fun _ ↦ ?_
  constructor
  · exact And.left
  · intro h
    exact ⟨h, Prod.ext h (congrArg some h)⟩

theorem exact_iff (self : Entries) :
    Exact (next item) exactLen self ↔
      ∀ k < self.len.toNat, self.stride.toNat * k ≤ self.table_reader.bytes.length →
        self.stride.toNat * k + AnyBitPattern.size T ≤ self.table_reader.bytes.length := by
  refine ((inStep self.file_reader).exact_iff ?_ (Strided.exists_yields _) ⟨rfl, rfl⟩).trans
    (Strided.exact_iff self.position)
  rintro s p ⟨rfl, -⟩
  rfl

end Entries

/-! ## Where the entries of a file lie -/

/-- A table as the header of the file describes it. -/
structure Table where
  offset : ℕ
  entry_size : ℕ
  count : ℕ

namespace Table

/-- The place in the file of entry number `k`. -/
def place (self : Table) (k : ℕ) : ℕ := self.offset + self.entry_size * k

/-- Where an iterator has come to before entry number `k`: no further than whole entries fit. -/
def readPlace (self : Table) (b : List Byte) (k : ℕ) : ℕ :=
  self.offset + self.entry_size * min k ((b.length - self.offset) / self.entry_size)

/-- An iterator gives an item for entry number `k`. -/
def Holds (self : Table) (size : ℕ) (b : List Byte) (k : ℕ) : Prop :=
  k < self.count ∧ self.readPlace b k + size ≤ b.length

instance (self : Table) (size : ℕ) (b : List Byte) (k : ℕ) : Decidable (self.Holds size b k) :=
  inferInstanceAs (Decidable (_ ∧ _))

/-- No entry that starts within the file, or at its end, runs past the end. -/
def NotCut (self : Table) (size : ℕ) (b : List Byte) : Prop :=
  ∀ k < self.count, self.place k ≤ b.length → self.place k + size ≤ b.length

/-- No entry that lies in the file is followed by one that starts past the end. -/
def NotRefused (self : Table) (size : ℕ) (b : List Byte) : Prop :=
  ∀ k, k + 1 < self.count → self.place k + size ≤ b.length → self.place (k + 1) ≤ b.length

instance (self : Table) (size : ℕ) (b : List Byte) : Decidable (self.NotCut size b) :=
  inferInstanceAs (Decidable (∀ k < _, _))

end Table

def programTable (b : List Byte) : Table where
  offset := (fileHeader b).program_header_table_offset.toNat
  entry_size := (fileHeader b).program_header_entry_size.toNat
  count := (fileHeader b).program_header_entry_len.toNat

def sectionTable (b : List Byte) : Table where
  offset := (fileHeader b).section_header_table_offset.toNat
  entry_size := (fileHeader b).section_header_entry_size.toNat
  count := (fileHeader b).section_header_entry_len.toNat

/-- An iterator at the first entry of a table of a file. -/
structure Starts (b : List Byte) (t : Table) (entries : Entries) : Prop where
  offset_le : t.offset ≤ b.length
  stride_eq : entries.stride.toNat = t.entry_size
  len_eq : entries.len.toNat = t.count
  file_reader_eq : entries.file_reader = ⟨b⟩
  table_reader_eq : entries.table_reader = ⟨b.drop t.offset⟩

/-- The iterators of an accepted file start at its tables. -/
theorem starts_of_from_bytes {b : List Byte} {elf : Elf64}
    (h : Elf.from_bytes b = some (.ok elf)) :
    Starts b (programTable b) elf.program_segments ∧ Starts b (sectionTable b) elf.sections := by
  obtain ⟨-, hprograms, hsections, -, helf⟩ := accepted_of_from_bytes h
  rw [helf]
  exact ⟨⟨hprograms, rfl, rfl, rfl, rfl⟩, ⟨hsections, rfl, rfl, rfl, rfl⟩⟩

namespace Starts

variable {T Item : Type} [AnyBitPattern T] {item : Reader → T → Except ElfError Item}
  {b : List Byte} {t : Table} {entries : Entries}

theorem length_rest (h : Starts b t entries) :
    entries.table_reader.bytes.length = b.length - t.offset := by
  rw [h.table_reader_eq, List.length_drop]

/-- The count of an iterator is exact unless an entry is cut off by the end of the file. -/
theorem exact_iff (h : Starts b t entries) :
    Exact (Entries.next item) Entries.exactLen entries ↔ t.NotCut (AnyBitPattern.size T) b := by
  have hoffset := h.offset_le
  rw [Entries.exact_iff, h.length_rest, h.stride_eq, h.len_eq]
  apply forall₂_congr
  intro k _
  rw [Table.place]
  constructor
  · intro hk hstart
    have := hk (by omega)
    omega
  · intro hk hstart
    have := hk (by omega)
    omega

end Starts

/-! ## Small files -/

/-- The header of a small file. -/
def smallHeader (endian phoff shoff phentsize phnum shnum : Byte) : List Byte :=
  [0x7F, 0x45, 0x4C, 0x46, 2, endian, 1, 0] ++ List.replicate 8 0 ++ [2, 0, 62, 0, 1, 0, 0, 0] ++
    List.replicate 8 0 ++ phoff :: List.replicate 7 0 ++ shoff :: List.replicate 7 0 ++
    List.replicate 4 0 ++ [64, 0, phentsize, 0, phnum, 0, 64, 0, shnum, 0, 0, 0]

/-- A section header of a small file. -/
def smallSection (name section_type offset size : Byte) : List Byte :=
  name :: List.replicate 3 0 ++ section_type :: List.replicate 19 0 ++
    offset :: List.replicate 7 0 ++ size :: List.replicate 31 0

/-- The section without a name, a type or contents. -/
def nullSection : List Byte := smallSection 0 0 0 0

/-- A segment to be loaded, without contents. -/
def smallSegment : List Byte := 1 :: List.replicate 55 0

/-! ## Exact lengths -/

theorem lenExact_program_segments_iff {b : List Byte} {elf : Elf64}
    (h : Elf.from_bytes b = some (.ok elf)) :
    Entries.LenExact Elf64Programs.next elf.program_segments ↔ (programTable b).NotCut 56 b :=
  Entries.lenExact_iff.trans (starts_of_from_bytes h).1.exact_iff

theorem lenExact_sections_iff {b : List Byte} {elf : Elf64}
    (h : Elf.from_bytes b = some (.ok elf)) :
    Entries.LenExact Elf64Sections.next elf.sections ↔ (sectionTable b).NotCut 64 b :=
  Entries.lenExact_iff.trans (starts_of_from_bytes h).2.exact_iff

/-- At every point of going through the tables of an accepted file, `len` and `size_hint` are
exact, and there are as many segments as the header says, exactly if no entry of either table
that starts within the file, or at its end, runs past the end. -/
theorem len_exact_iff {b : List Byte} {elf : Elf64} (h : Elf.from_bytes b = some (.ok elf)) :
    (Entries.LenExact Elf64Programs.next elf.program_segments ∧
      Entries.LenExact Elf64Sections.next elf.sections ∧
      ∃ segments, Yields Elf64Programs.next elf.program_segments segments ∧
        segments.length = elf.program_header_count) ↔
      (programTable b).NotCut 56 b ∧ (sectionTable b).NotCut 64 b := by
  rw [lenExact_program_segments_iff h, lenExact_sections_iff h]
  constructor
  · rintro ⟨hprograms, hsections, -⟩
    exact ⟨hprograms, hsections⟩
  · rintro ⟨hprograms, hsections⟩
    obtain ⟨segments, hsegments, hlen, -⟩ := (lenExact_program_segments_iff h).mpr hprograms 0
    exact ⟨hprograms, hsections, segments, hsegments, hlen.symm⟩

/-- A file with two segments. -/
def twoSegments : List Byte :=
  smallHeader 1 128 64 56 2 1 ++ nullSection ++ smallSegment ++ smallSegment

/-- A file that ends after the first of two segments. -/
def cutSegments : List Byte := smallHeader 1 128 64 56 2 1 ++ nullSection ++ smallSegment

theorem from_bytes_twoSegments :
    Elf.from_bytes twoSegments = some (.ok (.ofFile twoSegments ⟨0, [], 0⟩)) := by
  decide +kernel

theorem from_bytes_cutSegments :
    Elf.from_bytes cutSegments = some (.ok (.ofFile cutSegments ⟨0, [], 0⟩)) := by
  decide +kernel

theorem len_exact_two_segments :
    ∃ segments, Yields Elf64Programs.next
        (Elf64.ofFile twoSegments ⟨0, [], 0⟩).program_segments segments ∧ segments.length = 2 :=
  ((len_exact_iff from_bytes_twoSegments).mpr (by decide +kernel)).2.2

/-- There is one segment where the header says that there are two. -/
theorem len_not_exact_cut_segments :
    ∃ elf, Elf.from_bytes cutSegments = some (.ok elf) ∧ elf.program_header_count = 2 ∧
      (∃ segment, Yields Elf64Programs.next elf.program_segments [.ok segment]) ∧
      ¬ Entries.LenExact Elf64Programs.next elf.program_segments := by
  refine ⟨_, from_bytes_cutSegments, by decide +kernel,
    ⟨⟨.Load, [], ⟨0⟩, 0, 0, 0, 0⟩, .item ?_ (.nothing ?_)⟩, ?_⟩
  · decide +kernel
  · decide +kernel
  · rw [lenExact_program_segments_iff from_bytes_cutSegments]
    decide +kernel

/-! ## Entries in their places -/

/-- The place in the file of the header that `next` reads. -/
def Entries.readPlace (self : Entries) : ℕ :=
  self.file_reader.bytes.length - self.table_reader.bytes.length

/-- Every item is made of the header in its own place, and no header is read twice. -/
structure InPlace {T Item : Type} [AnyBitPattern T]
    (IsItem : List Byte → T → Except ElfError Item → Prop)
    (next : Entries → Option (Except ElfError Item) × Entries) (b : List Byte) (t : Table)
    (entries : Entries) : Prop where
  decodes : ∀ items, Yields next entries items → ∀ k item, items[k]? = some item →
    t.place k + AnyBitPattern.size T ≤ b.length ∧
      IsItem b (AnyBitPattern.ofBytes nativeOrder (slice b (t.place k) (AnyBitPattern.size T))) item
  distinct : ∀ items, Yields next entries items → t.entry_size ≠ 0 →
    ∀ j k, j < items.length → k < items.length → j ≠ k →
      (after next j entries).readPlace ≠ (after next k entries).readPlace

/-- The item that a program header stands for. -/
structure IsSegment (b : List Byte) (header : ElfProgramHeader64)
    (item : Except ElfError ElfSegment64) : Prop where
  ok_iff : (∃ segment, item = .ok segment) ↔
    header.segment_offset.toNat + header.segment_file_size.toNat ≤ b.length
  eq_of_ok : ∀ segment, item = .ok segment → segment = segmentOf b header

/-- The item that a section header stands for. -/
structure IsSection (b : List Byte) (header : ElfSectionHeader64)
    (item : Except ElfError ElfSection64) : Prop where
  ok_iff : (∃ section_, item = .ok section_) ↔
    header.file_offset.toNat + header.size.toNat ≤ b.length
  eq_of_ok : ∀ section_, item = .ok section_ → section_ = sectionOf b header

theorem isSegment_item (b : List Byte) (header : ElfProgramHeader64) :
    IsSegment b header (Elf64Programs.item ⟨b⟩ header) := by
  rw [Elf64Programs.item_eq]
  by_cases h : header.segment_offset.toNat + header.segment_file_size.toNat ≤ b.length
  · rw [if_pos h]
    exact ⟨iff_of_true ⟨_, rfl⟩ h, fun segment hsegment ↦ (Except.ok.inj hsegment).symm⟩
  · rw [if_neg h]
    exact ⟨iff_of_false nofun h, nofun⟩

theorem isSection_item (b : List Byte) (header : ElfSectionHeader64) :
    IsSection b header (Elf64Sections.item ⟨b⟩ header) := by
  rw [Elf64Sections.item_eq]
  by_cases h : header.file_offset.toNat + header.size.toNat ≤ b.length
  · rw [if_pos h]
    exact ⟨iff_of_true ⟨_, rfl⟩ h, fun section_ hsection ↦ (Except.ok.inj hsection).symm⟩
  · rw [if_neg h]
    exact ⟨iff_of_false nofun h, nofun⟩

namespace Starts

variable {T Item : Type} [AnyBitPattern T] {item : Reader → T → Except ElfError Item}
  {IsItem : List Byte → T → Except ElfError Item → Prop}
  {b : List Byte} {t : Table} {entries : Entries}

theorem offset_eq (h : Starts b t entries) (k : ℕ) :
    t.offset + Strided.offset entries.position k = t.readPlace b k := by
  rw [Strided.offset, Table.readPlace, ← h.length_rest, ← h.stride_eq]
  rfl

theorem fits_iff (h : Starts b t entries) {size k : ℕ} :
    Strided.Fits size entries.position k ↔ t.Holds size b k := by
  have hle := h.offset_le
  have hoffset := h.offset_eq k
  have hrest := h.length_rest
  have hlen := h.len_eq
  change (k < entries.len.toNat ∧ _ ≤ entries.table_reader.bytes.length) ↔ _
  rw [Table.Holds]
  omega

/-- The items are made of the headers where the iterator has come to. -/
theorem getElem?_of_yields (h : Starts b t entries) {items : List (Except ElfError Item)}
    (hitems : Yields (Entries.next item) entries items) (k : ℕ) :
    items[k]? =
      if t.Holds (AnyBitPattern.size T) b k then
        some (item ⟨b⟩ (AnyBitPattern.ofBytes nativeOrder
          (slice b (t.readPlace b k) (AnyBitPattern.size T))))
      else none := by
  have hentry : Strided.entry (AnyBitPattern.size T) entries.position k =
      slice b (t.readPlace b k) (AnyBitPattern.size T) := by
    rw [← h.offset_eq, slice, ← List.drop_drop, Strided.entry]
    change (entries.table_reader.bytes.drop _).take _ = _
    rw [h.table_reader_eq]
  rw [Entries.getElem?_of_yields hitems, hentry, h.file_reader_eq]
  simp only [h.fits_iff]

theorem holds_of_lt (h : Starts b t entries) {items : List (Except ElfError Item)}
    (hitems : Yields (Entries.next item) entries items) {k : ℕ} (hk : k < items.length) :
    t.Holds (AnyBitPattern.size T) b k := by
  by_contra hc
  have hnone := h.getElem?_of_yields hitems k
  rw [if_neg hc, List.getElem?_eq_none_iff] at hnone
  exact Nat.not_lt.mpr hnone hk

/-- The place an iterator has come to before an entry. -/
theorem readPlace_after (h : Starts b t entries) {k : ℕ} (hk : t.Holds (AnyBitPattern.size T) b k) :
    (after (Entries.next item) k entries).readPlace = t.readPlace b k := by
  have hoffset := Strided.offset_le entries.position k
  have hle := h.offset_le
  change _ ≤ entries.table_reader.bytes.length at hoffset
  rw [h.length_rest] at hoffset
  rw [Entries.readPlace, Entries.file_reader_after, Entries.table_reader_after (h.fits_iff.mpr hk),
    List.length_drop, h.length_rest, h.file_reader_eq, ← h.offset_eq]
  dsimp only
  omega

theorem readPlace_eq_iff (h : Starts b t entries) {size : ℕ} :
    (∀ k, t.Holds size b k → t.readPlace b k = t.place k) ↔ t.NotRefused size b := by
  have hle := h.offset_le
  have hiff := Strided.offset_eq_mul_iff size entries.position
  change _ ↔ ∀ k, k + 1 < entries.len.toNat →
    entries.stride.toNat * k + _ ≤ entries.table_reader.bytes.length →
      entries.stride.toNat * (k + 1) ≤ entries.table_reader.bytes.length at hiff
  rw [h.length_rest, h.stride_eq, h.len_eq] at hiff
  refine Iff.trans (forall_congr' fun k ↦ ?_) (hiff.trans (forall₂_congr fun k _ ↦ ?_))
  · rw [h.fits_iff, ← h.offset_eq, Table.place, Nat.add_left_cancel_iff, ← h.stride_eq]
    rfl
  · rw [Table.place, Table.place]
    constructor
    · intro hk hsize
      have := hk (by omega)
      omega
    · intro hk hsize
      have := hk (by omega)
      omega

/-- Items are made of the headers in their places unless the iterator cannot go on by the size
of an entry after one that is not the last. -/
theorem inPlace_iff (h : Starts b t entries)
    (hitem : ∀ header, IsItem b header (item ⟨b⟩ header)) :
    InPlace IsItem (Entries.next item) b t entries ↔ t.NotRefused (AnyBitPattern.size T) b := by
  rw [← h.readPlace_eq_iff]
  have hle := h.offset_le
  constructor
  · intro hplace k hk
    obtain ⟨items, hitems⟩ := entries.exists_yields item
    have hget := h.getElem?_of_yields hitems k
    rw [if_pos hk] at hget
    have hsize := (hplace.decodes items hitems k _ hget).1
    rw [Table.place] at hsize
    rw [← h.offset_eq, Table.place, ← h.stride_eq]
    refine congrArg _ (Strided.offset_of_le ?_)
    change entries.stride.toNat * k ≤ entries.table_reader.bytes.length
    rw [h.length_rest, h.stride_eq]
    omega
  · intro hplace
    constructor
    · intro items hitems k x hx
      have hk := h.holds_of_lt hitems (List.getElem?_eq_some_iff.mp hx).1
      rw [h.getElem?_of_yields hitems, if_pos hk, hplace k hk] at hx
      obtain rfl := Option.some.inj hx
      exact ⟨hplace k hk ▸ hk.2, hitem _⟩
    · intro items hitems hsize j k hj hk hjk heq
      have hj' := h.holds_of_lt hitems hj
      have hk' := h.holds_of_lt hitems hk
      rw [h.readPlace_after hj', h.readPlace_after hk', hplace j hj', hplace k hk'] at heq
      exact hjk (Nat.eq_of_mul_eq_mul_left (Nat.pos_of_ne_zero hsize) (Nat.add_left_cancel heq))

end Starts

/-- Every segment and section of an accepted file is made of the header in its own place, exactly
if no entry of either table that lies in the file is followed by one that starts past its end. -/
theorem in_place_iff {b : List Byte} {elf : Elf64} (h : Elf.from_bytes b = some (.ok elf)) :
    (InPlace IsSegment Elf64Programs.next b (programTable b) elf.program_segments ∧
      InPlace IsSection Elf64Sections.next b (sectionTable b) elf.sections) ↔
      (programTable b).NotRefused 56 b ∧ (sectionTable b).NotRefused 64 b :=
  and_congr ((starts_of_from_bytes h).1.inPlace_iff (isSegment_item b))
    ((starts_of_from_bytes h).2.inPlace_iff (isSection_item b))

theorem in_place_two_segments :
    InPlace IsSegment Elf64Programs.next twoSegments (programTable twoSegments)
        (Elf64.ofFile twoSegments ⟨0, [], 0⟩).program_segments ∧
      InPlace IsSection Elf64Sections.next twoSegments (sectionTable twoSegments)
        (Elf64.ofFile twoSegments ⟨0, [], 0⟩).sections :=
  (in_place_iff from_bytes_twoSegments).mpr
    ⟨fun k hk _ ↦
        (by decide +kernel : ∀ k < 2, (programTable twoSegments).place k ≤ 240) (k + 1) hk,
      fun k hk _ ↦ absurd hk (by
        have : (sectionTable twoSegments).count = 1 := by decide +kernel
        omega)⟩

/-- A file that ends after the first of two segments, with larger entries than headers. -/
def refusedSegments : List Byte := smallHeader 1 128 64 64 2 1 ++ nullSection ++ smallSegment

theorem from_bytes_refusedSegments :
    Elf.from_bytes refusedSegments = some (.ok (.ofFile refusedSegments ⟨0, [], 0⟩)) := by
  decide +kernel

/-- The first segment is given twice. -/
theorem not_in_place_refused_segments :
    ∃ elf, Elf.from_bytes refusedSegments = some (.ok elf) ∧
      (∃ segment, Yields Elf64Programs.next elf.program_segments [.ok segment, .ok segment]) ∧
      elf.program_segments.readPlace = (Elf64Programs.next elf.program_segments).2.readPlace ∧
      ¬ InPlace IsSegment Elf64Programs.next refusedSegments (programTable refusedSegments)
        elf.program_segments := by
  refine ⟨_, from_bytes_refusedSegments,
    ⟨⟨.Load, [], ⟨0⟩, 0, 0, 0, 0⟩, .item ?_ (.item ?_ (.nothing ?_))⟩, ?_, ?_⟩
  · decide +kernel
  · decide +kernel
  · decide +kernel
  · decide +kernel
  · have hstarts := (starts_of_from_bytes from_bytes_refusedSegments).1
    rw [show Elf64Programs.next = Entries.next Elf64Programs.item from rfl,
      hstarts.inPlace_iff (isSegment_item _)]
    exact fun h ↦ absurd (h 0 (by decide +kernel) (by decide +kernel)) (by decide +kernel)

end Elpytios
