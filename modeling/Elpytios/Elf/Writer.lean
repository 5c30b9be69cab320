import Elpytios.Elf.Endian
import Elpytios.Elf.Sections
import Elpytios.Lib.Blocks

/-!
# Files that are laid out

What a file says, and a layout of it: the header of the file, the two tables, the contents of the
segments and of the sections, and at the end the names of the sections.  What is laid out is
parsed (`from_bytes_bytes`).
-/

namespace Elpytios

open ByteOrder Cursor Blocks

/-! ## Headers as bytes -/

section

variable {order : ByteOrder} {blocks : List (List Byte)} {k n : ℕ}

theorem slice_place {block : List Byte} (h : blocks[k]? = some block) (hn : block.length = n) :
    slice blocks.flatten (place blocks k) n = block :=
  take_drop_place h hn

/-- A number among others. -/
theorem field_place {x : BitVec (8 * n)} (h : blocks[k]? = some (bytesOf order n x.toNat)) :
    field order blocks.flatten (place blocks k) n = x :=
  field_of_slice (slice_place h (length_bytesOf ..))

end

/-- The bytes that a header is read from. -/
class HasBytes (T : Type) where
  blocks : T → List (List Byte)

def HasBytes.toBytes {T : Type} [HasBytes T] (header : T) : List Byte := (blocks header).flatten

open HasBytes (toBytes)

instance : HasBytes ElfHeaderPrologue where
  blocks header :=
    [header.magic, bytesOf .little 1 header.arch.toNat, bytesOf .little 1 header.endian.toNat,
      bytesOf .little 1 header.header_version.toNat, bytesOf .little 1 header.os_abi.toNat,
      List.replicate 8 0, bytesOf .little 2 header.elf_type.toNat,
      bytesOf .little 2 header.instruction_set.toNat, bytesOf .little 4 header.elf_version.toNat]

instance : HasBytes ElfHeader64 where
  blocks header :=
    [bytesOf .little 8 header.program_entry_offset.toNat,
      bytesOf .little 8 header.program_header_table_offset.toNat,
      bytesOf .little 8 header.section_header_table_offset.toNat,
      bytesOf .little 4 header.flags.toNat, bytesOf .little 2 header.header_size.toNat,
      bytesOf .little 2 header.program_header_entry_size.toNat,
      bytesOf .little 2 header.program_header_entry_len.toNat,
      bytesOf .little 2 header.section_header_entry_size.toNat,
      bytesOf .little 2 header.section_header_entry_len.toNat,
      bytesOf .little 2 header.section_header_string_table_index.toNat]

instance : HasBytes ElfProgramHeader64 where
  blocks header :=
    [bytesOf .little 4 header.segment_type.toNat, bytesOf .little 4 header.flags.bits.toNat,
      bytesOf .little 8 header.segment_offset.toNat,
      bytesOf .little 8 header.segment_virtual_address.toNat,
      bytesOf .little 8 header.segment_physical_address.toNat,
      bytesOf .little 8 header.segment_file_size.toNat,
      bytesOf .little 8 header.segment_memory_size.toNat,
      bytesOf .little 8 header.section_alignment.toNat]

instance : HasBytes ElfSectionHeader64 where
  blocks header :=
    [bytesOf .little 4 header.name_offset.toNat, bytesOf .little 4 header.section_type.val.toNat,
      bytesOf .little 8 header.flags.bits.toNat, bytesOf .little 8 header.virtual_address.toNat,
      bytesOf .little 8 header.file_offset.toNat, bytesOf .little 8 header.size.toNat,
      bytesOf .little 4 header.link.toNat, bytesOf .little 4 header.info.toNat,
      bytesOf .little 8 header.alignment.toNat, bytesOf .little 8 header.entry_size.toNat]

/-- Reading the bytes of a header gives the header. -/
class LawfulBytes (T : Type) [AnyBitPattern T] [HasBytes T] : Prop where
  length_toBytes : ∀ header : T, (toBytes header).length = AnyBitPattern.size T
  ofBytes_toBytes : ∀ header : T, AnyBitPattern.ofBytes nativeOrder (toBytes header) = header

section

variable {T : Type} [HasBytes T] {header : T}

theorem field_block (k n : ℕ) (x : BitVec (8 * n))
    (h : (HasBytes.blocks header)[k]? = some (bytesOf .little n x.toNat)) :
    field nativeOrder (toBytes header) (place (HasBytes.blocks header) k) n = x :=
  field_place h

end

instance : LawfulBytes ElfHeader64 where
  length_toBytes _ := rfl
  ofBytes_toBytes _ :=
    (ElfHeader64.mk.injEq ..).mpr ⟨field_block 0 8 _ rfl, field_block 1 8 _ rfl,
      field_block 2 8 _ rfl, field_block 3 4 _ rfl, field_block 4 2 _ rfl, field_block 5 2 _ rfl,
      field_block 6 2 _ rfl, field_block 7 2 _ rfl, field_block 8 2 _ rfl, field_block 9 2 _ rfl⟩

instance : LawfulBytes ElfProgramHeader64 where
  length_toBytes _ := rfl
  ofBytes_toBytes _ :=
    (ElfProgramHeader64.mk.injEq ..).mpr ⟨field_block 0 4 _ rfl,
      congrArg ElfProgramFlags.mk (field_block 1 4 _ rfl), field_block 2 8 _ rfl,
      field_block 3 8 _ rfl, field_block 4 8 _ rfl, field_block 5 8 _ rfl, field_block 6 8 _ rfl,
      field_block 7 8 _ rfl⟩

instance : LawfulBytes ElfSectionHeader64 where
  length_toBytes _ := rfl
  ofBytes_toBytes _ :=
    (ElfSectionHeader64.mk.injEq ..).mpr ⟨field_block 0 4 _ rfl,
      congrArg ElfSectionType.mk (field_block 1 4 _ rfl),
      congrArg ElfSectionFlags.mk (field_block 2 8 _ rfl), field_block 3 8 _ rfl,
      field_block 4 8 _ rfl, field_block 5 8 _ rfl, field_block 6 4 _ rfl, field_block 7 4 _ rfl,
      field_block 8 8 _ rfl, field_block 9 8 _ rfl⟩

/-! ## Files -/

/-- A section with a name. -/
structure NamedSection where
  name : List Byte
  section_type : ElfSectionType
  flags : ElfSectionFlags
  virtual_address : Word
  data : List Byte
  link : BitVec 32
  info : BitVec 32
  alignment : BitVec 64
  entry_size : BitVec 64
deriving DecidableEq, Repr

/-- What a file says. -/
structure ElfFile where
  prologue : ElfHeaderPrologue
  program_entry : Word
  flags : BitVec 32
  segments : List ElfSegment64
  sections : List NamedSection
deriving DecidableEq, Repr

namespace ElfFile

def shstrtab : List Byte := [0x2E, 0x73, 0x68, 0x73, 0x74, 0x72, 0x74, 0x61, 0x62]

variable (file : ElfFile)

/-- The names of the sections, each with a zero after it. -/
def names : List (List Byte) := file.sections.map (·.name ++ [0]) ++ [shstrtab ++ [0]]

/-- The section with the names. -/
def nameSection : NamedSection where
  name := shstrtab
  section_type := ⟨3⟩
  flags := ⟨0⟩
  virtual_address := 0
  data := file.names.flatten
  link := 0
  info := 0
  alignment := 1
  entry_size := 0

/-- All sections, with the names as the last. -/
def allSections : List NamedSection := file.sections ++ [file.nameSection]

/-- The contents of the segments and then of the sections. -/
def datas : List (List Byte) :=
  file.segments.map (·.data) ++ file.allSections.map (·.data)

/-- Where the contents begin. -/
def tablesEnd : ℕ := 64 + 56 * file.segments.length + 64 * file.allSections.length

def header : ElfHeader64 where
  program_entry_offset := file.program_entry
  program_header_table_offset := 64
  section_header_table_offset := BitVec.ofNat 64 (64 + 56 * file.segments.length)
  flags := file.flags
  header_size := 64
  program_header_entry_size := 56
  program_header_entry_len := BitVec.ofNat 16 file.segments.length
  section_header_entry_size := 64
  section_header_entry_len := BitVec.ofNat 16 file.allSections.length
  section_header_string_table_index := BitVec.ofNat 16 file.sections.length

/-- The header of a segment whose contents are number `k`. -/
def programHeader (k : ℕ) (segment : ElfSegment64) : ElfProgramHeader64 where
  segment_type := segment.segment_type.number
  flags := segment.flags
  segment_offset := BitVec.ofNat 64 (file.tablesEnd + place file.datas k)
  segment_virtual_address := segment.virtual_address
  segment_physical_address := segment.physical_address
  segment_file_size := BitVec.ofNat 64 segment.data.length
  segment_memory_size := segment.memory_size
  section_alignment := segment.alignment

/-- The header of a section that is number `k`. -/
def sectionHeader (k : ℕ) (section_ : NamedSection) : ElfSectionHeader64 where
  name_offset := BitVec.ofNat 32 (place file.names k)
  section_type := section_.section_type
  flags := section_.flags
  virtual_address := section_.virtual_address
  file_offset := BitVec.ofNat 64 (file.tablesEnd + place file.datas (file.segments.length + k))
  size := BitVec.ofNat 64 section_.data.length
  link := section_.link
  info := section_.info
  alignment := section_.alignment
  entry_size := section_.entry_size

def programHeaders : List (List Byte) :=
  file.segments.mapIdx fun k segment ↦ toBytes (file.programHeader k segment)

def sectionHeaders : List (List Byte) :=
  file.allSections.mapIdx fun k section_ ↦ toBytes (file.sectionHeader k section_)

/-- The file, laid out. -/
def blocks : List (List Byte) :=
  [toBytes file.prologue, toBytes file.header] ++
    (file.programHeaders ++ (file.sectionHeaders ++ file.datas))

def bytes : List Byte := file.blocks.flatten

/-- The file can be laid out. -/
structure WellFormed : Prop where
  magic : file.prologue.magic = [0x7F, 0x45, 0x4C, 0x46]
  arch : file.prologue.arch = 2
  /-- No number is given to a type that has a name. -/
  segment_type : ∀ segment ∈ file.segments,
    ElfSegmentType.of segment.segment_type.number = segment.segment_type
  segments : file.segments.length < 2 ^ 16
  sections : file.sections.length + 1 < 2 ^ 16
  /-- A name ends at its first zero. -/
  name : ∀ section_ ∈ file.sections, 0 ∉ section_.name
  names : file.names.flatten.length < 2 ^ 32
  length : file.bytes.length < 2 ^ 64

/-! ## Where the parts of a file lie -/

section

variable {file : ElfFile} {k : ℕ}

theorem getElem?_append_add {α : Type} (as bs : List α) (k : ℕ) :
    (as ++ bs)[as.length + k]? = bs[k]? := by
  rw [List.getElem?_append_right (Nat.le_add_right _ _), Nat.add_sub_cancel_left]

theorem blocks_getElem? (k : ℕ) : file.blocks[2 + k]? =
    (file.programHeaders ++ (file.sectionHeaders ++ file.datas))[k]? :=
  getElem?_append_add [toBytes file.prologue, toBytes file.header] _ k

theorem blocks_getElem?_after (k : ℕ) : file.blocks[2 + (file.segments.length + k)]? =
    (file.sectionHeaders ++ file.datas)[k]? := by
  have hlen : file.programHeaders.length = file.segments.length := List.length_mapIdx
  rw [blocks_getElem?, ← hlen, getElem?_append_add]

/-- The contents of a section are after those of the segments. -/
theorem datas_section {section_ : NamedSection} (hk : file.allSections[k]? = some section_) :
    file.datas[file.segments.length + k]? = some section_.data := by
  have hlen : (file.segments.map (·.data)).length = file.segments.length := List.length_map _
  rw [datas, ← hlen, getElem?_append_add, List.getElem?_map, hk]
  rfl

theorem datas_segment {segment : ElfSegment64} (hk : file.segments[k]? = some segment) :
    file.datas[k]? = some segment.data := by
  obtain ⟨hlt, -⟩ := List.getElem?_eq_some_iff.mp hk
  rw [datas, List.getElem?_append_left (by rwa [List.length_map]), List.getElem?_map, hk]
  rfl

theorem length_of_mem_programHeaders {block : List Byte} (h : block ∈ file.programHeaders) :
    block.length = 56 := by
  obtain ⟨k, hk, rfl⟩ := List.mem_mapIdx.mp h
  exact LawfulBytes.length_toBytes (file.programHeader k _)

theorem length_of_mem_sectionHeaders {block : List Byte} (h : block ∈ file.sectionHeaders) :
    block.length = 64 := by
  obtain ⟨k, hk, rfl⟩ := List.mem_mapIdx.mp h
  exact LawfulBytes.length_toBytes (file.sectionHeader k _)

theorem length_programHeaders : file.programHeaders.length = file.segments.length :=
  List.length_mapIdx

theorem length_sectionHeaders : file.sectionHeaders.length = file.allSections.length :=
  List.length_mapIdx

theorem length_allSections : file.allSections.length = file.sections.length + 1 :=
  List.length_append

theorem blocks_getElem?_data (k : ℕ) :
    file.blocks[2 + (file.segments.length + (file.allSections.length + k))]? = file.datas[k]? := by
  rw [blocks_getElem?_after, ← length_sectionHeaders, getElem?_append_add]

theorem length_prologue (wf : file.WellFormed) : (toBytes file.prologue).length = 24 := by
  have hmagic : file.prologue.magic.length = 4 := by rw [wf.magic]; rfl
  change (file.prologue.magic ++ _).length = 24
  rw [List.length_append, hmagic]
  rfl

section

variable (wf : file.WellFormed)

include wf

theorem length_head :
    ([toBytes file.prologue, toBytes file.header] : List _).flatten.length = 64 := by
  rw [List.flatten_cons, List.length_append, length_prologue wf]
  rfl

theorem place_blocks (k : ℕ) : place file.blocks (2 + k) =
    64 + place (file.programHeaders ++ (file.sectionHeaders ++ file.datas)) k :=
  (place_append_right [toBytes file.prologue, toBytes file.header] _ k).trans
    (congrArg (· + _) (length_head wf))

theorem place_program (hk : k ≤ file.segments.length) :
    place file.blocks (2 + k) = 64 + 56 * k := by
  rw [← length_programHeaders] at hk
  rw [place_blocks wf, place_append_left hk,
    place_of_length (fun _ ↦ length_of_mem_programHeaders) hk]

theorem place_after_program (k : ℕ) : place file.blocks (2 + (file.segments.length + k)) =
    64 + 56 * file.segments.length + place (file.sectionHeaders ++ file.datas) k := by
  rw [place_blocks wf, ← length_programHeaders, place_append_right,
    length_flatten_of_length fun _ ↦ length_of_mem_programHeaders, Nat.add_assoc]

theorem place_section (hk : k ≤ file.allSections.length) :
    place file.blocks (2 + (file.segments.length + k)) = 64 + 56 * file.segments.length + 64 * k := by
  rw [← length_sectionHeaders] at hk
  rw [place_after_program wf, place_append_left hk,
    place_of_length (fun _ ↦ length_of_mem_sectionHeaders) hk]

theorem place_data (k : ℕ) :
    place file.blocks (2 + (file.segments.length + (file.allSections.length + k))) =
      file.tablesEnd + place file.datas k := by
  rw [place_after_program wf, ← length_sectionHeaders, place_append_right,
    length_flatten_of_length fun _ ↦ length_of_mem_sectionHeaders, length_sectionHeaders,
    tablesEnd, Nat.add_assoc _ (64 * _)]

theorem slice_header : slice file.bytes 24 40 = toBytes file.header := by
  have hplace : place file.blocks 1 = 24 := by
    change ([toBytes file.prologue] : List _).flatten.length = 24
    rw [List.flatten_singleton, length_prologue wf]
  rw [← hplace]
  exact slice_place rfl rfl

theorem slice_program {segment : ElfSegment64} (hk : file.segments[k]? = some segment) :
    slice file.bytes (64 + 56 * k) 56 = toBytes (file.programHeader k segment) := by
  obtain ⟨hlt, -⟩ := List.getElem?_eq_some_iff.mp hk
  rw [← place_program wf hlt.le]
  refine slice_place ?_ rfl
  rw [blocks_getElem?, List.getElem?_append_left (by rwa [length_programHeaders]), programHeaders,
    List.getElem?_mapIdx, hk]
  rfl

theorem slice_section {section_ : NamedSection} (hk : file.allSections[k]? = some section_) :
    slice file.bytes (64 + 56 * file.segments.length + 64 * k) 64 =
      toBytes (file.sectionHeader k section_) := by
  obtain ⟨hlt, -⟩ := List.getElem?_eq_some_iff.mp hk
  rw [← place_section wf hlt.le]
  refine slice_place ?_ rfl
  rw [blocks_getElem?_after, List.getElem?_append_left (by rwa [length_sectionHeaders]),
    sectionHeaders, List.getElem?_mapIdx, hk]
  rfl

/-- The contents of a segment or a section lie in the file. -/
theorem data_le {data : List Byte} (hk : file.datas[k]? = some data) :
    file.tablesEnd + place file.datas k + data.length ≤ file.bytes.length := by
  rw [← place_data wf]
  exact place_add_length_le ((blocks_getElem?_data k).trans hk)

theorem slice_data {data : List Byte} (hk : file.datas[k]? = some data) :
    slice file.bytes (file.tablesEnd + place file.datas k) data.length = data := by
  rw [← place_data wf]
  exact slice_place ((blocks_getElem?_data k).trans hk) rfl

theorem tablesEnd_le : file.tablesEnd ≤ file.bytes.length := by
  have hname : file.datas[file.segments.length + file.sections.length]? = some _ :=
    datas_section (getElem?_append_add file.sections [file.nameSection] 0)
  exact (Nat.le_add_right _ _).trans ((Nat.le_add_right _ _).trans (data_le wf hname))

theorem toNat_place {data : List Byte} (hk : file.datas[k]? = some data) :
    (BitVec.ofNat 64 (file.tablesEnd + place file.datas k)).toNat =
      file.tablesEnd + place file.datas k := by
  have hle := data_le wf hk
  have hlt := wf.length
  exact Nat.mod_eq_of_lt (by omega)

theorem toNat_length {data : List Byte} (hk : file.datas[k]? = some data) :
    (BitVec.ofNat 64 data.length).toNat = data.length := by
  have hle := data_le wf hk
  have hlt := wf.length
  exact Nat.mod_eq_of_lt (by omega)

/-! ## Reading -/

theorem fileHeader_eq : fileHeader file.bytes = file.header := by
  rw [fileHeader, slice_header wf, LawfulBytes.ofBytes_toBytes]

theorem programTable_eq : programTable file.bytes = ⟨64, 56, file.segments.length⟩ := by
  rw [programTable, fileHeader_eq wf]
  exact (Table.mk.injEq ..).mpr ⟨rfl, rfl, Nat.mod_eq_of_lt wf.segments⟩

theorem sectionTable_eq :
    sectionTable file.bytes = ⟨64 + 56 * file.segments.length, 64, file.allSections.length⟩ := by
  have hsegments := wf.segments
  have hsections := wf.sections
  rw [sectionTable, fileHeader_eq wf]
  refine (Table.mk.injEq ..).mpr ⟨Nat.mod_eq_of_lt (by omega), rfl, Nat.mod_eq_of_lt ?_⟩
  rwa [length_allSections]

theorem sectionHeader_eq {section_ : NamedSection} (hk : file.allSections[k]? = some section_) :
    Elpytios.sectionHeader file.bytes k = file.sectionHeader k section_ := by
  rw [Elpytios.sectionHeader, sectionTable_eq wf, Table.place, slice_section wf hk,
    LawfulBytes.ofBytes_toBytes]

end

/-- A section as it is read. -/
def parsedSection (file : ElfFile) (k : ℕ) (section_ : NamedSection) : ElfSection64 where
  name_offset := place file.names k
  data := section_.data
  virtual_address := section_.virtual_address

section

variable (wf : file.WellFormed)

include wf

theorem toNat_place_names (k : ℕ) :
    (BitVec.ofNat 32 (place file.names k)).toNat = place file.names k :=
  Nat.mod_eq_of_lt ((place_le file.names k).trans_lt wf.names)

theorem item_section {section_ : NamedSection} (hk : file.allSections[k]? = some section_) :
    Elf64Sections.item ⟨file.bytes⟩ (file.sectionHeader k section_) =
      .ok (file.parsedSection k section_) := by
  have hdata := datas_section hk
  have hoffset := toNat_place wf hdata
  have hsize := toNat_length wf hdata
  have hle : (file.sectionHeader k section_).file_offset.toNat +
      (file.sectionHeader k section_).size.toNat ≤ file.bytes.length := by
    change (BitVec.ofNat 64 _).toNat + (BitVec.ofNat 64 _).toNat ≤ _
    rw [hoffset, hsize]
    exact data_le wf hdata
  rw [Elf64Sections.item_eq, if_pos hle]
  refine congrArg Except.ok ((ElfSection64.mk.injEq ..).mpr ⟨toNat_place_names wf k, ?_, rfl⟩)
  change slice _ (BitVec.ofNat 64 _).toNat (BitVec.ofNat 64 _).toNat = _
  rw [hoffset, hsize]
  exact slice_data wf hdata

theorem item_program {segment : ElfSegment64} (hk : file.segments[k]? = some segment) :
    Elf64Programs.item ⟨file.bytes⟩ (file.programHeader k segment) = .ok segment := by
  have hdata := datas_segment hk
  have hoffset := toNat_place wf hdata
  have hsize := toNat_length wf hdata
  have htype := wf.segment_type segment (List.mem_of_getElem? hk)
  have hle : (file.programHeader k segment).segment_offset.toNat +
      (file.programHeader k segment).segment_file_size.toNat ≤ file.bytes.length := by
    change (BitVec.ofNat 64 _).toNat + (BitVec.ofNat 64 _).toNat ≤ _
    rw [hoffset, hsize]
    exact data_le wf hdata
  rw [Elf64Programs.item_eq, if_pos hle]
  have hslice : slice file.bytes (file.programHeader k segment).segment_offset.toNat
      (file.programHeader k segment).segment_file_size.toNat = segment.data := by
    change slice _ (BitVec.ofNat 64 _).toNat (BitVec.ofNat 64 _).toNat = _
    rw [hoffset, hsize]
    exact slice_data wf hdata
  rw [segmentOf, hslice]
  change Except.ok (ElfSegment64.mk (ElfSegmentType.of segment.segment_type.number) _ _ _ _ _ _) = _
  rw [htype]
  rfl

/-- The sections are those of the file. -/
theorem yields_sections : Yields Elf64Sections.next (fileSections file.bytes)
    (file.allSections.mapIdx fun k section_ ↦ .ok (file.parsedSection k section_)) := by
  obtain ⟨items, hitems⟩ := (fileSections file.bytes).exists_yields Elf64Sections.item
  have htable := sectionTable_eq wf
  have hend : file.tablesEnd = (sectionTable file.bytes).offset + 64 * file.allSections.length := by
    rw [htable]
    rfl
  have hle := tablesEnd_le wf
  have heq : items =
      file.allSections.mapIdx fun k section_ ↦ .ok (file.parsedSection k section_) := by
    refine List.ext_getElem? fun k ↦ ?_
    rw [fileSections_getElem? hitems (by omega) (by rw [htable]), List.getElem?_mapIdx]
    rcases hk : file.allSections[k]? with - | section_
    · have hge := List.getElem?_eq_none_iff.mp hk
      rw [if_neg fun h ↦ Nat.not_lt.mpr hge (by rw [htable] at h; exact h.1)]
      rfl
    · obtain ⟨hlt, -⟩ := List.getElem?_eq_some_iff.mp hk
      rw [if_pos ⟨by rw [htable]; exact hlt, by omega⟩, sectionHeader_eq wf hk, item_section wf hk]
      rfl
  exact heq ▸ hitems

theorem exists_bytes_eq : ∃ rest, file.bytes = 0x7F :: 0x45 :: 0x4C :: 0x46 :: 2 :: rest := by
  have hbytes : file.bytes =
      file.prologue.magic ++ (bytesOf .little 1 file.prologue.arch.toNat ++ _) :=
    List.append_assoc ..
  rw [hbytes, wf.magic, wf.arch]
  exact ⟨_, rfl⟩

/-- The file is accepted, with the last section as the one with the names. -/
theorem from_bytes_ofFile : Elf.from_bytes file.bytes = some (.ok (.ofFile file.bytes
    (file.parsedSection file.sections.length file.nameSection))) := by
  obtain ⟨rest, hrest⟩ := exists_bytes_eq wf
  have hclass : file.bytes.getD 4 0 = 2 := by rw [hrest]; rfl
  have hmagic : slice file.bytes 0 4 = [0x7F, 0x45, 0x4C, 0x46] := by rw [hrest]; rfl
  have hle := tablesEnd_le wf
  have hlen : 64 + 56 * file.segments.length + 64 * (file.sections.length + 1) ≤
      file.bytes.length := by
    rwa [tablesEnd, length_allSections] at hle
  have hph : (fileHeader file.bytes).program_header_table_offset.toNat = 64 := by
    rw [fileHeader_eq wf]
    rfl
  have hsh : (fileHeader file.bytes).section_header_table_offset.toNat =
      64 + 56 * file.segments.length := by
    exact congrArg Table.offset (sectionTable_eq wf)
  have hindex : (fileHeader file.bytes).section_header_string_table_index.toNat =
      file.sections.length := by
    rw [fileHeader_eq wf]
    exact Nat.mod_eq_of_lt (Nat.lt_of_succ_lt wf.sections)
  have hlast : file.allSections[file.sections.length]? = some file.nameSection :=
    getElem?_append_add file.sections [file.nameSection] 0
  have hstring : Elf64.stringTable file.sections.length (fileSections file.bytes) =
      .ok (file.parsedSection file.sections.length file.nameSection) := by
    rw [Elf64.stringTable_eq (yields_sections wf), List.getD_eq_getElem?_getD, List.getElem?_mapIdx,
      hlast]
    rfl
  rw [Elf.from_bytes_eq, if_neg (by omega), if_neg (by rw [hmagic]; simp), hclass,
    if_neg (by decide), if_pos rfl, Elf64.from_bytes_eq (by omega), if_neg (by omega), hindex,
    hstring]
  rfl

/-- The segments are those of the file. -/
theorem yields_programs {elf : Elf64} (h : Elf.from_bytes file.bytes = some (.ok elf)) :
    Yields Elf64Programs.next elf.program_segments (file.segments.map .ok) := by
  have hstarts := (starts_of_from_bytes h).1
  obtain ⟨items, hitems⟩ := elf.program_segments.exists_yields Elf64Programs.item
  have hle := tablesEnd_le wf
  rw [tablesEnd] at hle
  have hplace {k : ℕ} (hk : k < file.segments.length) :
      Table.readPlace ⟨64, 56, file.segments.length⟩ file.bytes k = 64 + 56 * k := by
    have hmin : k ≤ (file.bytes.length - 64) / 56 := by omega
    rw [Table.readPlace, Nat.min_eq_left hmin]
  have heq : items = file.segments.map .ok := by
    refine List.ext_getElem? fun k ↦ ?_
    rw [hstarts.getElem?_of_yields hitems, programTable_eq wf, List.getElem?_map]
    change (if Table.Holds _ 56 _ _ then some (Elf64Programs.item _ (AnyBitPattern.ofBytes nativeOrder
      (slice _ _ 56))) else none) = _
    rcases hk : file.segments[k]? with - | segment
    · have hge := List.getElem?_eq_none_iff.mp hk
      rw [if_neg fun h ↦ Nat.not_lt.mpr hge h.1]
      rfl
    · obtain ⟨hlt, -⟩ := List.getElem?_eq_some_iff.mp hk
      have hholds : Table.Holds ⟨64, 56, file.segments.length⟩ 56 file.bytes k :=
        ⟨hlt, by rw [hplace hlt]; omega⟩
      rw [if_pos hholds, hplace hlt, slice_program wf hk, LawfulBytes.ofBytes_toBytes,
        item_program wf hk]
      rfl
  exact heq ▸ hitems

theorem name_ne_zero {section_ : NamedSection} (h : section_ ∈ file.allSections) :
    0 ∉ section_.name := by
  rcases List.mem_append.mp h with h | h
  · exact wf.name section_ h
  · obtain rfl := List.mem_singleton.mp h
    exact (by decide : (0 : Byte) ∉ shstrtab)

/-- A name is found among the others. -/
theorem name_parsedSection {section_ : NamedSection} (hk : file.allSections[k]? = some section_) :
    (file.parsedSection k section_).name (.ofFile file.bytes
      (file.parsedSection file.sections.length file.nameSection)) = some section_.name := by
  have hnames : file.names[k]? = some (section_.name ++ [0]) := by
    have hmap : file.names = file.allSections.map (·.name ++ [0]) := by
      rw [allSections, List.map_append]
      rfl
    rw [hmap, List.getElem?_map, hk]
    rfl
  obtain ⟨rest, hrest⟩ := exists_drop_place hnames
  have hle : place file.names k ≤ file.names.flatten.length := place_le file.names k
  rw [ElfSection64.name_of_le hle]
  have hne : ∀ byte ∈ section_.name, decide (byte ≠ 0) = true := fun byte hbyte ↦
    decide_eq_true fun hzero ↦ name_ne_zero wf (List.mem_of_getElem? hk) (hzero ▸ hbyte)
  change some ((file.names.flatten.drop (place file.names k)).takeWhile _) = _
  rw [hrest, List.append_assoc, List.takeWhile_append_of_pos hne]
  exact congrArg some (List.append_nil _)

end

end

/-- What is laid out is parsed: the entry point, the segments with their contents, and the
sections with their names and contents. -/
theorem from_bytes_bytes {file : ElfFile} (wf : file.WellFormed) :
    ∃ elf, Elf.from_bytes file.bytes = some (.ok elf) ∧ elf.program_entry = file.program_entry ∧
      Yields Elf64Programs.next elf.program_segments (file.segments.map .ok) ∧
      ∃ sections : List ElfSection64,
        Yields Elf64Sections.next elf.sections (sections.map .ok) ∧
        sections.map (fun section_ ↦ (section_.name elf, section_.virtual_address, section_.data)) =
          file.allSections.map fun section_ ↦
            (some section_.name, section_.virtual_address, section_.data) := by
  refine ⟨_, from_bytes_ofFile wf, ?_, yields_programs wf (from_bytes_ofFile wf),
    file.allSections.mapIdx file.parsedSection, ?_, ?_⟩
  · exact congrArg ElfHeader64.program_entry_offset (fileHeader_eq wf)
  · have hmap : (file.allSections.mapIdx file.parsedSection).map Except.ok =
        file.allSections.mapIdx fun k section_ ↦
          (.ok (file.parsedSection k section_) : Except ElfError ElfSection64) := by
      refine List.ext_getElem? fun k ↦ ?_
      rw [List.getElem?_map, List.getElem?_mapIdx, List.getElem?_mapIdx, Option.map_map]
      rfl
    rw [hmap]
    exact yields_sections wf
  · refine List.ext_getElem? fun k ↦ ?_
    rw [List.getElem?_map, List.getElem?_mapIdx, List.getElem?_map]
    rcases hk : file.allSections[k]? with - | section_
    · rfl
    · exact congrArg (fun name ↦ some (name, _, _)) (name_parsedSection wf hk)

/-- A program of three bytes, in a section `.text`, and a segment of data. -/
def smallFile : ElfFile where
  prologue := ⟨[0x7F, 0x45, 0x4C, 0x46], 2, 1, 1, 0, 2, 62, 1⟩
  program_entry := 0x401000
  flags := 0
  segments := [⟨.Load, [0x31, 0xC0, 0xC3], ⟨5⟩, 0x401000, 0x401000, 3, 0x1000⟩,
    ⟨.Load, [1, 2], ⟨6⟩, 0x402000, 0x402000, 0x10, 0x1000⟩]
  sections :=
    [⟨[0x2E, 0x74, 0x65, 0x78, 0x74], ⟨1⟩, ⟨6⟩, 0x401000, [0x31, 0xC0, 0xC3], 0, 0, 16, 0⟩]

theorem from_bytes_bytes_smallFile :
    smallFile.WellFormed ∧ ∃ elf, Elf.from_bytes smallFile.bytes = some (.ok elf) ∧
      elf.program_entry = 0x401000 ∧
      Yields Elf64Programs.next elf.program_segments
        [.ok ⟨.Load, [0x31, 0xC0, 0xC3], ⟨5⟩, 0x401000, 0x401000, 3, 0x1000⟩,
          .ok ⟨.Load, [1, 2], ⟨6⟩, 0x402000, 0x402000, 0x10, 0x1000⟩] ∧
      ∃ sections : List ElfSection64,
        Yields Elf64Sections.next elf.sections (sections.map .ok) ∧
        sections.map (fun section_ ↦ (section_.name elf, section_.virtual_address, section_.data)) =
          [(some [0x2E, 0x74, 0x65, 0x78, 0x74], 0x401000, [0x31, 0xC0, 0xC3]),
            (some shstrtab, 0, [0x2E, 0x74, 0x65, 0x78, 0x74, 0] ++ shstrtab ++ [0])] := by
  have wf : smallFile.WellFormed :=
    ⟨rfl, rfl, by simp [smallFile, ElfSegmentType.number, ElfSegmentType.of], by decide, by decide,
      by decide, by decide, by decide +kernel⟩
  exact ⟨wf, from_bytes_bytes wf⟩

end ElfFile

end Elpytios
