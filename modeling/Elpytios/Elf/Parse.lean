import Elpytios.Elf.Reader

/-!
# Parsing an ELF file

From `elf/src/lib.rs`.  `Elf` has no 32-bit files, so a value of it is an `Elf64`; a 32-bit file
makes `Elf::from_bytes` panic.  Where a function panics there is no result.
-/

namespace Elpytios

open ByteOrder

inductive ElfError where
  | InvalidMagic (magic : List Byte)
  | InvalidArch (arch : BitVec 8)
  | InvalidEndian (endian : BitVec 8)
  | InvalidSegmentType (n : BitVec 32)
  | IntDoesntFit
  | MissingStringTable
  | Eof
deriving DecidableEq, Repr

/-- A `u64` as a `usize`. -/
def int_fit (n : BitVec 64) : Except ElfError ℕ :=
  if n.toNat < 2 ^ 64 then .ok n.toNat else .error .IntDoesntFit

/-- `Option::ok_or`. -/
def ok_or {α : Type} (x : Option α) (e : ElfError) : Except ElfError α :=
  match x with
  | some a => .ok a
  | none => .error e

@[simp] theorem int_fit_eq (n : BitVec 64) : int_fit n = .ok n.toNat := if_pos n.isLt

@[simp] theorem bind_ok {α β : Type} (a : α) (f : α → Except ElfError β) :
    (Except.ok a >>= f) = f a := rfl

@[simp] theorem ok_or_some {α : Type} (a : α) (e : ElfError) : ok_or (some a) e = .ok a := rfl

/-- `data` of a segment or a section. -/
def contents (file_reader : Reader) (offset size : BitVec 64) : Except ElfError (List Byte) := do
  let reader ← ok_or (file_reader.fork (← int_fit offset)) .Eof
  ok_or (reader.take (← int_fit size)).1 .Eof

/-! ## The iterators on the two tables -/

/-- The fields of `Elf64Programs` and `Elf64Sections`, which go through different tables. -/
structure Entries where
  len : BitVec 16
  stride : BitVec 16
  file_reader : Reader
  table_reader : Reader
deriving DecidableEq, Repr

namespace Entries

/-- `next` of both iterators; `item` is what it tries to make of a header. -/
def next {T Item : Type} [AnyBitPattern T] (item : Reader → T → Except ElfError Item)
    (self : Entries) : Option (Except ElfError Item) × Entries :=
  if self.len = 0 then (none, self)
  else
    let self := { self with len := self.len - 1 }
    match self.table_reader.read T with
    | (none, _) => (none, self)
    | (some header, _) =>
        -- Whether there was room for the stride is not looked at.
        let self := { self with table_reader := (self.table_reader.take self.stride.toNat).2 }
        (some (item self.file_reader header), self)

/-- `ExactSizeIterator::len` of both iterators. -/
def exactLen (self : Entries) : ℕ := self.len.toNat

def size_hint (self : Entries) : ℕ × Option ℕ := (self.len.toNat, some self.len.toNat)

end Entries

def ElfSegmentType.of (n : BitVec 32) : ElfSegmentType :=
  match n.toNat with
  | 0 => .Null
  | 1 => .Load
  | 2 => .Dynamic
  | 3 => .Interp
  | 4 => .Note
  | 5 => .Shlib
  | 6 => .Header
  | 7 => .Tls
  | _ => .Unknown n

abbrev Elf64Programs := Entries

namespace Elf64Programs

def item (file_reader : Reader) (program_header : ElfProgramHeader64) :
    Except ElfError ElfSegment64 := do
  let data ← contents file_reader program_header.segment_offset program_header.segment_file_size
  return {
    segment_type := ElfSegmentType.of program_header.segment_type
    data
    flags := program_header.flags
    virtual_address := program_header.segment_virtual_address
    physical_address := program_header.segment_physical_address
    memory_size := program_header.segment_memory_size
    alignment := program_header.section_alignment }

def next : Elf64Programs → Option (Except ElfError ElfSegment64) × Elf64Programs :=
  Entries.next item

end Elf64Programs

structure ElfSection64 where
  name_offset : ℕ
  data : List Byte
  virtual_address : Word
deriving DecidableEq, Repr

abbrev Elf64Sections := Entries

namespace Elf64Sections

def item (file_reader : Reader) (section_header : ElfSectionHeader64) :
    Except ElfError ElfSection64 := do
  let data ← contents file_reader section_header.file_offset section_header.size
  return {
    name_offset := section_header.name_offset.toNat
    data
    virtual_address := section_header.virtual_address }

def next : Elf64Sections → Option (Except ElfError ElfSection64) × Elf64Sections :=
  Entries.next item

end Elf64Sections

/-! ## The file -/

structure Elf64 where
  header : ElfHeader64
  file_reader : Reader
  program_table_reader : Reader
  section_table_reader : Reader
  string_table : ElfSection64
deriving DecidableEq, Repr

namespace Elf64

/-- The loop of `Elf64::from_bytes`, `n` rounds before `i` gets to the index. -/
def stringTable : ℕ → Elf64Sections → Except ElfError ElfSection64
  | 0, sections =>
      match Elf64Sections.next sections with
      | (none, _) => .error .MissingStringTable
      | (some section_, _) => section_
  | n + 1, sections =>
      match Elf64Sections.next sections with
      | (none, _) => .error .MissingStringTable
      | (some _, sections) => stringTable n sections

def from_bytes (file_reader header_reader : Reader) : Except ElfError Elf64 := do
  let header ← ok_or (header_reader.read ElfHeader64).1 .Eof
  let program_table_reader ←
    ok_or (file_reader.fork (← int_fit header.program_header_table_offset)) .Eof
  let section_table_reader ←
    ok_or (file_reader.fork (← int_fit header.section_header_table_offset)) .Eof
  let string_table ← stringTable header.section_header_string_table_index.toNat {
    len := header.section_header_entry_len
    stride := header.section_header_entry_size
    file_reader
    table_reader := section_table_reader }
  return { header, file_reader, program_table_reader, section_table_reader, string_table }

def program_entry (self : Elf64) : BitVec 64 := self.header.program_entry_offset

def program_header_count (self : Elf64) : ℕ := self.header.program_header_entry_len.toNat

def program_segments (self : Elf64) : Elf64Programs where
  len := self.header.program_header_entry_len
  stride := self.header.program_header_entry_size
  file_reader := self.file_reader
  table_reader := self.program_table_reader

def sections (self : Elf64) : Elf64Sections where
  len := self.header.section_header_entry_len
  stride := self.header.section_header_entry_size
  file_reader := self.file_reader
  table_reader := self.section_table_reader

end Elf64

/-- `Elf::from_bytes`. -/
def Elf.from_bytes (bytes : List Byte) : Option (Except ElfError Elf64) :=
  let file_reader : Reader := { bytes }
  match file_reader.read ElfHeaderPrologue with
  | (none, _) => some (.error .Eof)
  | (some prologue, header_reader) =>
      if prologue.magic ≠ [0x7F, 0x45, 0x4C, 0x46] then
        some (.error (.InvalidMagic prologue.magic))
      else if prologue.arch = 1 then none
      else if prologue.arch = 2 then some (Elf64.from_bytes file_reader header_reader)
      else some (.error (.InvalidArch prologue.arch))

namespace ElfSection64

/-- The loop of `name`, on the bytes from `stop` on. -/
def nameEnd : List Byte → (stop : ℕ) → ℕ
  | [], stop => stop
  | byte :: rest, stop => if byte = 0 then stop else nameEnd rest (stop + 1)

def name (self : ElfSection64) (elf : Elf64) : Option (List Byte) :=
  let data := elf.string_table.data
  let start := self.name_offset
  let stop := nameEnd (data.drop start) start
  if start ≤ stop ∧ stop ≤ data.length then some (slice data start (stop - start)) else none

end ElfSection64

/-! ## What an item is made of -/

theorem contents_eq (file_reader : Reader) (offset size : BitVec 64) :
    contents file_reader offset size =
      if offset.toNat + size.toNat ≤ file_reader.bytes.length then
        .ok (slice file_reader.bytes offset.toNat size.toNat)
      else .error .Eof := by
  rw [contents, int_fit_eq, bind_ok, Reader.fork_eq]
  by_cases hoffset : offset.toNat ≤ file_reader.bytes.length
  · rw [if_pos hoffset, ok_or_some, bind_ok, int_fit_eq, bind_ok]
    by_cases hsize : size.toNat ≤ (file_reader.bytes.drop offset.toNat).length
    · rw [Reader.take_of_le hsize, if_pos (by rw [List.length_drop] at hsize; omega)]
      rfl
    · rw [Reader.take_of_lt (Nat.lt_of_not_le hsize),
        if_neg (by rw [List.length_drop] at hsize; omega)]
      rfl
  · rw [if_neg hoffset, if_neg (by omega)]
    rfl

/-- The segment that a header of a file stands for. -/
def segmentOf (b : List Byte) (header : ElfProgramHeader64) : ElfSegment64 where
  segment_type := ElfSegmentType.of header.segment_type
  data := slice b header.segment_offset.toNat header.segment_file_size.toNat
  flags := header.flags
  virtual_address := header.segment_virtual_address
  physical_address := header.segment_physical_address
  memory_size := header.segment_memory_size
  alignment := header.section_alignment

/-- The section that a header of a file stands for. -/
def sectionOf (b : List Byte) (header : ElfSectionHeader64) : ElfSection64 where
  name_offset := header.name_offset.toNat
  data := slice b header.file_offset.toNat header.size.toNat
  virtual_address := header.virtual_address

theorem Elf64Programs.item_eq (b : List Byte) (header : ElfProgramHeader64) :
    Elf64Programs.item ⟨b⟩ header =
      if header.segment_offset.toNat + header.segment_file_size.toNat ≤ b.length then
        .ok (segmentOf b header)
      else .error .Eof := by
  rw [Elf64Programs.item, contents_eq]
  split_ifs
  · rfl
  · rfl

theorem Elf64Sections.item_eq (b : List Byte) (header : ElfSectionHeader64) :
    Elf64Sections.item ⟨b⟩ header =
      if header.file_offset.toNat + header.size.toNat ≤ b.length then .ok (sectionOf b header)
      else .error .Eof := by
  rw [Elf64Sections.item, contents_eq]
  split_ifs
  · rfl
  · rfl

/-! ## What a file is made of -/

/-- The header of a file, after its prologue. -/
def fileHeader (b : List Byte) : ElfHeader64 := AnyBitPattern.ofBytes nativeOrder (slice b 24 40)

/-- The file as it is parsed, with the section that holds the names. -/
def Elf64.ofFile (b : List Byte) (string_table : ElfSection64) : Elf64 where
  header := fileHeader b
  file_reader := ⟨b⟩
  program_table_reader := ⟨b.drop (fileHeader b).program_header_table_offset.toNat⟩
  section_table_reader := ⟨b.drop (fileHeader b).section_header_table_offset.toNat⟩
  string_table

/-- The sections of a file. -/
def fileSections (b : List Byte) : Elf64Sections where
  len := (fileHeader b).section_header_entry_len
  stride := (fileHeader b).section_header_entry_size
  file_reader := ⟨b⟩
  table_reader := ⟨b.drop (fileHeader b).section_header_table_offset.toNat⟩

/-- The checks after the prologue. -/
theorem Elf64.from_bytes_eq {b : List Byte} (h : 24 ≤ b.length) :
    Elf64.from_bytes ⟨b⟩ ⟨b.drop 24⟩ =
      if b.length < 64 ∨ b.length < (fileHeader b).program_header_table_offset.toNat ∨
          b.length < (fileHeader b).section_header_table_offset.toNat then .error .Eof
      else do
        let string_table ← stringTable (fileHeader b).section_header_string_table_index.toNat
          (fileSections b)
        return Elf64.ofFile b string_table := by
  rw [Elf64.from_bytes]
  by_cases hlen : b.length < 64
  · rw [Reader.read_of_lt (by rw [List.length_drop]; change _ < 40; omega), if_pos (Or.inl hlen)]
    rfl
  rw [Reader.read_of_le (by rw [List.length_drop]; change 40 ≤ _; omega), ok_or_some, bind_ok]
  change (do
    let program_table_reader ←
      ok_or (Reader.fork ⟨b⟩ (← int_fit (fileHeader b).program_header_table_offset)) .Eof
    let section_table_reader ←
      ok_or (Reader.fork ⟨b⟩ (← int_fit (fileHeader b).section_header_table_offset)) .Eof
    let string_table ← stringTable (fileHeader b).section_header_string_table_index.toNat
      ⟨_, _, ⟨b⟩, section_table_reader⟩
    return (⟨fileHeader b, ⟨b⟩, program_table_reader, section_table_reader, string_table⟩ :
      Elf64)) = _
  rw [int_fit_eq, bind_ok, Reader.fork_eq]
  by_cases hph : b.length < (fileHeader b).program_header_table_offset.toNat
  · rw [if_neg (Nat.not_le.mpr hph), if_pos (Or.inr (Or.inl hph))]
    rfl
  rw [if_pos (Nat.le_of_not_lt hph), ok_or_some, bind_ok, int_fit_eq, bind_ok, Reader.fork_eq]
  by_cases hsh : b.length < (fileHeader b).section_header_table_offset.toNat
  · rw [if_neg (Nat.not_le.mpr hsh), if_pos (Or.inr (Or.inr hsh))]
    rfl
  rw [if_pos (Nat.le_of_not_lt hsh), if_neg (by rintro (h | h | h) <;> contradiction), ok_or_some,
    bind_ok]
  rfl

/-- The checks on the prologue. -/
theorem Elf.from_bytes_eq (b : List Byte) :
    Elf.from_bytes b =
      if b.length < 24 then some (.error .Eof)
      else if slice b 0 4 ≠ [0x7F, 0x45, 0x4C, 0x46] then
        some (.error (.InvalidMagic (slice b 0 4)))
      else if b.getD 4 0 = 1 then none
      else if b.getD 4 0 = 2 then some (Elf64.from_bytes ⟨b⟩ ⟨b.drop 24⟩)
      else some (.error (.InvalidArch (b.getD 4 0))) := by
  rw [Elf.from_bytes]
  by_cases hlen : b.length < 24
  · rw [Reader.read_of_lt hlen, if_pos hlen]
  rw [Reader.read_of_le (Nat.le_of_not_lt hlen), if_neg hlen]
  have hmagic : slice (b.take 24) 0 4 = slice b 0 4 := by
    rw [slice, slice, List.drop_zero, List.drop_zero, List.take_take]
    rfl
  have harch : field nativeOrder (b.take 24) 4 1 = b.getD 4 0 := by
    rw [← field_one nativeOrder]
    exact (field_slice (by decide) : field nativeOrder (slice b 0 24) 4 1 = _)
  change (if slice (b.take 24) 0 4 ≠ _ then some (.error (.InvalidMagic (slice (b.take 24) 0 4)))
    else if field nativeOrder (b.take 24) 4 1 = 1 then none
    else if field nativeOrder (b.take 24) 4 1 = 2 then some (Elf64.from_bytes ⟨b⟩ ⟨b.drop 24⟩)
    else some (.error (.InvalidArch (field nativeOrder (b.take 24) 4 1)))) = _
  simp only [hmagic, harch]

/-- What is known of a file that is accepted. -/
structure Accepted (b : List Byte) (elf : Elf64) : Prop where
  length_le : 64 ≤ b.length
  program_table_le : (fileHeader b).program_header_table_offset.toNat ≤ b.length
  section_table_le : (fileHeader b).section_header_table_offset.toNat ≤ b.length
  string_table_eq : Elf64.stringTable (fileHeader b).section_header_string_table_index.toNat
    (fileSections b) = .ok elf.string_table
  eq_ofFile : elf = Elf64.ofFile b elf.string_table

theorem accepted_of_from_bytes {b : List Byte} {elf : Elf64}
    (h : Elf.from_bytes b = some (.ok elf)) : Accepted b elf := by
  rw [Elf.from_bytes_eq] at h
  by_cases hlen : b.length < 24
  · rw [if_pos hlen] at h
    cases h
  by_cases hmagic : slice b 0 4 ≠ [0x7F, 0x45, 0x4C, 0x46]
  · rw [if_neg hlen, if_pos hmagic] at h
    cases h
  by_cases h32 : b.getD 4 0 = 1
  · rw [if_neg hlen, if_neg hmagic, if_pos h32] at h
    cases h
  by_cases h64 : b.getD 4 0 = 2
  · rw [if_neg hlen, if_neg hmagic, if_neg h32, if_pos h64,
      Elf64.from_bytes_eq (Nat.le_of_not_lt hlen)] at h
    by_cases htables : b.length < 64 ∨
        b.length < (fileHeader b).program_header_table_offset.toNat ∨
          b.length < (fileHeader b).section_header_table_offset.toNat
    · rw [if_pos htables] at h
      cases h
    · rw [if_neg htables] at h
      cases hst : Elf64.stringTable (fileHeader b).section_header_string_table_index.toNat
          (fileSections b) with
      | error e => rw [hst] at h; cases h
      | ok string_table =>
          rw [hst] at h
          cases h
          exact ⟨by omega, by omega, by omega, hst, rfl⟩
  · rw [if_neg hlen, if_neg hmagic, if_neg h32, if_neg h64] at h
    cases h

end Elpytios
