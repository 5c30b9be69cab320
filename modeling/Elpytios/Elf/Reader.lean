import Elpytios.Bootloader.Segments
import Elpytios.Lib.ByteOrder

/-!
# Reading the headers of an ELF file

`Reader` is from `elf/src/lib.rs`, the headers are from `elf/src/sys/`.  A header is read from
bytes as they are, in the byte order of the target.
-/

namespace Elpytios

open ByteOrder

/-- `split_at_checked`. -/
def split_at_checked (bytes : List Byte) (mid : ℕ) : Option (List Byte × List Byte) :=
  if mid ≤ bytes.length then some (bytes.take mid, bytes.drop mid) else none

/-- A type that can be read from any bytes. -/
class AnyBitPattern (T : Type) where
  size : ℕ
  ofBytes : ByteOrder → List Byte → T

/-- The byte order of the target. -/
def nativeOrder : ByteOrder := .little

structure Reader where
  bytes : List Byte
deriving DecidableEq, Repr

namespace Reader

def fork (self : Reader) (offset : ℕ) : Option Reader := do
  let (_, bytes) ← split_at_checked self.bytes offset
  return { bytes }

def take (self : Reader) (count : ℕ) : Option (List Byte) × Reader :=
  match split_at_checked self.bytes count with
  | none => (none, self)
  | some (taken, bytes) => (some taken, { bytes })

def read (T : Type) [AnyBitPattern T] (self : Reader) : Option T × Reader :=
  match self.take (AnyBitPattern.size T) with
  | (none, self) => (none, self)
  | (some taken, self) => (some (AnyBitPattern.ofBytes nativeOrder taken), self)

theorem fork_eq (self : Reader) (offset : ℕ) :
    self.fork offset =
      if offset ≤ self.bytes.length then some ⟨self.bytes.drop offset⟩ else none := by
  rw [fork, split_at_checked]
  split_ifs with h
  · rfl
  · rfl

theorem take_of_le {self : Reader} {count : ℕ} (h : count ≤ self.bytes.length) :
    self.take count = (some (self.bytes.take count), ⟨self.bytes.drop count⟩) := by
  rw [take, split_at_checked, if_pos h]

/-- A reader that is asked for too much stays as it is. -/
theorem take_of_lt {self : Reader} {count : ℕ} (h : self.bytes.length < count) :
    self.take count = (none, self) := by
  rw [take, split_at_checked, if_neg (Nat.not_le.mpr h)]

variable {T : Type} [AnyBitPattern T]

theorem read_of_le {self : Reader} (h : AnyBitPattern.size T ≤ self.bytes.length) :
    self.read T =
      (some (AnyBitPattern.ofBytes nativeOrder (self.bytes.take (AnyBitPattern.size T))),
        ⟨self.bytes.drop (AnyBitPattern.size T)⟩) := by
  rw [read, take_of_le h]

theorem read_of_lt {self : Reader} (h : self.bytes.length < AnyBitPattern.size T) :
    self.read T = (none, self) := by
  rw [read, take_of_lt h]

end Reader

/-! ## Headers -/

/-- The ELF header is always found at the start of the file. -/
structure ElfHeaderPrologue where
  magic : List Byte
  arch : BitVec 8
  endian : BitVec 8
  header_version : BitVec 8
  os_abi : BitVec 8
  elf_type : BitVec 16
  instruction_set : BitVec 16
  elf_version : BitVec 32
deriving DecidableEq, Repr

instance : AnyBitPattern ElfHeaderPrologue where
  size := 24
  ofBytes order bytes :=
    { magic := slice bytes 0 4
      arch := field order bytes 4 1
      endian := field order bytes 5 1
      header_version := field order bytes 6 1
      os_abi := field order bytes 7 1
      elf_type := field order bytes 16 2
      instruction_set := field order bytes 18 2
      elf_version := field order bytes 20 4 }

/-- Continuation of `ElfHeaderPrologue` in the 64-bit format. -/
structure ElfHeader64 where
  program_entry_offset : BitVec 64
  program_header_table_offset : BitVec 64
  section_header_table_offset : BitVec 64
  flags : BitVec 32
  header_size : BitVec 16
  program_header_entry_size : BitVec 16
  program_header_entry_len : BitVec 16
  section_header_entry_size : BitVec 16
  section_header_entry_len : BitVec 16
  section_header_string_table_index : BitVec 16
deriving DecidableEq, Repr

instance : AnyBitPattern ElfHeader64 where
  size := 40
  ofBytes order bytes :=
    { program_entry_offset := field order bytes 0 8
      program_header_table_offset := field order bytes 8 8
      section_header_table_offset := field order bytes 16 8
      flags := field order bytes 24 4
      header_size := field order bytes 28 2
      program_header_entry_size := field order bytes 30 2
      program_header_entry_len := field order bytes 32 2
      section_header_entry_size := field order bytes 34 2
      section_header_entry_len := field order bytes 36 2
      section_header_string_table_index := field order bytes 38 2 }

structure ElfProgramHeader64 where
  segment_type : BitVec 32
  flags : ElfProgramFlags
  segment_offset : BitVec 64
  segment_virtual_address : BitVec 64
  segment_physical_address : BitVec 64
  segment_file_size : BitVec 64
  segment_memory_size : BitVec 64
  section_alignment : BitVec 64
deriving DecidableEq, Repr

instance : AnyBitPattern ElfProgramHeader64 where
  size := 56
  ofBytes order bytes :=
    { segment_type := field order bytes 0 4
      flags := ⟨field order bytes 4 4⟩
      segment_offset := field order bytes 8 8
      segment_virtual_address := field order bytes 16 8
      segment_physical_address := field order bytes 24 8
      segment_file_size := field order bytes 32 8
      segment_memory_size := field order bytes 40 8
      section_alignment := field order bytes 48 8 }

structure ElfSectionType where
  val : BitVec 32
deriving DecidableEq, Repr

/-- A section that takes up no space in the file. -/
def ElfSectionType.NOBITS : ElfSectionType := ⟨8⟩

structure ElfSectionFlags where
  bits : BitVec 64
deriving DecidableEq, Repr

structure ElfSectionHeader64 where
  name_offset : BitVec 32
  section_type : ElfSectionType
  flags : ElfSectionFlags
  virtual_address : BitVec 64
  file_offset : BitVec 64
  size : BitVec 64
  link : BitVec 32
  info : BitVec 32
  alignment : BitVec 64
  entry_size : BitVec 64
deriving DecidableEq, Repr

instance : AnyBitPattern ElfSectionHeader64 where
  size := 64
  ofBytes order bytes :=
    { name_offset := field order bytes 0 4
      section_type := ⟨field order bytes 4 4⟩
      flags := ⟨field order bytes 8 8⟩
      virtual_address := field order bytes 16 8
      file_offset := field order bytes 24 8
      size := field order bytes 32 8
      link := field order bytes 40 4
      info := field order bytes 44 4
      alignment := field order bytes 48 8
      entry_size := field order bytes 56 8 }

end Elpytios
