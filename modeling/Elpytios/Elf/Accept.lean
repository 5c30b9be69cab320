import Elpytios.Elf.Tables

/-!
# The files that are accepted

`Elf::from_bytes` as a list of decisions on the bytes of the file.
-/

namespace Elpytios

open ByteOrder Cursor

/-- A section header of a file. -/
def sectionHeader (b : List Byte) (k : ℕ) : ElfSectionHeader64 :=
  AnyBitPattern.ofBytes nativeOrder (slice b ((sectionTable b).place k) 64)

/-- The section that the header says holds the names. -/
def nameSection (b : List Byte) : ElfSectionHeader64 :=
  sectionHeader b (fileHeader b).section_header_string_table_index.toNat

/-- The loop that looks for the string table gives the section with its number, or an error if
there are not as many. -/
theorem Elf64.stringTable_eq {sections : Elf64Sections}
    {items : List (Except ElfError ElfSection64)} (h : Yields Elf64Sections.next sections items)
    (n : ℕ) : Elf64.stringTable n sections = items.getD n (.error .MissingStringTable) := by
  induction n generalizing sections items with
  | zero =>
      rw [Elf64.stringTable]
      rcases hnext : Elf64Sections.next sections with ⟨_ | x, rest⟩
      · cases h with
        | nothing => rfl
        | item h _ => rw [hnext] at h; cases h
      · cases h with
        | nothing h => rw [hnext] at h; cases h
        | item h _ => rw [hnext] at h; exact Option.some.inj h
  | succ n ih =>
      rw [Elf64.stringTable]
      rcases hnext : Elf64Sections.next sections with ⟨_ | x, rest⟩
      · cases h with
        | nothing => rfl
        | item h _ => rw [hnext] at h; cases h
      · cases h with
        | nothing h => rw [hnext] at h; cases h
        | item _ hitems => rw [hnext] at hitems; exact ih hitems

/-- A section of a table whose entries are as large as headers is there if its header lies in
the file. -/
theorem fileSections_getElem? {b : List Byte} {items : List (Except ElfError ElfSection64)}
    (h : Yields Elf64Sections.next (fileSections b) items)
    (hle : (sectionTable b).offset ≤ b.length) (hsize : (sectionTable b).entry_size = 64) (k : ℕ) :
    items[k]? =
      if k < (sectionTable b).count ∧ (sectionTable b).offset + 64 * (k + 1) ≤ b.length then
        some (Elf64Sections.item ⟨b⟩ (sectionHeader b k))
      else none := by
  have hstart : Starts b (sectionTable b) (fileSections b) := ⟨hle, rfl, rfl, rfl, rfl⟩
  have hplace : ∀ k, (sectionTable b).Holds 64 b k →
      (sectionTable b).readPlace b k = (sectionTable b).place k := by
    apply hstart.readPlace_eq_iff.mpr
    intro k _ hk
    rw [Table.place, hsize] at hk ⊢
    omega
  have hiff : (sectionTable b).Holds 64 b k ↔
      k < (sectionTable b).count ∧ (sectionTable b).offset + 64 * (k + 1) ≤ b.length := by
    rw [← hstart.fits_iff, Strided.fits_iff_of_stride_le (Nat.le_of_eq hsize)]
    change (k < (sectionTable b).count ∧ (sectionTable b).entry_size * k + 64 ≤
      (fileSections b).table_reader.bytes.length) ↔ _
    rw [hstart.length_rest, hsize]
    omega
  refine (hstart.getElem?_of_yields h k).trans ?_
  change (if (sectionTable b).Holds 64 b k then some _ else none) = _
  by_cases hk : (sectionTable b).Holds 64 b k
  · rw [if_pos hk, if_pos (hiff.mp hk), hplace k hk]
    rfl
  · rw [if_neg hk, if_neg (fun hc ↦ hk (hiff.mpr hc))]

/-- The loop that looks for the string table gives one of two errors. -/
theorem Elf64.error_of_stringTable {b : List Byte} {e : ElfError} {n : ℕ}
    (h : Elf64.stringTable n (fileSections b) = .error e) : e = .MissingStringTable ∨ e = .Eof := by
  obtain ⟨items, hitems⟩ := (fileSections b).exists_yields Elf64Sections.item
  rw [Elf64.stringTable_eq hitems, List.getD_eq_getElem?_getD,
    Entries.getElem?_of_yields hitems] at h
  by_cases hfits : Strided.Fits (AnyBitPattern.size ElfSectionHeader64) (fileSections b).position n
  · rw [if_pos hfits, Option.getD_some, fileSections, Elf64Sections.item_eq] at h
    split_ifs at h with hcontents
    exact Or.inr (Except.error.inj h).symm
  · rw [if_neg hfits] at h
    exact Or.inl (Except.error.inj h).symm

/-- The errors of the parser. -/
theorem error_of_from_bytes {b : List Byte} {e : ElfError}
    (h : Elf.from_bytes b = some (.error e)) :
    e = .Eof ∨ e = .InvalidMagic (slice b 0 4) ∨ e = .InvalidArch (b.getD 4 0) ∨
      e = .MissingStringTable := by
  rw [Elf.from_bytes_eq] at h
  split_ifs at h with hlen hmagic h32 h64
  · exact Or.inl (Except.error.inj (Option.some.inj h)).symm
  · exact Or.inr (Or.inl (Except.error.inj (Option.some.inj h)).symm)
  · have herror := Option.some.inj h
    rw [Elf64.from_bytes_eq (Nat.le_of_not_lt hlen)] at herror
    split_ifs at herror with htables
    · exact Or.inl (Except.error.inj herror).symm
    · cases hst : Elf64.stringTable (fileHeader b).section_header_string_table_index.toNat
          (fileSections b) with
      | ok string_table => rw [hst] at herror; cases herror
      | error e' =>
          rw [hst] at herror
          obtain rfl := Except.error.inj herror
          rcases Elf64.error_of_stringTable hst with rfl | rfl
          · exact Or.inr (Or.inr (Or.inr rfl))
          · exact Or.inl rfl
  · exact Or.inr (Or.inr (Or.inl (Except.error.inj (Option.some.inj h)).symm))

/-- What `Elf::from_bytes` makes of a file that is not of the 32-bit kind and whose section
headers are of the usual size. -/
theorem from_bytes_eq_decisions {b : List Byte} (hclass : b.getD 4 0 ≠ 1)
    (hsize : 64 ≤ b.length → (fileHeader b).section_header_entry_size = 64) :
    Elf.from_bytes b = some (
      if b.length < 24 then .error .Eof
      else if slice b 0 4 ≠ [0x7F, 0x45, 0x4C, 0x46] then .error (.InvalidMagic (slice b 0 4))
      else if b.getD 4 0 ≠ 2 then .error (.InvalidArch (b.getD 4 0))
      else if b.length < 64 ∨ b.length < (fileHeader b).program_header_table_offset.toNat ∨
          b.length < (fileHeader b).section_header_table_offset.toNat then .error .Eof
      else if (fileHeader b).section_header_entry_len.toNat ≤
            (fileHeader b).section_header_string_table_index.toNat ∨
          b.length < (fileHeader b).section_header_table_offset.toNat +
            64 * ((fileHeader b).section_header_string_table_index.toNat + 1) then
        .error .MissingStringTable
      else if b.length < (nameSection b).file_offset.toNat + (nameSection b).size.toNat then
        .error .Eof
      else .ok (.ofFile b (sectionOf b (nameSection b)))) := by
  rw [Elf.from_bytes_eq]
  by_cases hlen : b.length < 24
  · rw [if_pos hlen, if_pos hlen]
  rw [if_neg hlen, if_neg hlen]
  by_cases hmagic : slice b 0 4 ≠ [0x7F, 0x45, 0x4C, 0x46]
  · rw [if_pos hmagic, if_pos hmagic]
  rw [if_neg hmagic, if_neg hmagic, if_neg hclass]
  by_cases harch : b.getD 4 0 = 2
  · rw [if_pos harch, if_neg (not_not.mpr harch), Elf64.from_bytes_eq (Nat.le_of_not_lt hlen)]
    apply congrArg some
    by_cases htables : b.length < 64 ∨
        b.length < (fileHeader b).program_header_table_offset.toNat ∨
          b.length < (fileHeader b).section_header_table_offset.toNat
    · rw [if_pos htables, if_pos htables]
    rw [if_neg htables, if_neg htables]
    have hsize64 : (sectionTable b).entry_size = 64 := by
      rw [sectionTable, hsize (by omega)]; rfl
    have hoffset : (sectionTable b).offset = (fileHeader b).section_header_table_offset.toNat := rfl
    have hcount : (sectionTable b).count = (fileHeader b).section_header_entry_len.toNat := rfl
    obtain ⟨items, hitems⟩ := (fileSections b).exists_yields Elf64Sections.item
    have hget := fileSections_getElem? hitems (by rw [hoffset]; omega) hsize64
      (fileHeader b).section_header_string_table_index.toNat
    rw [hoffset, hcount] at hget
    rw [Elf64.stringTable_eq hitems, List.getD_eq_getElem?_getD, hget]
    by_cases hmissing : (fileHeader b).section_header_entry_len.toNat ≤
          (fileHeader b).section_header_string_table_index.toNat ∨
        b.length < (fileHeader b).section_header_table_offset.toNat +
          64 * ((fileHeader b).section_header_string_table_index.toNat + 1)
    · rw [if_pos hmissing, if_neg]
      · rfl
      · omega
    rw [if_neg hmissing, if_pos (by omega), Option.getD_some, Elf64Sections.item_eq]
    change (if (nameSection b).file_offset.toNat + (nameSection b).size.toNat ≤ b.length then
      Except.ok (sectionOf b (nameSection b)) else Except.error ElfError.Eof) >>= _ = _
    by_cases hcontents : b.length < (nameSection b).file_offset.toNat + (nameSection b).size.toNat
    · rw [if_pos hcontents, if_neg (Nat.not_le.mpr hcontents)]
      rfl
    · rw [if_neg hcontents, if_pos (Nat.le_of_not_lt hcontents)]
      rfl
  · rw [if_neg harch, if_pos harch]

theorem from_bytes_two_segments :
    Elf.from_bytes twoSegments = some (.ok (.ofFile twoSegments ⟨0, [], 0⟩)) :=
  (from_bytes_eq_decisions (by decide +kernel) (fun _ ↦ by decide +kernel)).trans
    (by decide +kernel)

end Elpytios
