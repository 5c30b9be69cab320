import Elpytios.Elf.Accept

/-!
# The byte order of a file

The prologue of a file says in which byte order its numbers are.  The parser reads all of them in
the order of the target and does not look at what the file says.
-/

namespace Elpytios

open ByteOrder Cursor

/-- The byte order that a file says its numbers are in. -/
def declaredOrder (b : List Byte) : Option ByteOrder :=
  if b.getD 5 0 = 1 then some .little else if b.getD 5 0 = 2 then some .big else none

/-- What a parsed file exposes is what the file says, in a byte order: the fields of its header,
and those of each segment and section it gives. -/
structure ReadAs (order : ByteOrder) (b : List Byte) (elf : Elf64) : Prop where
  header_eq : elf.header = AnyBitPattern.ofBytes order (slice b 24 40)
  segment_eq : ∀ segments, Yields Elf64Programs.next elf.program_segments segments →
    ∀ k segment, segments[k]? = some (.ok segment) →
      segment = segmentOf b (AnyBitPattern.ofBytes order
        (slice b (after Elf64Programs.next k elf.program_segments).readPlace 56))
  section_eq : ∀ items, Yields Elf64Sections.next elf.sections items →
    ∀ k section_, items[k]? = some (.ok section_) →
      section_ = sectionOf b (AnyBitPattern.ofBytes order
        (slice b (after Elf64Sections.next k elf.sections).readPlace 64))

/-! ## Fields that are the same in both orders -/

/-- The bytes of each field, given by its offset and width, read the same backwards. -/
def Palindromic (b : List Byte) (place : ℕ) (fields : List (ℕ × ℕ)) : Prop :=
  ∀ field ∈ fields, (slice b (place + field.1) field.2).reverse = slice b (place + field.1) field.2

instance (b : List Byte) (place : ℕ) (fields : List (ℕ × ℕ)) :
    Decidable (Palindromic b place fields) := inferInstanceAs (Decidable (∀ _ ∈ fields, _))

/-- The fields of the header, after the prologue. -/
def headerFields : List (ℕ × ℕ) :=
  [(0, 8), (8, 8), (16, 8), (24, 4), (28, 2), (30, 2), (32, 2), (34, 2), (36, 2), (38, 2)]

/-- The fields of a program header that a segment has, without the place of its contents. -/
def segmentFields : List (ℕ × ℕ) := [(0, 4), (4, 4), (16, 8), (24, 8), (40, 8), (48, 8)]

/-- The fields of a section header that a section has, without the place of its contents. -/
def sectionFields : List (ℕ × ℕ) := [(0, 4), (16, 8)]

/-- The contents of an entry, with its offset and its size at the given places. -/
def contentsAt (order : ByteOrder) (b : List Byte) (offset size : ℕ) : List Byte :=
  slice b (field order b offset 8).toNat (field order b size 8).toNat

/-- The contents that an entry asks for lie in the file. -/
def ContentsFit (b : List Byte) (offset size : ℕ) : Prop :=
  (field nativeOrder b offset 8).toNat + (field nativeOrder b size 8).toNat ≤ b.length

/-- Everything that is read from a file and exposed is the same in both orders. -/
structure SameInBothOrders (b : List Byte) : Prop where
  header : Palindromic b 24 headerFields
  segments : ∀ k, (programTable b).Holds 56 b k →
    ContentsFit b ((programTable b).readPlace b k + 8) ((programTable b).readPlace b k + 32) →
      Palindromic b ((programTable b).readPlace b k) segmentFields ∧
        contentsAt .little b ((programTable b).readPlace b k + 8)
            ((programTable b).readPlace b k + 32) =
          contentsAt .big b ((programTable b).readPlace b k + 8)
            ((programTable b).readPlace b k + 32)
  sections : ∀ k, (sectionTable b).Holds 64 b k →
    ContentsFit b ((sectionTable b).readPlace b k + 24) ((sectionTable b).readPlace b k + 32) →
      Palindromic b ((sectionTable b).readPlace b k) sectionFields ∧
        contentsAt .little b ((sectionTable b).readPlace b k + 24)
            ((sectionTable b).readPlace b k + 32) =
          contentsAt .big b ((sectionTable b).readPlace b k + 24)
            ((sectionTable b).readPlace b k + 32)

theorem header_eq_iff (b : List Byte) :
    (AnyBitPattern.ofBytes .little (slice b 24 40) : ElfHeader64) =
        AnyBitPattern.ofBytes .big (slice b 24 40) ↔ Palindromic b 24 headerFields := by
  simp (disch := decide) only [AnyBitPattern.ofBytes, ElfHeader64.mk.injEq, field_slice,
    Palindromic, headerFields, List.forall_mem_cons, List.not_mem_nil, IsEmpty.forall_iff,
    implies_true, and_true]
  iterate 9 refine and_congr field_little_eq_big_iff ?_
  exact field_little_eq_big_iff

/-- The number of a segment type. -/
def ElfSegmentType.number : ElfSegmentType → BitVec 32
  | .Null => 0
  | .Load => 1
  | .Dynamic => 2
  | .Interp => 3
  | .Note => 4
  | .Shlib => 5
  | .Header => 6
  | .Tls => 7
  | .Unknown n => n

theorem ElfSegmentType.number_of (n : BitVec 32) : (ElfSegmentType.of n).number = n := by
  rw [ElfSegmentType.of]
  split <;> rename_i h
  all_goals first | rfl | exact BitVec.eq_of_toNat_eq h.symm

theorem ElfSegmentType.of_inj {n m : BitVec 32} :
    ElfSegmentType.of n = ElfSegmentType.of m ↔ n = m := by
  constructor
  · intro h
    rw [← ElfSegmentType.number_of n, h, ElfSegmentType.number_of]
  · rintro rfl
    rfl

theorem segment_eq_iff (b : List Byte) (place : ℕ) :
    segmentOf b (AnyBitPattern.ofBytes .little (slice b place 56)) =
        segmentOf b (AnyBitPattern.ofBytes .big (slice b place 56)) ↔
      Palindromic b place segmentFields ∧
        contentsAt .little b (place + 8) (place + 32) =
          contentsAt .big b (place + 8) (place + 32) := by
  simp (disch := decide) only [segmentOf, AnyBitPattern.ofBytes, ElfSegment64.mk.injEq,
    ElfProgramFlags.mk.injEq, ElfSegmentType.of_inj, field_slice,
    Palindromic, segmentFields, List.forall_mem_cons, List.not_mem_nil, IsEmpty.forall_iff,
    implies_true, and_true, contentsAt]
  constructor
  · rintro ⟨htype, hdata, hflags, hvirtual, hphysical, hmemory, halign⟩
    exact ⟨⟨field_little_eq_big_iff.mp htype, field_little_eq_big_iff.mp hflags,
      field_little_eq_big_iff.mp hvirtual, field_little_eq_big_iff.mp hphysical,
      field_little_eq_big_iff.mp hmemory, field_little_eq_big_iff.mp halign⟩, hdata⟩
  · rintro ⟨⟨htype, hflags, hvirtual, hphysical, hmemory, halign⟩, hdata⟩
    exact ⟨field_little_eq_big_iff.mpr htype, hdata, field_little_eq_big_iff.mpr hflags,
      field_little_eq_big_iff.mpr hvirtual, field_little_eq_big_iff.mpr hphysical,
      field_little_eq_big_iff.mpr hmemory, field_little_eq_big_iff.mpr halign⟩

theorem section_eq_iff (b : List Byte) (place : ℕ) :
    sectionOf b (AnyBitPattern.ofBytes .little (slice b place 64)) =
        sectionOf b (AnyBitPattern.ofBytes .big (slice b place 64)) ↔
      Palindromic b place sectionFields ∧
        contentsAt .little b (place + 24) (place + 32) =
          contentsAt .big b (place + 24) (place + 32) := by
  simp (disch := decide) only [sectionOf, AnyBitPattern.ofBytes, ElfSection64.mk.injEq,
    BitVec.toNat_inj, field_slice, Palindromic, sectionFields, List.forall_mem_cons,
    List.not_mem_nil, IsEmpty.forall_iff, implies_true, and_true, contentsAt]
  constructor
  · rintro ⟨hname, hdata, hvirtual⟩
    exact ⟨⟨field_little_eq_big_iff.mp hname, field_little_eq_big_iff.mp hvirtual⟩, hdata⟩
  · rintro ⟨⟨hname, hvirtual⟩, hdata⟩
    exact ⟨field_little_eq_big_iff.mpr hname, hdata, field_little_eq_big_iff.mpr hvirtual⟩

/-! ## What is read -/

variable {b : List Byte} {elf : Elf64}

theorem header_of_from_bytes (h : Elf.from_bytes b = some (.ok elf)) :
    elf.header = AnyBitPattern.ofBytes .little (slice b 24 40) := by
  rw [(accepted_of_from_bytes h).eq_ofFile]
  rfl

/-- The segments that are given, and where their headers are read. -/
theorem segment_iff (h : Elf.from_bytes b = some (.ok elf))
    {segments : List (Except ElfError ElfSegment64)}
    (hsegments : Yields Elf64Programs.next elf.program_segments segments) {k : ℕ}
    {segment : ElfSegment64} :
    segments[k]? = some (.ok segment) ↔
      (programTable b).Holds 56 b k ∧
        ContentsFit b ((programTable b).readPlace b k + 8) ((programTable b).readPlace b k + 32) ∧
        segment = segmentOf b
          (AnyBitPattern.ofBytes .little (slice b ((programTable b).readPlace b k) 56)) := by
  rw [(starts_of_from_bytes h).1.getElem?_of_yields hsegments]
  change (if (programTable b).Holds 56 b k then some (Elf64Programs.item ⟨b⟩ _) else none) = _ ↔ _
  have hfit : ContentsFit b ((programTable b).readPlace b k + 8)
      ((programTable b).readPlace b k + 32) ↔
      (field nativeOrder (slice b ((programTable b).readPlace b k) 56) 8 8).toNat +
        (field nativeOrder (slice b ((programTable b).readPlace b k) 56) 32 8).toNat ≤
          b.length := by
    rw [ContentsFit, field_slice (by decide), field_slice (by decide)]
  rw [hfit, Elf64Programs.item_eq]
  constructor
  · intro hget
    split_ifs at hget with hk hcontents
    · exact ⟨hk, hcontents, (Except.ok.inj (Option.some.inj hget)).symm⟩
    · cases Option.some.inj hget
  · rintro ⟨hk, hcontents, rfl⟩
    rw [if_pos hk]
    exact congrArg some (if_pos hcontents)

/-- The sections that are given, and where their headers are read. -/
theorem section_iff (h : Elf.from_bytes b = some (.ok elf))
    {items : List (Except ElfError ElfSection64)}
    (hitems : Yields Elf64Sections.next elf.sections items) {k : ℕ} {section_ : ElfSection64} :
    items[k]? = some (.ok section_) ↔
      (sectionTable b).Holds 64 b k ∧
        ContentsFit b ((sectionTable b).readPlace b k + 24) ((sectionTable b).readPlace b k + 32) ∧
        section_ = sectionOf b
          (AnyBitPattern.ofBytes .little (slice b ((sectionTable b).readPlace b k) 64)) := by
  rw [(starts_of_from_bytes h).2.getElem?_of_yields hitems]
  change (if (sectionTable b).Holds 64 b k then some (Elf64Sections.item ⟨b⟩ _) else none) = _ ↔ _
  have hfit : ContentsFit b ((sectionTable b).readPlace b k + 24)
      ((sectionTable b).readPlace b k + 32) ↔
      (field nativeOrder (slice b ((sectionTable b).readPlace b k) 64) 24 8).toNat +
        (field nativeOrder (slice b ((sectionTable b).readPlace b k) 64) 32 8).toNat ≤
          b.length := by
    rw [ContentsFit, field_slice (by decide), field_slice (by decide)]
  rw [hfit, Elf64Sections.item_eq]
  constructor
  · intro hget
    split_ifs at hget with hk hcontents
    · exact ⟨hk, hcontents, (Except.ok.inj (Option.some.inj hget)).symm⟩
    · cases Option.some.inj hget
  · rintro ⟨hk, hcontents, rfl⟩
    rw [if_pos hk]
    exact congrArg some (if_pos hcontents)

/-- A file is read in some order exactly if what is exposed of it is the same in that order and in
the order of the target. -/
theorem readAs_iff (h : Elf.from_bytes b = some (.ok elf)) (order : ByteOrder) :
    ReadAs order b elf ↔
      (AnyBitPattern.ofBytes .little (slice b 24 40) : ElfHeader64) =
        AnyBitPattern.ofBytes order (slice b 24 40) ∧
      (∀ k, (programTable b).Holds 56 b k →
        ContentsFit b ((programTable b).readPlace b k + 8) ((programTable b).readPlace b k + 32) →
          segmentOf b (AnyBitPattern.ofBytes .little
              (slice b ((programTable b).readPlace b k) 56)) =
            segmentOf b (AnyBitPattern.ofBytes order
              (slice b ((programTable b).readPlace b k) 56))) ∧
      ∀ k, (sectionTable b).Holds 64 b k →
        ContentsFit b ((sectionTable b).readPlace b k + 24) ((sectionTable b).readPlace b k + 32) →
          sectionOf b (AnyBitPattern.ofBytes .little
              (slice b ((sectionTable b).readPlace b k) 64)) =
            sectionOf b (AnyBitPattern.ofBytes order
              (slice b ((sectionTable b).readPlace b k) 64)) := by
  obtain ⟨hprograms, hsections⟩ := starts_of_from_bytes h
  have hprogram : ∀ k, (programTable b).Holds 56 b k →
      (after Elf64Programs.next k elf.program_segments).readPlace =
        (programTable b).readPlace b k := fun k hk ↦ hprograms.readPlace_after hk
  have hsection : ∀ k, (sectionTable b).Holds 64 b k →
      (after Elf64Sections.next k elf.sections).readPlace = (sectionTable b).readPlace b k :=
    fun k hk ↦ hsections.readPlace_after hk
  constructor
  · rintro ⟨hheader, hsegments, hitems⟩
    refine ⟨(header_of_from_bytes h).symm.trans hheader, fun k hk hfit ↦ ?_, fun k hk hfit ↦ ?_⟩
    · obtain ⟨segments, hyields⟩ := elf.program_segments.exists_yields Elf64Programs.item
      rw [← hprogram k hk]
      apply hsegments segments hyields k _
      rw [hprogram k hk]
      exact (segment_iff h hyields).mpr ⟨hk, hfit, rfl⟩
    · obtain ⟨items, hyields⟩ := elf.sections.exists_yields Elf64Sections.item
      rw [← hsection k hk]
      apply hitems items hyields k _
      rw [hsection k hk]
      exact (section_iff h hyields).mpr ⟨hk, hfit, rfl⟩
  · rintro ⟨hheader, hsegments, hitems⟩
    constructor
    · exact (header_of_from_bytes h).trans hheader
    · intro segments hyields k segment hget
      obtain ⟨hk, hfit, rfl⟩ := (segment_iff h hyields).mp hget
      rw [hprogram k hk]
      exact hsegments k hk hfit
    · intro items hyields k section_ hget
      obtain ⟨hk, hfit, rfl⟩ := (section_iff h hyields).mp hget
      rw [hsection k hk]
      exact hitems k hk hfit

theorem readAs_big_iff (h : Elf.from_bytes b = some (.ok elf)) :
    ReadAs .big b elf ↔ SameInBothOrders b := by
  rw [readAs_iff h]
  constructor
  · rintro ⟨hheader, hsegments, hsections⟩
    exact ⟨(header_eq_iff b).mp hheader,
      fun k hk hfit ↦ (segment_eq_iff b _).mp (hsegments k hk hfit),
      fun k hk hfit ↦ (section_eq_iff b _).mp (hsections k hk hfit)⟩
  · rintro ⟨hheader, hsegments, hsections⟩
    exact ⟨(header_eq_iff b).mpr hheader,
      fun k hk hfit ↦ (segment_eq_iff b _).mpr (hsegments k hk hfit),
      fun k hk hfit ↦ (section_eq_iff b _).mpr (hsections k hk hfit)⟩

/-- A file with two segments that says that its numbers are big-endian. -/
def bigEndian : List Byte :=
  smallHeader 2 128 64 56 2 1 ++ nullSection ++ smallSegment ++ smallSegment

end Elpytios
