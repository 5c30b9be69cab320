import Elpytios.Elf.Accept

/-!
# Sections without contents, and the names of sections

A section of type `NOBITS` takes up no bytes of the file, whatever offset and size its header has.
The parser looks for its bytes all the same.  And nothing relates the offset of a name to the
section the names are in.
-/

namespace Elpytios

open ByteOrder Cursor

/-! ## Sections without contents -/

/-- The section table lies in the file, and so do the contents of every section that has some. -/
structure WellFormedSections (b : List Byte) : Prop where
  entry_size : (sectionTable b).entry_size = 64
  table_le : (sectionTable b).place (sectionTable b).count ≤ b.length
  contents_le : ∀ k < (sectionTable b).count, (sectionHeader b k).section_type ≠ .NOBITS →
    (sectionHeader b k).file_offset.toNat + (sectionHeader b k).size.toNat ≤ b.length

/-- A search by name, like the bootloader's for `.bootinfo`.  An item that is an error ends the
build, and so does a name that cannot be read. -/
def findSection (elf : Elf64) (wanted : List Byte) :
    List (Except ElfError ElfSection64) → Option (Option ElfSection64)
  | [] => some none
  | .error _ :: _ => none
  | .ok section_ :: rest =>
      match section_.name elf with
      | none => none
      | some name => if name = wanted then some (some section_) else findSection elf wanted rest

/-- There is a section for each header, and a search for the name of one of them gets to a section
of that name. -/
structure Searchable (b : List Byte) (elf : Elf64) (items : List (Except ElfError ElfSection64)) :
    Prop where
  length_eq : items.length = (sectionTable b).count
  ok : ∀ item ∈ items, ∃ section_, item = .ok section_
  found : ∀ section_ name, .ok section_ ∈ items → section_.name elf = some name →
    ∃ first, findSection elf name items = some (some first) ∧ first.name elf = some name

/-- The name that a header stands for, if it begins in the string table or at its end. -/
def headerName (elf : Elf64) (header : ElfSectionHeader64) : Option (List Byte) :=
  if header.name_offset.toNat ≤ elf.string_table.data.length then
    some ((elf.string_table.data.drop header.name_offset.toNat).takeWhile (· ≠ 0))
  else none

/-- No section without a name is before the first section of some name. -/
def NamesReached (b : List Byte) (elf : Elf64) : Prop :=
  ∀ k < (sectionTable b).count, headerName elf (sectionHeader b k) ≠ none →
    ∀ i < k, headerName elf (sectionHeader b i) = none →
      ∃ j < i, headerName elf (sectionHeader b j) = headerName elf (sectionHeader b k)

/-! ### The search -/

/-- A section with the given name and all sections before it are there, and it is the first of
that name. -/
structure FirstNamed (elf : Elf64) (items : List (Except ElfError ElfSection64))
    (wanted : List Byte) (k : ℕ) (section_ : ElfSection64) : Prop where
  getElem? : items[k]? = some (.ok section_)
  name : section_.name elf = some wanted
  before : ∀ j < k, ∃ other name, items[j]? = some (.ok other) ∧ other.name elf = some name ∧
    name ≠ wanted

section

variable {elf : Elf64} {item : Except ElfError ElfSection64}
  {items rest : List (Except ElfError ElfSection64)} {wanted : List Byte} {k : ℕ}
  {section_ : ElfSection64}

theorem firstNamed_zero : FirstNamed elf (item :: rest) wanted 0 section_ ↔
    item = .ok section_ ∧ section_.name elf = some wanted := by
  constructor
  · rintro ⟨hget, hname, -⟩
    exact ⟨Option.some.inj hget, hname⟩
  · rintro ⟨rfl, hname⟩
    exact ⟨rfl, hname, nofun⟩

theorem firstNamed_succ : FirstNamed elf (item :: rest) wanted (k + 1) section_ ↔
    (∃ other name, item = .ok other ∧ other.name elf = some name ∧ name ≠ wanted) ∧
      FirstNamed elf rest wanted k section_ := by
  constructor
  · rintro ⟨hget, hname, hbefore⟩
    obtain ⟨other, name, hitem, hother⟩ := hbefore 0 (Nat.succ_pos k)
    exact ⟨⟨other, name, Option.some.inj hitem, hother⟩,
      hget, hname, fun j hj ↦ hbefore (j + 1) (Nat.succ_lt_succ hj)⟩
  · rintro ⟨⟨other, name, rfl, hother⟩, hget, hname, hbefore⟩
    refine ⟨hget, hname, fun j hj ↦ ?_⟩
    rcases j with _ | j
    · exact ⟨other, name, rfl, hother⟩
    · exact hbefore j (Nat.lt_of_succ_lt_succ hj)

/-- The first item is either the section or one that the search goes past. -/
theorem exists_firstNamed_cons : (∃ k, FirstNamed elf (item :: rest) wanted k section_) ↔
    (item = .ok section_ ∧ section_.name elf = some wanted) ∨
      (∃ other name, item = .ok other ∧ other.name elf = some name ∧ name ≠ wanted) ∧
        ∃ k, FirstNamed elf rest wanted k section_ := by
  constructor
  · rintro ⟨_ | k, hfirst⟩
    · exact Or.inl (firstNamed_zero.mp hfirst)
    · obtain ⟨hitem, hfirst'⟩ := firstNamed_succ.mp hfirst
      exact Or.inr ⟨hitem, k, hfirst'⟩
  · rintro (hitem | ⟨hitem, k, hfirst⟩)
    · exact ⟨0, firstNamed_zero.mpr hitem⟩
    · exact ⟨k + 1, firstNamed_succ.mpr ⟨hitem, hfirst⟩⟩

/-- The search ends at the first section of the name, if it gets there. -/
theorem findSection_eq_some :
    findSection elf wanted items = some (some section_) ↔
      ∃ k, FirstNamed elf items wanted k section_ := by
  induction items with
  | nil =>
      refine ⟨nofun, ?_⟩
      rintro ⟨k, hget, -, -⟩
      cases hget
  | cons item rest ih =>
      rw [exists_firstNamed_cons, ← ih]
      rcases item with err | head
      · simp [findSection]
      · rw [findSection]
        cases hname : head.name elf with
        | none =>
            refine ⟨nofun, ?_⟩
            rintro (⟨heq, hwanted⟩ | ⟨⟨other, name, heq, hother, -⟩, -⟩)
            · obtain rfl := Except.ok.inj heq
              rw [hname] at hwanted
              cases hwanted
            · obtain rfl := Except.ok.inj heq
              rw [hname] at hother
              cases hother
        | some name =>
            by_cases hwanted : name = wanted
            · subst hwanted
              simp only [if_true, Option.some.injEq, Except.ok.injEq]
              constructor
              · rintro rfl
                exact Or.inl ⟨rfl, hname⟩
              · rintro (⟨rfl, -⟩ | ⟨⟨other, name', rfl, hother, hne⟩, -⟩)
                · rfl
                · exact absurd (Option.some.inj (hother.symm.trans hname)) hne
            · simp only [if_neg hwanted, Except.ok.injEq]
              constructor
              · exact fun h ↦ Or.inr ⟨⟨head, name, rfl, hname, hwanted⟩, h⟩
              · rintro (⟨rfl, hname'⟩ | ⟨-, h⟩)
                · exact absurd (Option.some.inj (hname.symm.trans hname')) hwanted
                · exact h

/-- The search gets to a section of a name exactly if there is one with readable names before
it. -/
theorem exists_findSection_iff :
    (∃ first, findSection elf wanted items = some (some first) ∧ first.name elf = some wanted) ↔
      ∃ (k : ℕ) (section_ : ElfSection64), items[k]? = some (.ok section_) ∧
        section_.name elf = some wanted ∧
        ∀ j < k, ∃ (other : ElfSection64) (name : List Byte), items[j]? = some (.ok other) ∧
          other.name elf = some name := by
  constructor
  · rintro ⟨first, hfind, -⟩
    obtain ⟨k, hget, hname, hbefore⟩ := findSection_eq_some.mp hfind
    refine ⟨k, first, hget, hname, fun j hj ↦ ?_⟩
    obtain ⟨other, name, hother, hname', -⟩ := hbefore j hj
    exact ⟨other, name, hother, hname'⟩
  · rintro ⟨k, section_, hget, hname, hbefore⟩
    -- the first section of the name, of those up to `k`
    have hex : ∃ (k : ℕ) (section_ : ElfSection64), items[k]? = some (.ok section_) ∧
        section_.name elf = some wanted := ⟨k, section_, hget, hname⟩
    classical
    obtain ⟨first, hfirst, hwanted⟩ := Nat.find_spec hex
    have hle : Nat.find hex ≤ k := Nat.find_min' hex ⟨section_, hget, hname⟩
    refine ⟨first, findSection_eq_some.mpr ⟨Nat.find hex, hfirst, hwanted, fun j hj ↦ ?_⟩, hwanted⟩
    obtain ⟨other, name, hother, hname'⟩ := hbefore j (by omega)
    refine ⟨other, name, hother, hname', ?_⟩
    rintro rfl
    exact Nat.find_min hex hj ⟨other, hother, hname'⟩

end

theorem ElfSection64.nameEnd_eq (bytes : List Byte) (stop : ℕ) :
    ElfSection64.nameEnd bytes stop = stop + (bytes.takeWhile (· ≠ 0)).length := by
  induction bytes generalizing stop with
  | nil => rfl
  | cons byte rest ih =>
      rw [ElfSection64.nameEnd]
      by_cases hbyte : byte = 0
      · rw [if_pos hbyte, List.takeWhile_cons_of_neg (by simpa using hbyte)]
        rfl
      · rw [if_neg hbyte, ih, List.takeWhile_cons_of_pos (by simpa using hbyte), List.length_cons]
        omega

/-- A name that begins in the table ends before the first zero, or with the table. -/
theorem ElfSection64.name_of_le {section_ : ElfSection64} {elf : Elf64}
    (h : section_.name_offset ≤ elf.string_table.data.length) :
    section_.name elf =
      some ((elf.string_table.data.drop section_.name_offset).takeWhile (· ≠ 0)) := by
  have hprefix := List.takeWhile_prefix (l := elf.string_table.data.drop section_.name_offset)
    (p := (· ≠ 0))
  have hlen := hprefix.length_le
  rw [List.length_drop] at hlen
  rw [ElfSection64.name, ElfSection64.nameEnd_eq, if_pos ⟨Nat.le_add_right _ _, by omega⟩, slice,
    Nat.add_sub_cancel_left]
  exact congrArg some (List.prefix_iff_eq_take.mp hprefix).symm

/-- The name of a section is the one its header stands for. -/
theorem name_sectionOf (b : List Byte) (elf : Elf64) (header : ElfSectionHeader64) :
    (sectionOf b header).name elf = headerName elf header := by
  rw [headerName]
  split_ifs with hle
  · exact ElfSection64.name_of_le hle
  · rw [ElfSection64.name, ElfSection64.nameEnd_eq, if_neg]
    rintro ⟨-, hstop⟩
    exact hle (Nat.le_trans (Nat.le_add_right _ _) hstop)

/-! ### In a well-formed file -/

/-- There are as many sections as the header says if the table lies in the file. -/
theorem WellFormedSections.getElem?_eq {b : List Byte} (hwf : WellFormedSections b)
    {items : List (Except ElfError ElfSection64)}
    (h : Yields Elf64Sections.next (fileSections b) items) (k : ℕ) :
    items[k]? =
      if k < (sectionTable b).count then some (Elf64Sections.item ⟨b⟩ (sectionHeader b k))
      else none := by
  have htable := hwf.table_le
  rw [Table.place, hwf.entry_size] at htable
  rw [fileSections_getElem? h (by omega) hwf.entry_size]
  by_cases hk : k < (sectionTable b).count
  · rw [if_pos ⟨hk, by omega⟩, if_pos hk]
  · rw [if_neg (fun hc ↦ hk hc.1), if_neg hk]

/-- The searches get to their sections exactly if no section without a name is in their way. -/
theorem WellFormedSections.found_iff {b : List Byte} (hwf : WellFormedSections b) {elf : Elf64}
    {items : List (Except ElfError ElfSection64)}
    (h : Yields Elf64Sections.next (fileSections b) items)
    (hok : ∀ k < (sectionTable b).count,
      Elf64Sections.item ⟨b⟩ (sectionHeader b k) = .ok (sectionOf b (sectionHeader b k))) :
    (∀ section_ name, .ok section_ ∈ items → section_.name elf = some name →
      ∃ first, findSection elf name items = some (some first) ∧ first.name elf = some name) ↔
      NamesReached b elf := by
  have hget (k : ℕ) (hk : k < (sectionTable b).count) :
      items[k]? = some (.ok (sectionOf b (sectionHeader b k))) := by
    rw [hwf.getElem?_eq h, if_pos hk, hok k hk]
  have hsection {k : ℕ} {section_ : ElfSection64} (hk : items[k]? = some (.ok section_)) :
      k < (sectionTable b).count ∧ section_ = sectionOf b (sectionHeader b k) := by
    have hitem := hwf.getElem?_eq h k
    rw [hk] at hitem
    split_ifs at hitem with hlt
    rw [hok k hlt] at hitem
    exact ⟨hlt, Except.ok.inj (Option.some.inj hitem)⟩
  simp only [exists_findSection_iff]
  constructor
  · intro hfound k hk hname i hi hnone
    obtain ⟨name, hname⟩ := Option.ne_none_iff_exists'.mp hname
    obtain ⟨j, other, hj, hother, hbefore⟩ := hfound _ name (List.mem_of_getElem? (hget k hk))
      ((name_sectionOf b elf _).trans hname)
    obtain ⟨-, rfl⟩ := hsection hj
    rw [name_sectionOf] at hother
    refine ⟨j, ?_, hother.trans hname.symm⟩
    by_contra hle
    have hij : i < j ∨ i = j := by omega
    rcases hij with hij | rfl
    · obtain ⟨earlier, name', hearlier, hname'⟩ := hbefore i hij
      obtain ⟨-, rfl⟩ := hsection hearlier
      rw [name_sectionOf, hnone] at hname'
      cases hname'
    · rw [hnone] at hother
      cases hother
  · intro hreached section_ name hmem hname
    obtain ⟨k, hk⟩ := List.mem_iff_getElem?.mp hmem
    obtain ⟨hlt, rfl⟩ := hsection hk
    rw [name_sectionOf] at hname
    -- the first section without a name, if there is one before it
    by_cases hex : ∃ i, i < k ∧ headerName elf (sectionHeader b i) = none
    · have hmin : ∀ j < Nat.find hex, headerName elf (sectionHeader b j) ≠ none := fun j hj hnone ↦
        Nat.find_min hex hj ⟨hj.trans (Nat.find_spec hex).1, hnone⟩
      obtain ⟨hi, hnone⟩ := Nat.find_spec hex
      obtain ⟨j, hj, hsame⟩ := hreached k hlt (by rw [hname]; nofun) _ hi hnone
      refine ⟨j, _, hget j (by omega), (name_sectionOf b elf _).trans (hsame.trans hname), ?_⟩
      intro j' hj'
      obtain ⟨name', hname'⟩ := Option.ne_none_iff_exists'.mp (hmin j' (by omega))
      exact ⟨_, name', hget j' (by omega), (name_sectionOf b elf _).trans hname'⟩
    · refine ⟨k, _, hk, (name_sectionOf b elf _).trans hname, fun j hj ↦ ?_⟩
      obtain ⟨name', hname'⟩ := Option.ne_none_iff_exists'.mp fun hnone ↦ hex ⟨j, hj, hnone⟩
      exact ⟨_, name', hget j (by omega), (name_sectionOf b elf _).trans hname'⟩

/-- In a well-formed file a section is found for each header, and each name, exactly if the
sections without contents have offsets and sizes that lie in the file too and no section without a
name is in the way. -/
theorem searchable_iff {b : List Byte} {elf : Elf64} (h : Elf.from_bytes b = some (.ok elf))
    (hwf : WellFormedSections b) :
    (∃ items, Yields Elf64Sections.next elf.sections items ∧ Searchable b elf items) ↔
      (∀ k < (sectionTable b).count, (sectionHeader b k).section_type = .NOBITS →
        (sectionHeader b k).file_offset.toNat + (sectionHeader b k).size.toNat ≤ b.length) ∧
      NamesReached b elf := by
  have hsections : elf.sections = fileSections b := by
    rw [(accepted_of_from_bytes h).eq_ofFile]
    rfl
  have hitem {k : ℕ} (hle : (sectionHeader b k).file_offset.toNat +
      (sectionHeader b k).size.toNat ≤ b.length) :
      Elf64Sections.item ⟨b⟩ (sectionHeader b k) = .ok (sectionOf b (sectionHeader b k)) := by
    rw [Elf64Sections.item_eq, if_pos hle]
  rw [hsections]
  constructor
  · rintro ⟨items, hitems, hsearch⟩
    have hle : ∀ k < (sectionTable b).count,
        (sectionHeader b k).file_offset.toNat + (sectionHeader b k).size.toNat ≤ b.length := by
      intro k hk
      have hget := hwf.getElem?_eq hitems k
      rw [if_pos hk] at hget
      obtain ⟨section_, hsection⟩ := hsearch.ok _ (List.mem_of_getElem? hget)
      exact (isSection_item b _).ok_iff.mp ⟨section_, hsection⟩
    exact ⟨fun k hk _ ↦ hle k hk,
      (hwf.found_iff hitems fun k hk ↦ hitem (hle k hk)).mp hsearch.found⟩
  · rintro ⟨hnobits, hreached⟩
    obtain ⟨items, hitems⟩ := (fileSections b).exists_yields Elf64Sections.item
    have hle : ∀ k < (sectionTable b).count,
        (sectionHeader b k).file_offset.toNat + (sectionHeader b k).size.toNat ≤ b.length := by
      intro k hk
      by_cases htype : (sectionHeader b k).section_type = .NOBITS
      · exact hnobits k hk htype
      · exact hwf.contents_le k hk htype
    refine ⟨items, hitems, ?_, ?_, (hwf.found_iff hitems fun k hk ↦ hitem (hle k hk)).mpr hreached⟩
    · refine Nat.le_antisymm (List.getElem?_eq_none_iff.mp ?_) (Nat.le_of_not_lt fun hlt ↦ ?_)
      · rw [hwf.getElem?_eq hitems, if_neg (Nat.lt_irrefl _)]
      · have hnone := hwf.getElem?_eq hitems items.length
        rw [if_pos hlt, List.getElem?_eq_none (Nat.le_refl _)] at hnone
        cases hnone
    · intro item hmem
      obtain ⟨k, hk⟩ := List.mem_iff_getElem?.mp hmem
      rw [hwf.getElem?_eq hitems] at hk
      split_ifs at hk with hcount
      rw [hitem (hle k hcount)] at hk
      exact ⟨_, (Option.some.inj hk).symm⟩

/-- `b".bootinfo"`. -/
def bootinfoName : List Byte := [0x2E, 0x62, 0x6F, 0x6F, 0x74, 0x69, 0x6E, 0x66, 0x6F]

/-- A file with a string table, a section without contents, at offset 255 and of the given size,
and the section `.bootinfo` after it. -/
def bssFile (size : Byte) : List Byte :=
  smallHeader 1 80 80 56 0 3 ++ 0 :: bootinfoName ++ List.replicate 6 0 ++ smallSection 0 3 64 11 ++
    smallSection 0 8 255 size ++ smallSection 1 1 0 0

/-- The string table of the file. -/
def bssNames : ElfSection64 := ⟨0, 0 :: bootinfoName ++ [0], 0⟩

theorem wellFormedSections_bssFile {size : Byte} (hsize : size = 0 ∨ size = 255) :
    WellFormedSections (bssFile size) := by
  rcases hsize with rfl | rfl
  · exact ⟨by decide +kernel, by decide +kernel, by decide +kernel⟩
  · exact ⟨by decide +kernel, by decide +kernel, by decide +kernel⟩

theorem searchable_bss :
    ∃ items, Yields Elf64Sections.next (Elf64.ofFile (bssFile 0) bssNames).sections items ∧
      Searchable (bssFile 0) (Elf64.ofFile (bssFile 0) bssNames) items := by
  refine (searchable_iff (by decide +kernel) (wellFormedSections_bssFile (Or.inl rfl))).mpr
    ⟨by decide +kernel, ?_⟩
  have hnames : ∀ i < 3, headerName (Elf64.ofFile (bssFile 0) bssNames)
      (sectionHeader (bssFile 0) i) ≠ none := by decide +kernel
  have hcount : (sectionTable (bssFile 0)).count = 3 := by decide +kernel
  intro k hk _ i hi hnone
  exact absurd hnone (hnames i (by omega))

/-- The search for `.bootinfo` comes to an end at the section before it. -/
theorem not_searchable_bss :
    WellFormedSections (bssFile 255) ∧ ∃ elf bootinfo,
      Elf.from_bytes (bssFile 255) = some (.ok elf) ∧
      Yields Elf64Sections.next elf.sections [.ok bssNames, .error .Eof, .ok bootinfo] ∧
      bootinfo.name elf = some bootinfoName ∧
      findSection elf bootinfoName [.ok bssNames, .error .Eof, .ok bootinfo] = none := by
  refine ⟨wellFormedSections_bssFile (Or.inr rfl), .ofFile (bssFile 255) bssNames, ⟨1, [], 0⟩,
    by decide +kernel, .item ?_ (.item ?_ (.item ?_ (.nothing ?_))), by decide +kernel,
    by decide +kernel⟩
  · decide +kernel
  · decide +kernel
  · decide +kernel
  · decide +kernel

/-! ## Names -/

/-- A name is read without a panic, up to its end or the end of the string table, and empty past
the end of the table, exactly if it begins in the table or at its end. -/
theorem ElfSection64.name_iff (section_ : ElfSection64) (elf : Elf64) :
    section_.name elf = some (
      if section_.name_offset ≤ elf.string_table.data.length then
        (elf.string_table.data.drop section_.name_offset).takeWhile (· ≠ 0)
      else []) ↔
      section_.name_offset ≤ elf.string_table.data.length := by
  rw [ElfSection64.name, ElfSection64.nameEnd_eq]
  by_cases hstart : section_.name_offset ≤ elf.string_table.data.length
  · refine iff_of_true ?_ hstart
    have hrun := (List.takeWhile_prefix (l := elf.string_table.data.drop section_.name_offset)
      (p := (· ≠ 0)))
    have hlen := hrun.length_le
    rw [List.length_drop] at hlen
    rw [if_pos hstart, if_pos ⟨Nat.le_add_right _ _, by omega⟩, slice, Nat.add_sub_cancel_left]
    exact congrArg some (List.prefix_iff_eq_take.mp hrun).symm
  · refine iff_of_false ?_ hstart
    rw [if_neg hstart, if_neg (fun hc ↦ hstart (Nat.le_trans (Nat.le_add_right _ _) hc.2))]
    exact (Option.some_ne_none _).symm

/-- A file with a section whose name is past the end of the string table. -/
def namelessFile : List Byte :=
  smallHeader 1 64 64 56 0 2 ++ nullSection ++ smallSection 1 1 0 0

/-- The name of a section of an accepted file cannot be read. -/
theorem name_out_of_range :
    ∃ elf section_, Elf.from_bytes namelessFile = some (.ok elf) ∧
      Yields Elf64Sections.next elf.sections [.ok ⟨0, [], 0⟩, .ok section_] ∧
      ElfSection64.name section_ elf = none := by
  refine ⟨.ofFile namelessFile ⟨0, [], 0⟩, ⟨1, [], 0⟩, by decide +kernel,
    .item ?_ (.item ?_ (.nothing ?_)), by decide +kernel⟩
  · decide +kernel
  · decide +kernel
  · decide +kernel

end Elpytios
