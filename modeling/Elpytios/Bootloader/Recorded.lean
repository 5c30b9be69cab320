import Elpytios.Bootloader.Regions
import Mathlib.Data.List.Flatten
import Mathlib.Data.List.Nodup

/-!
# What is recorded

The regions are written one by one to `memory_regions_base`, whose slots are not initialised at
first, and the slots that were written are sorted.  The pages of the regions, in the order in
which these are written, are pages of usable entries in the order in which these are met, with
some left out.  So no page is recorded twice, and none that is not in a usable entry, whatever the
order of the entries.
-/

namespace Elpytios

/-! ## The table of regions -/

/-- `memory_regions_base` and `memory_regions_size`. -/
structure RegionTable where
  base : List (Option MemoryRegion)
  size : ℕ
deriving DecidableEq, Repr

namespace RegionTable

/-- The table before any region is written. -/
def new : RegionTable := ⟨List.replicate MAX_MEMORY_REGIONS none, 0⟩

/-- Write a region to the slot after the last one.  There is nothing if there is no such slot. -/
def write (self : RegionTable) (region : MemoryRegion) : Option RegionTable :=
  if self.size < self.base.length then
    some ⟨self.base.set self.size (some region), self.size + 1⟩
  else none

/-- `BootInfo::memory_regions`.  There is nothing if a slot was not initialised. -/
def memory_regions (self : RegionTable) : Option (List MemoryRegion) :=
  (self.base.take self.size).mapM id

/-- Sort the slots that were written. -/
def sort (sort_unstable : List MemoryRegion → List MemoryRegion) (self : RegionTable) :
    Option RegionTable := do
  let regions ← self.memory_regions
  return { self with base := (sort_unstable regions).map some ++ self.base.drop self.size }

end RegionTable

/-- The loop over the memory map, with the table it writes to. -/
def groupInto : List MemoryDescriptor → RegionTable → Option MemoryRegion →
    Option (RegionTable × Option MemoryRegion)
  | [], table, region => some (table, region)
  | entry :: entries, table, region =>
      if !entry.ty.usable then groupInto entries table region
      else
        match region with
        | none => groupInto entries table (some entry.region)
        | some reg =>
            if reg.base.addr + reg.pages * BitVec.ofNat 64 PAGE_SIZE = entry.phys_start then
              groupInto entries table (some (reg.grow entry))
            else if 8 ≤ reg.pages then
              match table.write reg with
              | none => none
              | some table =>
                  if table.size = MAX_MEMORY_REGIONS then some (table, some entry.region)
                  else groupInto entries table (some entry.region)
            else groupInto entries table none

/-- After the loop the pending region is written, if there is room. -/
def flushInto (table : RegionTable) : Option MemoryRegion → Option RegionTable
  | some region => if table.size < MAX_MEMORY_REGIONS then table.write region else some table
  | none => some table

/-- Group the entries of the memory map, and sort the table. -/
def recordRegions (sort_unstable : List MemoryRegion → List MemoryRegion)
    (entries : List MemoryDescriptor) : Option RegionTable := do
  let (table, region) ← groupInto entries .new none
  let table ← flushInto table region
  table.sort sort_unstable

/-- A correct sort by the number of pages, the largest first. -/
structure SortsByPages (sort_unstable : List MemoryRegion → List MemoryRegion) : Prop where
  perm : ∀ regions, (sort_unstable regions).Perm regions
  ordered : ∀ regions, (sort_unstable regions).Pairwise fun a b ↦ b.pages ≤ a.pages

/-! ## The table holds the regions that were written -/

namespace RegionTable

/-- The slots that were written hold the regions that were written. -/
structure Holds (table : RegionTable) (written : List MemoryRegion) : Prop where
  length_eq : table.base.length = MAX_MEMORY_REGIONS
  size_eq : table.size = written.length
  take_eq : table.base.take table.size = written.map some

variable {table : RegionTable} {written : List MemoryRegion} {region : MemoryRegion}

theorem holds_new : Holds .new [] := ⟨List.length_replicate, rfl, rfl⟩

/-- A region is written as long as the table is not full. -/
theorem Holds.write (h : Holds table written) (hlt : written.length < MAX_MEMORY_REGIONS)
    (region : MemoryRegion) :
    ∃ table', table.write region = some table' ∧ Holds table' (written ++ [region]) := by
  have hsize : table.size < table.base.length := by rw [h.size_eq, h.length_eq]; exact hlt
  refine ⟨_, if_pos hsize, ?_, ?_, ?_⟩
  · rw [List.length_set, h.length_eq]
  · rw [List.length_append, List.length_singleton, h.size_eq]
  · rw [List.take_add_one, List.take_set_of_le (Nat.le_refl _), h.take_eq,
      List.getElem?_set_self hsize, List.map_append]
    rfl

theorem mapM_id_map_some (regions : List MemoryRegion) :
    (regions.map some).mapM id = some regions := by
  induction regions with
  | nil => rfl
  | cons region regions ih => simp [ih]

theorem Holds.memory_regions (h : Holds table written) : table.memory_regions = some written := by
  rw [RegionTable.memory_regions, h.take_eq, mapM_id_map_some]

end RegionTable

open RegionTable

/-- The loop never writes past the table, and the table holds what the loop has written. -/
theorem exists_groupInto (entries : List MemoryDescriptor) {table : RegionTable}
    {written : List MemoryRegion} (region : Option MemoryRegion) (h : Holds table written)
    (hlt : written.length < MAX_MEMORY_REGIONS) :
    ∃ table', groupInto entries table region =
        some (table', (groupEntries entries written region).2) ∧
      Holds table' (groupEntries entries written region).1 ∧
        (groupEntries entries written region).1.length ≤ MAX_MEMORY_REGIONS := by
  induction entries generalizing table written region with
  | nil => exact ⟨table, rfl, h, hlt.le⟩
  | cons entry entries ih =>
      rw [groupInto.eq_def, groupEntries.eq_def]
      dsimp only
      by_cases hu : (!entry.ty.usable) = true
      · rw [if_pos hu, if_pos hu]
        exact ih region h hlt
      rw [if_neg hu, if_neg hu]
      cases region with
      | none => exact ih _ h hlt
      | some reg =>
          dsimp only
          by_cases htouch :
              reg.base.addr + reg.pages * BitVec.ofNat 64 PAGE_SIZE = entry.phys_start
          · rw [if_pos htouch, if_pos htouch]
            exact ih _ h hlt
          rw [if_neg htouch, if_neg htouch]
          by_cases hlong : 8 ≤ reg.pages
          swap
          · rw [if_neg hlong, if_neg hlong]
            exact ih _ h hlt
          obtain ⟨table', hwrite, hholds⟩ := h.write hlt reg
          have hsize : table'.size = written.length + 1 := by
            rw [hholds.size_eq, List.length_append, List.length_singleton]
          rw [if_pos hlong, if_pos hlong, hwrite]
          dsimp only
          rw [hsize]
          by_cases hfull : written.length + 1 = MAX_MEMORY_REGIONS
          · rw [if_pos hfull, if_pos hfull]
            refine ⟨table', rfl, hholds, ?_⟩
            rw [List.length_append, List.length_singleton, hfull]
          · rw [if_neg hfull, if_neg hfull]
            apply ih _ hholds
            rw [List.length_append, List.length_singleton]
            omega

theorem exists_flushInto {table : RegionTable} {written : List MemoryRegion}
    (region : Option MemoryRegion) (h : Holds table written)
    (hle : written.length ≤ MAX_MEMORY_REGIONS) :
    ∃ table', flushInto table region = some table' ∧ Holds table' (flush (written, region)) ∧
      (flush (written, region)).length ≤ MAX_MEMORY_REGIONS := by
  cases region with
  | none => exact ⟨table, rfl, h, hle⟩
  | some region =>
      rw [flush, flushInto, h.size_eq]
      by_cases hroom : written.length < MAX_MEMORY_REGIONS
      · obtain ⟨table', hwrite, htable'⟩ := h.write hroom region
        rw [if_pos hroom, if_pos hroom]
        refine ⟨table', hwrite, htable', ?_⟩
        rw [List.length_append, List.length_singleton]
        exact hroom
      · rw [if_neg hroom, if_neg hroom]
        exact ⟨table, rfl, h, hle⟩

/-- What is in the table at the end. -/
theorem exists_recordRegions {sort_unstable : List MemoryRegion → List MemoryRegion}
    (hsort : SortsByPages sort_unstable) (entries : List MemoryDescriptor) :
    ∃ table, recordRegions sort_unstable entries = some table ∧
      Holds table (sort_unstable (flush (groupEntries entries [] none))) ∧
        table.size ≤ MAX_MEMORY_REGIONS := by
  obtain ⟨table, hgroup, hholds, hle⟩ := exists_groupInto entries none holds_new (by decide)
  obtain ⟨flushed, hflush, hholds', hle'⟩ :=
    exists_flushInto (groupEntries entries [] none).2 hholds hle
  rw [Prod.eta] at hholds' hle'
  have hlen := (hsort.perm (flush (groupEntries entries [] none))).length_eq
  rw [recordRegions, hgroup, Option.bind_eq_bind, Option.bind_some]
  dsimp only
  rw [hflush, Option.bind_eq_bind, Option.bind_some, RegionTable.sort, hholds'.memory_regions]
  refine ⟨_, rfl, ⟨?_, ?_, ?_⟩, ?_⟩
  · rw [List.length_append, List.length_map, List.length_drop, hlen, hholds'.length_eq,
      hholds'.size_eq]
    omega
  · rw [hlen]
    exact hholds'.size_eq
  · dsimp only
    rw [hholds'.size_eq, ← hlen, ← List.length_map some, List.take_left]
  · dsimp only
    rw [hholds'.size_eq]
    exact hle'

/-! ## The pages of the regions -/

/-- The addresses of the pages of a region. -/
def MemoryRegion.pageAddrs (self : MemoryRegion) : List Word :=
  (List.range self.pages.toNat).map fun i ↦ self.base.addr + BitVec.ofNat 64 (i * PAGE_SIZE)

/-- The addresses of the pages of an entry. -/
def MemoryDescriptor.pageAddrs (entry : MemoryDescriptor) : List Word := entry.region.pageAddrs

/-- A memory map in any order: entries that do not overlap and do not overflow the address
space. -/
structure Separate (entries : List MemoryDescriptor) : Prop where
  fits : ∀ entry ∈ entries, entry.hi ≤ 2 ^ 64
  disjoint : entries.Pairwise fun a b ↦
    ∀ x, a.lo ≤ x → x < a.hi → b.lo ≤ x → ¬ x < b.hi

section

variable {entry : MemoryDescriptor} {reg : MemoryRegion} {entries : List MemoryDescriptor}

theorem MemoryDescriptor.mem_pageAddrs_iff {page : Word} : page ∈ entry.pageAddrs ↔
    ∃ i < entry.page_count.toNat, page = entry.phys_start + BitVec.ofNat 64 (i * PAGE_SIZE) := by
  simp only [MemoryDescriptor.pageAddrs, MemoryRegion.pageAddrs, List.mem_map, List.mem_range]
  constructor
  · rintro ⟨i, hi, rfl⟩
    exact ⟨i, hi, rfl⟩
  · rintro ⟨i, hi, rfl⟩
    exact ⟨i, hi, rfl⟩

/-- A page of an entry lies in it. -/
theorem MemoryDescriptor.toNat_page (hfits : entry.hi ≤ 2 ^ 64) {i : ℕ}
    (hi : i < entry.page_count.toNat) :
    (entry.phys_start + BitVec.ofNat 64 (i * PAGE_SIZE)).toNat = entry.lo + i * PAGE_SIZE := by
  rw [MemoryDescriptor.hi, PAGE_SIZE] at hfits
  rw [PAGE_SIZE, BitVec.toNat_add, BitVec.toNat_ofNat, Nat.mod_eq_of_lt (by omega : i * 4096 < _),
    Nat.mod_eq_of_lt (by omega)]
  rfl

theorem MemoryDescriptor.bounds_of_mem_pageAddrs (hfits : entry.hi ≤ 2 ^ 64) {page : Word}
    (h : page ∈ entry.pageAddrs) : entry.lo ≤ page.toNat ∧ page.toNat < entry.hi := by
  obtain ⟨i, hi, rfl⟩ := mem_pageAddrs_iff.mp h
  rw [toNat_page hfits hi, MemoryDescriptor.lo, MemoryDescriptor.hi, PAGE_SIZE]
  omega

theorem MemoryDescriptor.nodup_pageAddrs (hfits : entry.hi ≤ 2 ^ 64) : entry.pageAddrs.Nodup := by
  refine List.Nodup.map_on (fun i hi j hj heq ↦ ?_) List.nodup_range
  have hnat := congrArg BitVec.toNat heq
  have hi' := toNat_page hfits (List.mem_range.mp hi)
  have hj' := toNat_page hfits (List.mem_range.mp hj)
  have : entry.lo + i * PAGE_SIZE = entry.lo + j * PAGE_SIZE := hi'.symm.trans (hnat.trans hj')
  rw [PAGE_SIZE] at this
  omega

/-- No page is in two entries. -/
theorem Separate.disjoint_pageAddrs (h : Separate entries) :
    entries.Pairwise fun a b ↦ List.Disjoint a.pageAddrs b.pageAddrs := by
  refine List.Pairwise.imp_of_mem (fun {a b} ha hb hab ↦ ?_) h.disjoint
  intro page hpa hpb
  have hlo := MemoryDescriptor.bounds_of_mem_pageAddrs (h.fits a ha) hpa
  have hhi := MemoryDescriptor.bounds_of_mem_pageAddrs (h.fits b hb) hpb
  exact hab _ hlo.1 hlo.2 hhi.1 hhi.2

/-- The pages of the entries, one after the other, are all different. -/
theorem Separate.nodup (h : Separate entries) :
    (entries.flatMap MemoryDescriptor.pageAddrs).Nodup :=
  List.nodup_flatMap.mpr
    ⟨fun entry hentry ↦ MemoryDescriptor.nodup_pageAddrs (h.fits entry hentry), h.disjoint_pageAddrs⟩

/-- A region with different pages has no more than there are. -/
theorem MemoryRegion.pages_le (h : reg.pageAddrs.Nodup) : reg.pages.toNat ≤ 2 ^ 52 := by
  by_contra hlt
  have hlen : (2 : ℕ) ^ 52 < reg.pageAddrs.length := by
    rw [pageAddrs, List.length_map, List.length_range]
    omega
  have hzero : 0 < reg.pageAddrs.length := by omega
  -- The page after the last one that there is is the first again.
  have heq : reg.pageAddrs[0] = reg.pageAddrs[2 ^ 52] := by
    simp only [pageAddrs, List.getElem_map, List.getElem_range]
    rfl
  have := (List.Nodup.getElem_inj_iff h).mp heq
  omega

/-- A region that grows has the pages of the entry as its last pages. -/
theorem MemoryRegion.pageAddrs_grow
    (htouch : reg.base.addr + reg.pages * BitVec.ofNat 64 PAGE_SIZE = entry.phys_start)
    (hlt : reg.pages.toNat + entry.page_count.toNat < 2 ^ 64) :
    (reg.grow entry).pageAddrs = reg.pageAddrs ++ entry.pageAddrs := by
  have hpages : (reg.grow entry).pages.toNat = reg.pages.toNat + entry.page_count.toNat := by
    rw [grow, BitVec.toNat_add]
    exact Nat.mod_eq_of_lt hlt
  rw [pageAddrs, hpages, List.range_add, List.map_append, List.map_map]
  refine congrArg _ (List.map_congr_left fun i _ ↦ ?_)
  change reg.base.addr + BitVec.ofNat 64 ((reg.pages.toNat + i) * PAGE_SIZE) =
    entry.phys_start + BitVec.ofNat 64 (i * PAGE_SIZE)
  rw [← htouch, Nat.add_mul, BitVec.ofNat_add, BitVec.ofNat_mul, BitVec.ofNat_toNat,
    BitVec.setWidth_eq, BitVec.add_assoc]

/-- The pages of some regions, one after the other. -/
def pagesOf (regions : List MemoryRegion) : List Word := regions.flatMap MemoryRegion.pageAddrs

theorem pagesOf_append (regions regions' : List MemoryRegion) :
    pagesOf (regions ++ regions') = pagesOf regions ++ pagesOf regions' := List.flatMap_append

theorem pagesOf_singleton (region : MemoryRegion) : pagesOf [region] = region.pageAddrs :=
  List.flatMap_singleton ..

/-- A pending region that starts with an entry adds the pages of the entry. -/
theorem pagesOf_start {written : List MemoryRegion} {met : List Word}
    (hmet : (pagesOf written).Sublist met) (entry : MemoryDescriptor) :
    (pagesOf (written ++ (some entry.region).toList)).Sublist (met ++ entry.pageAddrs) := by
  rw [Option.toList_some, pagesOf_append, pagesOf_singleton]
  exact hmet.append (List.Sublist.refl _)

/-- A pending region that grows adds the pages of the entry. -/
theorem pagesOf_grow {written : List MemoryRegion} {met : List Word}
    (hmet : (pagesOf (written ++ [reg])).Sublist met) (hnodup : met.Nodup)
    (hfits : entry.hi ≤ 2 ^ 64)
    (htouch : reg.base.addr + reg.pages * BitVec.ofNat 64 PAGE_SIZE = entry.phys_start) :
    (pagesOf (written ++ (some (reg.grow entry)).toList)).Sublist (met ++ entry.pageAddrs) := by
  rw [pagesOf_append, pagesOf_singleton] at hmet
  -- The number of pages does not wrap, as the pages of the region are all different.
  have hreg : reg.pageAddrs.Nodup := ((List.sublist_append_right _ _).trans hmet).nodup hnodup
  have hpages := MemoryRegion.pages_le hreg
  rw [MemoryDescriptor.hi, PAGE_SIZE] at hfits
  rw [Option.toList_some, pagesOf_append, pagesOf_singleton,
    MemoryRegion.pageAddrs_grow htouch (by omega), ← List.append_assoc]
  exact hmet.append (List.Sublist.refl _)

/-- The pages of what is written and of the pending region are pages of the usable entries that
were met, in this order. -/
theorem pagesOf_groupEntries {written : List MemoryRegion} {region : Option MemoryRegion}
    {met : List Word} (hmet : (pagesOf (written ++ region.toList)).Sublist met)
    (hfits : ∀ entry ∈ entries, entry.hi ≤ 2 ^ 64)
    (hnodup : (met ++ (usable entries).flatMap MemoryDescriptor.pageAddrs).Nodup) :
    (pagesOf ((groupEntries entries written region).1 ++
        (groupEntries entries written region).2.toList)).Sublist
      (met ++ (usable entries).flatMap MemoryDescriptor.pageAddrs) := by
  induction entries generalizing written region met with
  | nil => exact hmet.trans (List.sublist_append_left _ _)
  | cons entry entries ih =>
      have hfits' : ∀ entry ∈ entries, entry.hi ≤ 2 ^ 64 := fun e he ↦ hfits e (.tail _ he)
      rw [groupEntries.eq_def]
      dsimp only
      by_cases hu : entry.ty.usable = true
      swap
      · have hcons : usable (entry :: entries) = usable entries := by simp [usable, hu]
        rw [if_pos (by simpa using hu), hcons]
        rw [hcons] at hnodup
        exact ih hmet hfits' hnodup
      have hcons : usable (entry :: entries) = entry :: usable entries := by simp [usable, hu]
      rw [if_neg (by simpa using hu), hcons, List.flatMap_cons, ← List.append_assoc]
      rw [hcons, List.flatMap_cons, ← List.append_assoc] at hnodup
      -- What follows is the same for any regions whose pages are met after this entry.
      have hnext : ∀ {written : List MemoryRegion} {region : Option MemoryRegion},
          (pagesOf (written ++ region.toList)).Sublist (met ++ entry.pageAddrs) →
          (pagesOf ((groupEntries entries written region).1 ++
            (groupEntries entries written region).2.toList)).Sublist
              (met ++ entry.pageAddrs ++ (usable entries).flatMap MemoryDescriptor.pageAddrs) :=
        fun h ↦ ih h hfits' hnodup
      cases region with
      | none =>
          rw [Option.toList_none, List.append_nil] at hmet
          exact hnext (pagesOf_start hmet entry)
      | some reg =>
          rw [Option.toList_some] at hmet
          dsimp only
          by_cases htouch :
              reg.base.addr + reg.pages * BitVec.ofNat 64 PAGE_SIZE = entry.phys_start
          · rw [if_pos htouch]
            have hmetNodup : met.Nodup := hnodup.of_append_left.of_append_left
            exact hnext (pagesOf_grow hmet hmetNodup (hfits entry List.mem_cons_self) htouch)
          rw [if_neg htouch]
          by_cases hlong : 8 ≤ reg.pages
          · have hwritten := pagesOf_start hmet entry
            rw [if_pos hlong]
            by_cases hfull : written.length + 1 = MAX_MEMORY_REGIONS
            · rw [if_pos hfull]
              exact hwritten.trans (List.sublist_append_left _ _)
            · rw [if_neg hfull]
              exact hnext hwritten
          · rw [if_neg hlong]
            apply hnext
            rw [Option.toList_none, List.append_nil]
            rw [pagesOf_append] at hmet
            exact ((List.sublist_append_left _ _).trans hmet).trans (List.sublist_append_left _ _)

/-- The pages that are recorded are pages of usable entries, in their order. -/
theorem Separate.pagesOf_flush (h : Separate entries) :
    (pagesOf (flush (groupEntries entries [] none))).Sublist
      ((usable entries).flatMap MemoryDescriptor.pageAddrs) := by
  have hnodup : ((usable entries).flatMap MemoryDescriptor.pageAddrs).Nodup :=
    (List.filter_sublist.flatMap _).nodup h.nodup
  have hnone : (pagesOf ([] ++ (none : Option MemoryRegion).toList)).Sublist [] :=
    List.Sublist.refl _
  have hgroup := pagesOf_groupEntries hnone h.fits hnodup
  refine List.Sublist.trans ?_ hgroup
  generalize groupEntries entries [] none = result
  obtain ⟨written, region⟩ := result
  cases region with
  | none =>
      rw [Option.toList_none, List.append_nil]
      exact List.Sublist.refl _
  | some region =>
      rw [flush]
      split_ifs
      · exact List.Sublist.refl _
      · rw [pagesOf_append]
        exact List.sublist_append_left _ _

end

/-- Regions whose pages are all usable, and none of them twice. -/
structure SoundRegions (entries : List MemoryDescriptor) (regions : List MemoryRegion) : Prop where
  usable : ∀ region ∈ regions, ∀ page ∈ region.pageAddrs,
    ∃ entry ∈ entries, entry.ty.usable = true ∧ page ∈ entry.pageAddrs
  not_unusable : ∀ region ∈ regions, ∀ entry ∈ entries, entry.ty.usable = false →
    List.Disjoint region.pageAddrs entry.pageAddrs
  disjoint : regions.Pairwise fun a b ↦ List.Disjoint a.pageAddrs b.pageAddrs

theorem Separate.soundRegions {entries : List MemoryDescriptor} (h : Separate entries)
    {regions : List MemoryRegion} (hperm : regions.Perm (flush (groupEntries entries [] none))) :
    SoundRegions entries regions := by
  have hpages : (pagesOf regions).Perm (pagesOf (flush (groupEntries entries [] none))) :=
    hperm.flatMap_right _
  have husable : ∀ region ∈ regions, ∀ page ∈ region.pageAddrs,
      ∃ entry ∈ entries, entry.ty.usable = true ∧ page ∈ entry.pageAddrs := by
    intro region hregion page hpage
    have hmem := h.pagesOf_flush.subset
      (hpages.subset (List.mem_flatMap.mpr ⟨region, hregion, hpage⟩))
    obtain ⟨entry, hentry, hpage⟩ := List.mem_flatMap.mp hmem
    obtain ⟨hentry, hu⟩ := List.mem_filter.mp hentry
    exact ⟨entry, hentry, hu, hpage⟩
  refine ⟨husable, ?_, ?_⟩
  · intro region hregion entry hentry hu page hpage hpage'
    obtain ⟨other, hother, hu', hpage''⟩ := husable region hregion page hpage
    have hne : other ≠ entry := fun heq ↦ by rw [heq, hu] at hu'; cases hu'
    have : Std.Symm fun a b : MemoryDescriptor ↦ List.Disjoint a.pageAddrs b.pageAddrs :=
      ⟨fun _ _ hab _ hb ha ↦ hab ha hb⟩
    exact h.disjoint_pageAddrs.forall hother hentry hne hpage'' hpage'
  · refine (List.nodup_flatMap.mp (?_ : (pagesOf regions).Nodup)).2
    refine hpages.nodup_iff.mpr (h.pagesOf_flush.nodup ?_)
    exact (List.filter_sublist.flatMap _).nodup h.nodup

/-- Whatever the order of the memory map, the regions are recorded without a write past the table,
every slot that is counted is initialised, their pages are usable and none is in two of them, and
the largest come first. -/
theorem recordRegions_sound {sort_unstable : List MemoryRegion → List MemoryRegion}
    (hsort : SortsByPages sort_unstable) {entries : List MemoryDescriptor} (h : Separate entries) :
    ∃ table regions, recordRegions sort_unstable entries = some table ∧
      table.base.length = MAX_MEMORY_REGIONS ∧ table.size ≤ MAX_MEMORY_REGIONS ∧
      table.base.take table.size = regions.map some ∧ table.memory_regions = some regions ∧
      SoundRegions entries regions ∧ regions.Pairwise fun a b ↦ b.pages ≤ a.pages := by
  obtain ⟨table, hrecord, hholds, hsize⟩ := exists_recordRegions hsort entries
  exact ⟨table, _, hrecord, hholds.length_eq, hsize, hholds.take_eq, hholds.memory_regions,
    h.soundRegions (hsort.perm _), hsort.ordered _⟩

theorem sortsByPages_mergeSort :
    SortsByPages fun regions ↦ regions.mergeSort fun a b ↦ b.pages ≤ a.pages := by
  refine ⟨fun regions ↦ List.mergeSort_perm _ _, fun regions ↦ ?_⟩
  refine (List.pairwise_mergeSort (fun a b c hab hbc ↦ ?_) (fun a b ↦ ?_) regions).imp
    fun hab ↦ of_decide_eq_true hab
  · exact decide_eq_true (Nat.le_trans (of_decide_eq_true hbc) (of_decide_eq_true hab))
  · simpa [BitVec.le_def] using Nat.le_total b.pages.toNat a.pages.toNat

/-- Entries in descending order, with the code of the kernel between them. -/
theorem recordRegions_sound_descending :
    let entries : List MemoryDescriptor :=
      [⟨.CONVENTIONAL, 0x20000, 16⟩, ⟨.other 0x80000000, 0x10000, 16⟩, ⟨.LOADER_DATA, 0x1000, 15⟩]
    ∃ table regions, recordRegions (fun regions ↦ regions.mergeSort fun a b ↦ b.pages ≤ a.pages)
        entries = some table ∧
      table.base.length = MAX_MEMORY_REGIONS ∧ table.size ≤ MAX_MEMORY_REGIONS ∧
      table.base.take table.size = regions.map some ∧ table.memory_regions = some regions ∧
      SoundRegions entries regions ∧ regions.Pairwise fun a b ↦ b.pages ≤ a.pages := by
  intro entries
  have happart : entries.Pairwise fun a b ↦ a.hi ≤ b.lo ∨ b.hi ≤ a.lo := by decide
  refine recordRegions_sound sortsByPages_mergeSort ⟨by decide, happart.imp ?_⟩
  intro a b hab x hla hha hlb hhb
  omega

end Elpytios
