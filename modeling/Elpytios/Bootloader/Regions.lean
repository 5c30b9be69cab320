import Elpytios.Bootinfo.Paddr
import Elpytios.Lib.Runs
import Mathlib.Algebra.Group.Nat.Defs

/-!
# The regions of usable memory

The last part of `setup_uefi_and_exit`: the entries of the memory map that can be used are
grouped into regions, of which those of at least eight pages are kept, as far as there is
room for them.

A region that is too short is dropped together with the entry that comes after it, which
may be the first of a long run.  The last region is kept however short it is.  What is
recorded is right exactly if no short run is pending when a long one or the end of the map
is reached (`memoryRegions_iff`).
-/

namespace Elpytios

open Runs

/-- The types of memory that the bootloader names, and all others. -/
inductive MemoryType where
  | LOADER_CODE
  | LOADER_DATA
  | BOOT_SERVICES_CODE
  | BOOT_SERVICES_DATA
  | CONVENTIONAL
  | other (ty : BitVec 32)
deriving DecidableEq, Repr

/-- An entry of the memory map. -/
structure MemoryDescriptor where
  ty : MemoryType
  phys_start : Word
  page_count : Word
deriving DecidableEq, Repr

@[ext]
structure MemoryRegion where
  base : PAddr
  pages : Word
deriving DecidableEq, Repr

/-- The types of memory the kernel can use. -/
def MemoryType.usable : MemoryType → Bool
  | LOADER_CODE | LOADER_DATA | BOOT_SERVICES_CODE | BOOT_SERVICES_DATA | CONVENTIONAL => true
  | other _ => false

/-- The region an entry starts. -/
def MemoryDescriptor.region (entry : MemoryDescriptor) : MemoryRegion where
  base := .new entry.phys_start
  pages := entry.page_count

/-- Add the pages of an entry to a region. -/
def MemoryRegion.grow (self : MemoryRegion) (entry : MemoryDescriptor) : MemoryRegion :=
  { self with pages := self.pages + entry.page_count }

/-- The loop over the memory map, from the regions written so far and the pending one. -/
def groupEntries : List MemoryDescriptor → List MemoryRegion → Option MemoryRegion →
    List MemoryRegion × Option MemoryRegion
  | [], written, region => (written, region)
  | entry :: entries, written, region =>
      if !entry.ty.usable then groupEntries entries written region
      else
        match region with
        | none => groupEntries entries written (some entry.region)
        | some reg =>
            if reg.base.addr + reg.pages * BitVec.ofNat 64 PAGE_SIZE = entry.phys_start then
              groupEntries entries written (some (reg.grow entry))
            else if 8 ≤ reg.pages then
              if written.length + 1 = MAX_MEMORY_REGIONS then
                (written ++ [reg], some entry.region)
              else groupEntries entries (written ++ [reg]) (some entry.region)
            else groupEntries entries written none

/-- After the loop the pending region is written, if there is room. -/
def flush : List MemoryRegion × Option MemoryRegion → List MemoryRegion
  | (written, some region) =>
      if written.length < MAX_MEMORY_REGIONS then written ++ [region] else written
  | (written, none) => written

/-- The regions written to `memory_regions_base`, the longest first.  The sort of the source
may order regions of the same length in any way. -/
def memoryRegions (entries : List MemoryDescriptor) : List MemoryRegion :=
  (flush (groupEntries entries [] none)).mergeSort fun a b ↦ b.pages ≤ a.pages

namespace MemoryDescriptor

/-- The first address of an entry. -/
def lo (entry : MemoryDescriptor) : ℕ := entry.phys_start.toNat

/-- The address after the last of an entry. -/
def hi (entry : MemoryDescriptor) : ℕ :=
  entry.phys_start.toNat + entry.page_count.toNat * PAGE_SIZE

end MemoryDescriptor

open MemoryDescriptor

/-- The address after the last of a region. -/
def MemoryRegion.stop (region : MemoryRegion) : ℕ :=
  region.base.addr.toNat + region.pages.toNat * PAGE_SIZE

/-- A memory map: nonempty entries in ascending order, which do not overlap and do not
overflow the address space. -/
structure WellFormed (entries : List MemoryDescriptor) : Prop where
  nonempty : ∀ entry ∈ entries, 0 < entry.page_count.toNat
  fits : ∀ entry ∈ entries, entry.hi ≤ 2 ^ 64
  ascending : entries.Pairwise fun a b ↦ a.hi ≤ b.lo

/-- The entries that can be used. -/
def usable (entries : List MemoryDescriptor) : List MemoryDescriptor :=
  entries.filter fun entry ↦ entry.ty.usable

/-- The runs of entries that can be used. -/
def runs (entries : List MemoryDescriptor) : List (List MemoryDescriptor) :=
  split lo hi (usable entries)

/-- The region of a run. -/
def regionOf : List MemoryDescriptor → MemoryRegion
  | [] => ⟨.new 0, 0⟩
  | entry :: entries => entries.foldl MemoryRegion.grow entry.region

/-- A run of fewer than eight pages. -/
def Short (run : List MemoryDescriptor) : Bool := (regionOf run).pages < 8

/-- Short runs in a row leave none pending: a short run is pending after it was met, unless
it consists of one entry and is met when another is pending. -/
def Settled (short : List (List MemoryDescriptor)) : Bool :=
  short.foldl (fun pending run ↦ !(pending && run.length == 1)) false = false

/-- The short runs before each of the next `room` long runs, and those at the end if there
are fewer, are settled. -/
def AllSettled : (room : ℕ) → List (List MemoryDescriptor) → Bool
  | 0, _ => true
  | room + 1, runs =>
      Settled (runs.takeWhile Short) && AllSettled room (runs.dropWhile Short).tail

/-! ## One entry -/

theorem groupEntries_usable (entries : List MemoryDescriptor) (written : List MemoryRegion)
    (region : Option MemoryRegion) :
    groupEntries (usable entries) written region = groupEntries entries written region := by
  induction entries generalizing written region with
  | nil => rfl
  | cons entry entries ih =>
      by_cases h : entry.ty.usable = true
      · have hcons : usable (entry :: entries) = entry :: usable entries := by simp [usable, h]
        rw [hcons]
        cases region <;> simp only [groupEntries, h, ih]
      · have hcons : usable (entry :: entries) = usable entries := by simp [usable, h]
        rw [hcons, ih]
        simp [groupEntries, h]

section

variable {written : List MemoryRegion} {reg : MemoryRegion} {entry : MemoryDescriptor}
  {rest : List MemoryDescriptor}

/-- Whether an entry comes right after a region is seen from its first address. -/
theorem touches_iff (h : reg.stop ≤ entry.lo) :
    reg.base.addr + reg.pages * BitVec.ofNat 64 PAGE_SIZE = entry.phys_start ↔
      reg.stop = entry.lo := by
  have hlt := entry.phys_start.isLt
  rw [MemoryRegion.stop, lo] at h
  have hmul : (reg.pages * BitVec.ofNat 64 PAGE_SIZE).toNat = reg.pages.toNat * PAGE_SIZE := by
    rw [BitVec.toNat_mul, BitVec.toNat_ofNat, Nat.mod_eq_of_lt (show PAGE_SIZE < 2 ^ 64 by decide)]
    exact Nat.mod_eq_of_lt (by omega)
  rw [← BitVec.toNat_inj, BitVec.toNat_add, hmul, Nat.mod_eq_of_lt (by omega)]
  rfl

theorem groupEntries_none (hu : entry.ty.usable = true) :
    groupEntries (entry :: rest) written none = groupEntries rest written (some entry.region) := by
  simp [groupEntries, hu]

theorem groupEntries_touching (hu : entry.ty.usable = true) (h : reg.stop = entry.lo) :
    groupEntries (entry :: rest) written (some reg) =
      groupEntries rest written (some (reg.grow entry)) := by
  simp [groupEntries, hu, (touches_iff h.le).mpr h]

theorem groupEntries_gap (hu : entry.ty.usable = true) (h : reg.stop < entry.lo) :
    groupEntries (entry :: rest) written (some reg) =
      if 8 ≤ reg.pages then
        if written.length + 1 = MAX_MEMORY_REGIONS then (written ++ [reg], some entry.region)
        else groupEntries rest (written ++ [reg]) (some entry.region)
      else groupEntries rest written none := by
  have hne : ¬ reg.base.addr + reg.pages * BitVec.ofNat 64 PAGE_SIZE = entry.phys_start :=
    fun hc ↦ h.ne ((touches_iff h.le).mp hc)
  simp [groupEntries, hu, hne]

/-- A region grows up to the end of the entry that comes right after it. -/
theorem stop_grow (h : reg.stop = entry.lo) (hfits : entry.hi ≤ 2 ^ 64) :
    (reg.grow entry).stop = entry.hi := by
  have h₁ := reg.base.addr.isLt
  rw [MemoryRegion.stop, lo] at h
  rw [hi] at hfits ⊢
  have hpages : (reg.pages + entry.page_count).toNat =
      reg.pages.toNat + entry.page_count.toNat := by
    rw [BitVec.toNat_add]
    apply Nat.mod_eq_of_lt
    rw [PAGE_SIZE] at h hfits
    omega
  change reg.base.addr.toNat + (reg.pages + entry.page_count).toNat * PAGE_SIZE = _
  rw [hpages, Nat.add_mul]
  omega

end

/-! ## One run -/

/-- A run of entries that can be used. -/
structure UsableRun (run : List MemoryDescriptor) : Prop where
  ne_nil : run ≠ []
  touching : Touching lo hi run
  usable : ∀ entry ∈ run, entry.ty.usable = true
  lt : ∀ entry ∈ run, entry.lo < entry.hi
  fits : ∀ entry ∈ run, entry.hi ≤ 2 ^ 64

section

variable {written : List MemoryRegion} {reg : MemoryRegion} {entry next : MemoryDescriptor}
  {run entries rest : List MemoryDescriptor}

theorem UsableRun.tail (h : UsableRun (entry :: next :: entries)) : UsableRun (next :: entries) :=
  ⟨List.cons_ne_nil _ _, h.touching.tail, fun e he ↦ h.usable e (List.mem_cons_of_mem _ he),
    fun e he ↦ h.lt e (List.mem_cons_of_mem _ he), fun e he ↦ h.fits e (List.mem_cons_of_mem _ he)⟩

/-- A region that ends with the first entry of a run is grown by the rest of the run. -/
theorem foldl_grow (h : UsableRun (entry :: entries)) (hstop : reg.stop = entry.hi) :
    (entries.foldl MemoryRegion.grow reg).base = reg.base ∧
      (entries.foldl MemoryRegion.grow reg).stop = last hi (entry :: entries) := by
  induction entries generalizing entry reg with
  | nil => exact ⟨rfl, hstop⟩
  | cons next entries ih =>
      have htouch : reg.stop = next.lo := hstop.trans (List.isChain_cons_cons.mp h.touching).1
      have hmem : next ∈ entry :: next :: entries := by simp
      rw [last_cons_cons]
      exact ih h.tail (stop_grow htouch (h.fits next hmem))

/-- A pending region that ends with the first entry of a run takes in the rest of the run. -/
theorem groupEntries_run (h : UsableRun (entry :: entries)) (hstop : reg.stop = entry.hi) :
    groupEntries (entries ++ rest) written (some reg) =
      groupEntries rest written (some (entries.foldl MemoryRegion.grow reg)) := by
  induction entries generalizing entry reg with
  | nil => rfl
  | cons next entries ih =>
      have htouch : reg.stop = next.lo := hstop.trans (List.isChain_cons_cons.mp h.touching).1
      have hmem : next ∈ entry :: next :: entries := by simp
      rw [List.cons_append, groupEntries_touching (h.usable next hmem) htouch]
      exact ih h.tail (stop_grow htouch (h.fits next hmem))

theorem groupEntries_region (h : UsableRun (entry :: entries)) :
    groupEntries (entries ++ rest) written (some entry.region) =
      groupEntries rest written (some (regionOf (entry :: entries))) :=
  groupEntries_run h rfl

theorem toNat_base_regionOf (h : UsableRun run) :
    (regionOf run).base.addr.toNat = first lo run := by
  obtain ⟨entry, entries, rfl⟩ := List.exists_cons_of_ne_nil h.ne_nil
  have hbase : (regionOf (entry :: entries)).base = entry.region.base := (foldl_grow h rfl).1
  rw [hbase]
  rfl

theorem stop_regionOf (h : UsableRun run) : (regionOf run).stop = last hi run := by
  obtain ⟨entry, entries, rfl⟩ := List.exists_cons_of_ne_nil h.ne_nil
  exact (foldl_grow h rfl).2

/-- The pages of a run are all from its first to its last. -/
theorem pages_regionOf (h : UsableRun run) :
    first lo run + (regionOf run).pages.toNat * PAGE_SIZE = last hi run := by
  rw [← toNat_base_regionOf h, ← stop_regionOf h]
  rfl

/-- What is left of a short run without its first entry is short. -/
theorem short_tail (h : UsableRun (entry :: next :: entries))
    (hshort : Short (entry :: next :: entries) = true) : Short (next :: entries) = true := by
  have h₁ := pages_regionOf h
  have h₂ := pages_regionOf h.tail
  have hlt := h.lt entry List.mem_cons_self
  have htouch := (List.isChain_cons_cons.mp h.touching).1
  rw [last_cons_cons, first_cons] at h₁
  rw [first_cons] at h₂
  rw [Short, decide_eq_true_iff, BitVec.lt_def] at hshort ⊢
  rw [PAGE_SIZE] at h₁ h₂
  omega

end

/-! ## All runs -/

/-- The regions of the runs that are long enough. -/
def longRegions (runs : List (List MemoryDescriptor)) : List MemoryRegion :=
  (runs.filter fun run ↦ !Short run).map regionOf

/-- `AllSettled`, when a short run may be pending. -/
def AllSettledFrom (pending : Bool) : (room : ℕ) → List (List MemoryDescriptor) → Bool
  | 0, _ => true
  | room + 1, runs =>
      (runs.takeWhile Short).foldl (fun pending run ↦ !(pending && run.length == 1)) pending
        = false && AllSettled room (runs.dropWhile Short).tail

theorem allSettledFrom_false (room : ℕ) (runs : List (List MemoryDescriptor)) :
    AllSettledFrom false room runs = AllSettled room runs := by
  cases room <;> rfl

theorem allSettled_nil (room : ℕ) : AllSettled room [] = true := by
  induction room with
  | zero => rfl
  | succ room ih => simpa [AllSettled, Settled] using ih

theorem allSettledFrom_nil (pending : Bool) (room : ℕ) :
    AllSettledFrom pending (room + 1) [] = !pending := by
  simp [AllSettledFrom, allSettled_nil]

section

variable {run : List MemoryDescriptor} {runs : List (List MemoryDescriptor)}

theorem allSettledFrom_short (h : Short run = true) (pending : Bool) (room : ℕ) :
    AllSettledFrom pending (room + 1) (run :: runs) =
      AllSettledFrom (!(pending && run.length == 1)) (room + 1) runs := by
  simp [AllSettledFrom, h]

theorem allSettledFrom_long (h : Short run = false) (pending : Bool) (room : ℕ) :
    AllSettledFrom pending (room + 1) (run :: runs) =
      (!pending && AllSettledFrom false room runs) := by
  rw [allSettledFrom_false]
  simp [AllSettledFrom, h]

theorem longRegions_short (h : Short run = true) : longRegions (run :: runs) = longRegions runs := by
  simp [longRegions, h]

theorem longRegions_long (h : Short run = false) :
    longRegions (run :: runs) = regionOf run :: longRegions runs := by
  simp [longRegions, h]

end

/-- The regions that are recorded start where entries do. -/
theorem base_of_mem_flush {entries : List MemoryDescriptor} {written : List MemoryRegion}
    {region : Option MemoryRegion} {r : MemoryRegion}
    (hr : r ∈ flush (groupEntries entries written region)) :
    r ∈ written ∨ (∃ reg, region = some reg ∧ r.base = reg.base) ∨
      ∃ entry ∈ entries, r.base = .new entry.phys_start := by
  have hpending : ∀ {written : List MemoryRegion} {reg : MemoryRegion}, r ∈ written ++ [reg] →
      r ∈ written ∨ r.base = reg.base := by
    intro written reg hr
    rcases List.mem_append.mp hr with hr | hr
    · exact Or.inl hr
    · exact Or.inr (by rw [List.mem_singleton.mp hr])
  induction entries generalizing written region with
  | nil =>
      cases region with
      | none => exact Or.inl hr
      | some reg =>
          simp only [groupEntries, flush] at hr
          split_ifs at hr with hroom
          · exact (hpending hr).imp_right fun h ↦ Or.inl ⟨reg, rfl, h⟩
          · exact Or.inl hr
  | cons entry entries ih =>
      -- what starts at a later entry starts at an entry
      have hlater : (∃ e ∈ entries, r.base = .new e.phys_start) →
          ∃ e ∈ entry :: entries, r.base = .new e.phys_start :=
        fun ⟨e, he, hbase⟩ ↦ ⟨e, List.mem_cons_of_mem _ he, hbase⟩
      have hentry : (∃ reg, some entry.region = some reg ∧ r.base = reg.base) →
          ∃ e ∈ entry :: entries, r.base = .new e.phys_start := by
        rintro ⟨reg, hreg, hbase⟩
        obtain rfl := Option.some.inj hreg
        exact ⟨entry, List.mem_cons_self, hbase⟩
      cases region with
      | none =>
          rw [groupEntries] at hr
          split_ifs at hr with hu
          · exact (ih hr).imp_right (Or.imp_right hlater)
          · exact (ih hr).imp_right fun h ↦ Or.inr (h.elim hentry hlater)
      | some reg =>
          rw [groupEntries] at hr
          split_ifs at hr with hu htouch hlong hfull
          · exact (ih hr).imp_right (Or.imp_right hlater)
          · refine (ih hr).imp_right (Or.imp ?_ hlater)
            rintro ⟨_, hreg, hbase⟩
            obtain rfl := Option.some.inj hreg
            exact ⟨reg, rfl, hbase⟩
          · rw [flush, if_neg (by simp [hfull])] at hr
            exact (hpending hr).imp_right fun h ↦ Or.inl ⟨reg, rfl, h⟩
          · rcases ih hr with h | h
            · exact (hpending h).imp_right fun h ↦ Or.inl ⟨reg, rfl, h⟩
            · exact Or.inr (Or.inr (h.elim hentry hlater))
          · refine (ih hr).imp_right (Or.imp ?_ hlater)
            rintro ⟨_, hreg, -⟩
            cases hreg

/-- The runs that are still to come. -/
structure UsableRuns (runs : List (List MemoryDescriptor)) : Prop where
  run : ∀ run ∈ runs, UsableRun run
  gap : runs.Pairwise fun run run' ↦ last hi run < first lo run'

/-- The pending region, if there is one, when `recorded` are the regions that should be
recorded so far. -/
inductive Pending (runs : List (List MemoryDescriptor)) (written : List MemoryRegion) :
    Option MemoryRegion → (recorded : List MemoryRegion) → (short : Bool) → Prop
  | /-- No region is pending. -/
    none : Pending runs written none written false
  | /-- The pending region is long enough. -/
    long {reg : MemoryRegion} (h : 8 ≤ reg.pages) (hgap : ∀ run ∈ runs, reg.stop < first lo run) :
      Pending runs written (some reg) (written ++ [reg]) false
  | /-- The pending region is too short. -/
    short {reg : MemoryRegion} (h : reg.pages < 8) (hgap : ∀ run ∈ runs, reg.stop < first lo run) :
      Pending runs written (some reg) written true

/-- What holds between two runs. -/
structure Between (runs : List (List MemoryDescriptor)) (written : List MemoryRegion)
    (region : Option MemoryRegion) (recorded : List MemoryRegion) (short : Bool) (room : ℕ) :
    Prop where
  pending : Pending runs written region recorded short
  room_eq : recorded.length + room = MAX_MEMORY_REGIONS
  lt : written.length < MAX_MEMORY_REGIONS
  long : ∀ r ∈ written, 8 ≤ r.pages
  below : ∀ r ∈ written, ∀ run ∈ runs, r.base.addr.toNat < first lo run

section

variable {entry : MemoryDescriptor} {entries run : List MemoryDescriptor}
  {runs : List (List MemoryDescriptor)} {written recorded : List MemoryRegion}
  {region : Option MemoryRegion} {short : Bool} {room : ℕ}

theorem UsableRun.first_le (h : UsableRun run) {entry : MemoryDescriptor} (he : entry ∈ run) :
    first lo run ≤ entry.lo := by
  obtain ⟨x, xs, rfl⟩ := List.exists_cons_of_ne_nil h.ne_nil
  exact ((mem_covered_of_touching h.touching h.lt).mp ⟨entry, he, le_rfl, h.lt entry he⟩).1

/-- No other entry starts where a run does. -/
theorem UsableRuns.lo_lt (h : UsableRuns ((entry :: entries) :: runs)) {e : MemoryDescriptor}
    (he : e ∈ entries ++ runs.flatten) : entry.lo < e.lo := by
  have hrun := h.run _ List.mem_cons_self
  have hlt := hrun.lt entry List.mem_cons_self
  rcases List.mem_append.mp he with he | he
  · cases entries with
    | nil => cases he
    | cons next entries =>
        have htouch := (List.isChain_cons_cons.mp hrun.touching).1
        have hle := hrun.tail.first_le he
        rw [first_cons] at hle
        omega
  · obtain ⟨run, hmem, he⟩ := List.mem_flatten.mp he
    have hgap := (List.pairwise_cons.mp h.gap).1 run hmem
    have hle := (h.run run (List.mem_cons_of_mem _ hmem)).first_le he
    have hrunlt := first_lt_last hrun.touching hrun.lt
    omega

/-- What is recorded is what should be. -/
def RecordedExactly (runs : List (List MemoryDescriptor)) (written : List MemoryRegion)
    (region : Option MemoryRegion) (recorded : List MemoryRegion) (room : ℕ) : Prop :=
  ∀ r, r ∈ flush (groupEntries runs.flatten written region) ↔
    r ∈ recorded ++ (longRegions runs).take room

/-- At the end of the map, a short region must not be pending. -/
theorem recordedExactly_nil (h : Between [] written region recorded short room) :
    RecordedExactly [] written region recorded room ↔ AllSettledFrom short room [] = true := by
  have hroom := h.room_eq
  have hlt := h.lt
  have htake : (longRegions []).take room = [] := List.take_nil
  rw [RecordedExactly, htake]
  cases h.pending with
  | none => simp [groupEntries, flush, allSettledFrom_false, allSettled_nil]
  | long => simp [groupEntries, flush, allSettledFrom_false, allSettled_nil, hlt]
  | @short reg hshort =>
      obtain ⟨n, rfl⟩ : ∃ n, room = n + 1 := ⟨room - 1, by omega⟩
      rw [allSettledFrom_nil]
      refine iff_of_false (fun hexact ↦ ?_) (by simp)
      have hmem : reg ∈ written := by
        simpa [groupEntries, flush, hlt] using (hexact reg).mp (by simp [groupEntries, flush, hlt])
      exact absurd (h.long reg hmem) (by simpa using hshort)

theorem UsableRuns.tail (h : UsableRuns (run :: runs)) : UsableRuns runs :=
  ⟨fun r hr ↦ h.run r (List.mem_cons_of_mem _ hr), (List.pairwise_cons.mp h.gap).2⟩

/-- The region of a run ends before the next run begins. -/
theorem UsableRuns.stop_lt (h : UsableRuns (run :: runs)) :
    ∀ run' ∈ runs, (regionOf run).stop < first lo run' := by
  rw [stop_regionOf (h.run run List.mem_cons_self)]
  exact (List.pairwise_cons.mp h.gap).1

/-- A run is pending as a whole. -/
theorem recordedExactly_pending (h : UsableRuns (run :: runs))
    (ih : ∀ {written region recorded short room}, Between runs written region recorded short room →
      (RecordedExactly runs written region recorded room ↔ AllSettledFrom short room runs = true))
    (hroom : written.length + (room + 1) = MAX_MEMORY_REGIONS)
    (hlong : ∀ r ∈ written, 8 ≤ r.pages)
    (hbelow : ∀ r ∈ written, ∀ run ∈ runs, r.base.addr.toNat < first lo run) :
    (∀ r, r ∈ flush (groupEntries runs.flatten written (some (regionOf run))) ↔
        r ∈ written ++ (longRegions (run :: runs)).take (room + 1)) ↔
      AllSettledFrom false (room + 1) (run :: runs) = true := by
  have hlt : written.length < MAX_MEMORY_REGIONS := by omega
  cases hshort : Short run with
  | true =>
      rw [longRegions_short hshort, allSettledFrom_short hshort]
      have hpages : (regionOf run).pages < 8 := by simpa [Short] using hshort
      exact ih ⟨.short hpages h.stop_lt, hroom, hlt, hlong, hbelow⟩
  | false =>
      have hpages : 8 ≤ (regionOf run).pages := by simpa [Short] using hshort
      rw [longRegions_long hshort, allSettledFrom_long hshort, List.take_succ_cons, Bool.not_false,
        Bool.true_and, List.append_cons]
      refine ih ⟨.long hpages h.stop_lt, ?_, hlt, hlong, hbelow⟩
      rw [List.length_append, List.length_singleton]
      omega

/-- A long run that comes when a short region is pending is not recorded: its first entry
is dropped. -/
theorem not_recorded_of_short (h : UsableRuns ((entry :: entries) :: runs))
    (hbelow : ∀ r ∈ written, r.base.addr.toNat < entry.lo) :
    regionOf (entry :: entries) ∉
      flush (groupEntries (entries ++ runs.flatten) written none) := by
  have hbase := toNat_base_regionOf (h.run _ List.mem_cons_self)
  rw [first_cons] at hbase
  intro hr
  rcases base_of_mem_flush hr with hr | ⟨reg, hreg, -⟩ | ⟨e, he, heq⟩
  · have := hbelow _ hr
    omega
  · cases hreg
  · have hlt := h.lo_lt he
    rw [heq] at hbase
    exact hlt.ne' hbase

/-- The first entry of a run that comes when a short region is pending is dropped.  What is left of
a short run is pending then. -/
theorem recordedExactly_dropped (h : UsableRuns ((entry :: entries) :: runs))
    (ih : ∀ {written region recorded short room}, Between runs written region recorded short room →
      (RecordedExactly runs written region recorded room ↔ AllSettledFrom short room runs = true))
    (hroom : written.length + (room + 1) = MAX_MEMORY_REGIONS)
    (hlong : ∀ r ∈ written, 8 ≤ r.pages)
    (hbelow : ∀ r ∈ written, ∀ run ∈ (entry :: entries) :: runs,
      r.base.addr.toNat < first lo run) :
    (∀ r, r ∈ flush (groupEntries (entries ++ runs.flatten) written none) ↔
        r ∈ written ++ (longRegions ((entry :: entries) :: runs)).take (room + 1)) ↔
      AllSettledFrom true (room + 1) ((entry :: entries) :: runs) = true := by
  have hrun := h.run _ List.mem_cons_self
  have hlt : written.length < MAX_MEMORY_REGIONS := by omega
  have hbelow' : ∀ r ∈ written, ∀ run ∈ runs, r.base.addr.toNat < first lo run :=
    fun r hr run hrun ↦ hbelow r hr run (List.mem_cons_of_mem _ hrun)
  cases hshort : Short (entry :: entries) with
  | false =>
      rw [allSettledFrom_long hshort, longRegions_long hshort]
      refine iff_of_false (fun hexact ↦ ?_) (by simp)
      refine not_recorded_of_short h (fun r hr ↦ ?_) ((hexact _).mpr (by simp))
      exact hbelow r hr _ List.mem_cons_self
  | true =>
      rw [allSettledFrom_short hshort, longRegions_short hshort]
      cases entries with
      | nil => exact ih ⟨.none, hroom, hlt, hlong, hbelow'⟩
      | cons next entries =>
          have hpages : (regionOf (next :: entries)).pages < 8 := by
            simpa [Short] using short_tail hrun hshort
          have hgap : ∀ run ∈ runs, (regionOf (next :: entries)).stop < first lo run := by
            rw [stop_regionOf hrun.tail, ← last_cons_cons, ← stop_regionOf hrun]
            exact h.stop_lt
          rw [List.cons_append, groupEntries_none (hrun.tail.usable next List.mem_cons_self),
            groupEntries_region hrun.tail]
          exact ih ⟨.short hpages hgap, hroom, hlt, hlong, hbelow'⟩

/-- What is recorded is what should be exactly if no short region is pending when a long run
or the end of the map is reached. -/
theorem recordedExactly_iff (hruns : UsableRuns runs)
    (h : Between runs written region recorded short room) :
    RecordedExactly runs written region recorded room ↔ AllSettledFrom short room runs = true := by
  induction runs generalizing written region recorded short room with
  | nil => exact recordedExactly_nil h
  | cons run runs ih =>
      have hrun := hruns.run run List.mem_cons_self
      have hroom := h.room_eq
      have hlt := h.lt
      have ih := fun {written region recorded short room}
        (h : Between runs written region recorded short room) ↦ ih hruns.tail h
      have hbelow : ∀ r ∈ written, ∀ run ∈ runs, r.base.addr.toNat < first lo run :=
        fun r hr run' hrun' ↦ h.below r hr run' (List.mem_cons_of_mem _ hrun')
      obtain ⟨entry, entries, rfl⟩ := List.exists_cons_of_ne_nil hrun.ne_nil
      have hu := hrun.usable entry List.mem_cons_self
      rw [RecordedExactly, List.flatten_cons, List.cons_append]
      cases h.pending with
      | none =>
          obtain ⟨n, rfl⟩ : ∃ n, room = n + 1 := ⟨room - 1, by omega⟩
          rw [groupEntries_none hu, groupEntries_region hrun]
          exact recordedExactly_pending hruns ih hroom h.long hbelow
      | @long reg hlong hgap =>
          have hstop := hgap _ List.mem_cons_self
          rw [first_cons] at hstop
          rw [List.length_append, List.length_singleton] at hroom
          rw [groupEntries_gap hu hstop, if_pos hlong]
          split_ifs with hfull
          · -- the table is full, and the loop is left
            obtain rfl : room = 0 := by omega
            refine iff_of_true (fun r ↦ ?_) rfl
            rw [flush, if_neg (by simp [hfull]), List.take_zero, List.append_nil]
          · obtain ⟨n, rfl⟩ : ∃ n, room = n + 1 := ⟨room - 1, by omega⟩
            rw [groupEntries_region hrun]
            refine recordedExactly_pending hruns ih ?_ ?_ ?_
            · rw [List.length_append, List.length_singleton]
              omega
            · intro r hr
              rcases List.mem_append.mp hr with hr | hr
              · exact h.long r hr
              · rwa [List.mem_singleton.mp hr]
            · intro r hr run' hrun'
              rcases List.mem_append.mp hr with hr | hr
              · exact hbelow r hr run' hrun'
              · rw [List.mem_singleton.mp hr]
                have := hgap run' (List.mem_cons_of_mem _ hrun')
                rw [MemoryRegion.stop] at this
                omega
      | @short reg hshort hgap =>
          obtain ⟨n, rfl⟩ : ∃ n, room = n + 1 := ⟨room - 1, by omega⟩
          have hstop := hgap _ List.mem_cons_self
          rw [first_cons] at hstop
          rw [groupEntries_gap hu hstop, if_neg (by simpa using hshort)]
          exact recordedExactly_dropped hruns ih hroom h.long h.below

end

/-! ## The memory map -/

/-- The addresses of usable memory. -/
def usableMemory (entries : List MemoryDescriptor) : Set ℕ := covered lo hi (usable entries)

/-- A maximal run of at least eight pages of usable memory. -/
def IsLongRun (entries : List MemoryDescriptor) (region : MemoryRegion) : Prop :=
  IsRun (usableMemory entries) region.base.addr.toNat region.stop ∧ 8 ≤ region.pages

/-- All maximal runs of at least eight pages of usable memory, in address order. -/
structure LongRuns (entries : List MemoryDescriptor) (regions : List MemoryRegion) : Prop where
  ascending : regions.Pairwise fun a b ↦ a.base.addr.toNat < b.base.addr.toNat
  mem_iff : ∀ region, region ∈ regions ↔ IsLongRun entries region

section

variable {entries : List MemoryDescriptor} (h : WellFormed entries)

include h

theorem WellFormed.sorted : Sorted lo hi (usable entries) := by
  refine Sorted.filter ⟨fun entry he ↦ ?_, h.ascending⟩ _
  have hpos := h.nonempty entry he
  rw [lo, hi, PAGE_SIZE]
  omega

theorem WellFormed.usableRuns : UsableRuns (runs entries) := by
  have hmem : ∀ {run}, run ∈ runs entries → ∀ entry ∈ run, entry ∈ usable entries :=
    fun hrun entry he ↦ mem_of_mem_split hrun he
  refine ⟨fun run hrun ↦ ⟨List.ne_nil_of_mem_splitBy hrun, touching_of_mem_split hrun,
    fun entry he ↦ ?_, fun entry he ↦ h.sorted.lt entry (hmem hrun entry he),
    fun entry he ↦ ?_⟩, h.sorted.separated_split.gap⟩
  · simpa using List.of_mem_filter (hmem hrun entry he)
  · exact h.fits entry (List.mem_of_mem_filter (hmem hrun entry he))

/-- The long runs of entries are the long runs of memory. -/
theorem WellFormed.longRuns : LongRuns entries (longRegions (runs entries)) := by
  have hruns := h.usableRuns
  constructor
  · refine List.pairwise_map.mpr (List.Pairwise.imp_of_mem ?_ (hruns.gap.sublist
      List.filter_sublist))
    intro run run' hrun hrun' hlt
    have hrun := hruns.run run (List.mem_of_mem_filter hrun)
    have hrun' := hruns.run run' (List.mem_of_mem_filter hrun')
    have hpages := pages_regionOf hrun
    rw [toNat_base_regionOf hrun, toNat_base_regionOf hrun']
    omega
  · intro region
    rw [IsLongRun, usableMemory, h.sorted.isRun_iff, longRegions, List.mem_map]
    constructor
    · rintro ⟨run, hmem, rfl⟩
      obtain ⟨hmem, hlong⟩ := List.mem_filter.mp hmem
      have hrun := hruns.run run hmem
      exact ⟨⟨run, hmem, toNat_base_regionOf hrun, stop_regionOf hrun⟩, by
        simpa [Short] using hlong⟩
    · rintro ⟨⟨run, hmem, hbase, hstop⟩, hlong⟩
      have hrun := hruns.run run hmem
      have heq : regionOf run = region := by
        rw [← toNat_base_regionOf hrun] at hbase
        rw [← stop_regionOf hrun, MemoryRegion.stop, MemoryRegion.stop, hbase] at hstop
        refine MemoryRegion.ext (PAddr.ext (BitVec.eq_of_toNat_eq hbase.symm))
          (BitVec.eq_of_toNat_eq ?_)
        rw [PAGE_SIZE] at hstop
        omega
      exact ⟨run, List.mem_filter.mpr ⟨hmem, by simpa [Short, heq] using hlong⟩, heq⟩

/-- The regions recorded are the long runs of usable memory, or the first of them as far as
there is room, exactly if the short runs before each of these and at the end are settled. -/
theorem memoryRegions_iff :
    ∃ regions, LongRuns entries regions ∧
      ((∀ region, region ∈ memoryRegions entries ↔ region ∈ regions.take MAX_MEMORY_REGIONS) ↔
        AllSettled MAX_MEMORY_REGIONS (runs entries) = true) := by
  refine ⟨_, h.longRuns, ?_⟩
  have hstart : Between (runs entries) [] none [] false MAX_MEMORY_REGIONS :=
    ⟨.none, rfl, by decide, fun _ h ↦ absurd h List.not_mem_nil,
      fun _ h ↦ absurd h List.not_mem_nil⟩
  rw [← allSettledFrom_false, ← recordedExactly_iff h.usableRuns hstart]
  apply forall_congr'
  intro region
  rw [memoryRegions, List.mem_mergeSort, List.nil_append, runs, flatten_split, groupEntries_usable]

end

/-- Two adjacent usable entries, and two short ones that settle each other. -/
theorem memoryRegions_iff_settled :
    let entries : List MemoryDescriptor :=
      [⟨.LOADER_CODE, 0x1000, 4⟩, ⟨.CONVENTIONAL, 0x5000, 12⟩, ⟨.other 0, 0x11000, 1⟩,
        ⟨.CONVENTIONAL, 0x12000, 2⟩, ⟨.CONVENTIONAL, 0x20000, 3⟩]
    ∃ regions, LongRuns entries regions ∧
      ((∀ region, region ∈ memoryRegions entries ↔ region ∈ regions.take MAX_MEMORY_REGIONS) ↔
        AllSettled MAX_MEMORY_REGIONS (runs entries) = true) :=
  memoryRegions_iff ⟨by decide, by decide, by decide⟩

/-- A run of one page before a run of sixteen: nothing is recorded. -/
theorem long_run_lost :
    let entries : List MemoryDescriptor := [⟨.CONVENTIONAL, 0x1000, 1⟩, ⟨.CONVENTIONAL, 0x10000, 16⟩]
    WellFormed entries ∧ IsLongRun entries ⟨⟨0x10000⟩, 16⟩ ∧ memoryRegions entries = [] := by
  intro entries
  have h : WellFormed entries := ⟨by decide, by decide, by decide⟩
  have hlong : longRegions (runs entries) = [⟨⟨0x10000⟩, 16⟩] := by decide
  have hflush : flush (groupEntries entries [] none) = [] := by decide
  refine ⟨h, (h.longRuns.mem_iff _).mp (by simp [hlong]), ?_⟩
  rw [memoryRegions, hflush, List.mergeSort_nil]

end Elpytios
