import Elpytios.Lib.Radix.Opening
import Elpytios.Lib.Simulation
import Elpytios.Paging.Finished

/-!
# The address space behind the page tables

What `VirtualMap::map` is for, without page tables.  An `AddressSpace` says for each page, by its
number, which frame it is mapped to and with which flags.  A `CountedSpace` also knows which
regions of it have page tables, and how many requests for one were made, and so it has an answer
to every call: a page that is not mapped yet is mapped, unless a page table is refused for one
of the regions around it (`CountedSpace.map`).

The page tables refine the counted space through the whole life of a map: while it is built,
when it is finished, and while it is changed through `RecursiveMapper` (`map_refines_addressSpace`).
All of this is about the addresses outside the slot of the recursive mapping.  In that slot the
processor sees the page tables themselves.
-/

namespace Elpytios

open Radix Simulation

/-- What a page is mapped to. -/
@[ext]
structure Mapping where
  frame : PAddr
  flags : VFlags
  isPage : frame.IsPage
deriving DecidableEq

/-- What a call asks for. -/
def Call.mapping (c : Call) : Mapping := ⟨c.p_addr.frame, c.flags, c.p_addr.isPage_frame⟩

/-- The pages that are mapped, by their numbers. -/
abbrev AddressSpace := ℕ → Option Mapping

def AddressSpace.empty : AddressSpace := fun _ ↦ none

/-- An address space, and the regions that were given page tables.  A region is named by the
indices that its addresses have in common. -/
structure CountedSpace where
  pages : AddressSpace
  regions : Openings (Fin 512)

namespace CountedSpace

def empty : CountedSpace := ⟨.empty, ∅, 0⟩

/-- A call of `map`.  The regions around a page are of 512 GiB, 1 GiB and 2 MiB, and page tables
are requested for those that have none. -/
def map (R : Fin 512) (alloc : NewPageTable) (c : Call) (a : CountedSpace) :
    Except VirtualMapError Unit × CountedSpace :=
  if c.v_addr.slot 3 = R then (.error (.Reserved c.p_addr c.v_addr), a)
  else
    match a.pages c.v_addr.pageIndex with
    | some m => (.error (.AlreadyMapped c.p_addr c.v_addr m.frame), a)
    | none =>
        match a.regions.extend (fun n ↦ (alloc n).isSome) (waypoints x86 c.v_addr.path 1) with
        | (true, regions) =>
            (.ok (), ⟨Function.update a.pages c.v_addr.pageIndex (some c.mapping), regions⟩)
        | (false, regions) => (.error .PageTable, ⟨a.pages, regions⟩)

/-- Calls of `map`, as steps of a counted space. -/
def steps (R : Fin 512) (alloc : NewPageTable) :
    Steps CountedSpace Call (Except VirtualMapError Unit) := fun a c r a' ↦
  a.map R alloc c = (r, a')

/-- A page is requested for the PML4 when the tables are finished. -/
def finished (a : CountedSpace) : CountedSpace :=
  ⟨a.pages, a.regions.opened, a.regions.requests + 1⟩

end CountedSpace

/-! ## Page tables that represent an address space -/

/-- The leaf of a walk, and how many entries stand above it. -/
def leafOf (w : Walk) : ℕ × Word := (w.1.length, w.2)

/-- Outside slot `R` the pages of an address space are mapped, each by an entry of a PT, and no
others are. -/
def Represents (mem : Memory) (root : Loc) (R : Fin 512) (space : AddressSpace) : Prop :=
  ∀ u : VAddr, u.slot 3 ≠ R → (walk mem root u).map leafOf =
    (space u.pageIndex).map fun m ↦ (3, (leafEntry m.frame m.flags).bits)

/-- What the processor makes of the page tables: addresses translate to the frames of their
pages, and the entries give the rights asked for. -/
structure Shows (mem : Memory) (root : Loc) (R : Fin 512) (space : AddressSpace) : Prop where
  translate_eq : ∀ u : VAddr, u.slot 3 ≠ R → translate mem root u =
    (space u.pageIndex).map fun m ↦
      ⟨m.frame.addr + BitVec.ofNat 64 (u.addr.toNat % PAGE_SIZE)⟩
  grants : ∀ u : VAddr, u.slot 3 ≠ R → ∀ m, space u.pageIndex = some m →
    ∃ w, walk mem root u = some w ∧ Grants w.2 m.flags

/-- An entry records the frame of an address. -/
theorem leafEntry_frame (p : PAddr) (f : VFlags) : leafEntry p.frame f = leafEntry p f := by
  have hframe : p.frame.addr &&& PtEntry.ADDRESS_MASK = p.addr &&& PtEntry.ADDRESS_MASK := by
    change p.addr &&& NodeEntry.ADDRESS_MASK &&& NodeEntry.ADDRESS_MASK = _
    rw [BitVec.and_assoc, BitVec.and_self]
    rfl
  rw [leafEntry, leafEntry, PtEntry.new, PtEntry.new, hframe]

section

variable {mem : Memory} {root : Loc} {R : Fin 512} {space : AddressSpace} {u : VAddr} {m : Mapping}

theorem Represents.walk_eq_none (h : Represents mem root R space) (hu : u.slot 3 ≠ R) :
    walk mem root u = none ↔ space u.pageIndex = none := by
  rw [← Option.map_eq_none_iff (f := leafOf), h u hu, Option.map_eq_none_iff]

theorem Represents.exists_walk (h : Represents mem root R space) (hu : u.slot 3 ≠ R)
    (hm : space u.pageIndex = some m) :
    ∃ ws, walk mem root u = some (ws, (leafEntry m.frame m.flags).bits) ∧ ws.length = 3 := by
  have hleaf := h u hu
  rw [hm, Option.map_some, Option.map_eq_some_iff] at hleaf
  obtain ⟨⟨ws, x⟩, hw, hx⟩ := hleaf
  obtain ⟨hlen, rfl⟩ := Prod.mk.inj hx
  exact ⟨ws, hw, hlen⟩

theorem Represents.shows (h : Represents mem root R space) : Shows mem root R space where
  translate_eq u hu := by
    cases hm : space u.pageIndex with
    | none => rw [translate, (h.walk_eq_none hu).mpr hm]; rfl
    | some m =>
        obtain ⟨ws, hw, hlen⟩ := h.exists_walk hu hm
        rw [translate, hw, Option.map_some, Option.map_some, hlen, leafBase_leafEntry,
          PAddr.frame_eq_self m.isPage]
        rfl
  grants u hu m hm :=
    have ⟨ws, hw, _⟩ := h.exists_walk hu hm
    ⟨_, hw, grants_leafEntry m.frame m.flags⟩

end

/-! ## Calls -/

/-- How `map` ends when it returns a result of the source's type. -/
def returned : Except VirtualMapError Unit → Tables → EStateM.Result Stop Tables Unit
  | .ok (), s => .ok () s
  | .error e, s => .error (.error e) s

/-- Calls of `map`, as their callers see them. -/
def mapSteps {T Ref : Type} [VirtualMapper T Ref] (mapper : T) (alloc : NewPageTable) :
    Steps Tables Call (Except VirtualMapError Unit) := fun s c r s' ↦
  VirtualMap.map mapper alloc c.p_addr c.v_addr c.flags s = returned r s'

section

variable {T Ref : Type} [VirtualMapper T Ref] {mapper : T} {root : Loc} {R : Fin 512} {e : Word}
  {alloc : NewPageTable} {s s' : Tables} {c : Call} {r : Except VirtualMapError Unit}
  {space : AddressSpace}

theorem returned_inj {r r' : Except VirtualMapError Unit} {s s' : Tables}
    (h : returned r s = returned r' s') : r = r' ∧ s = s' := by
  rcases r with e | ⟨⟩ <;> rcases r' with e' | ⟨⟩ <;> simp_all [returned]

@[simp] theorem after_returned (r : Except VirtualMapError Unit) (s : Tables) :
    after (returned r s) = s := by
  rcases r with e | ⟨⟩ <;> rfl

variable (hm : Lawful mapper root R e)

include hm

/-- Every call has an answer. -/
theorem exists_mapSteps (hs : Intact alloc root R e s) (c : Call) :
    ∃ r, mapSteps mapper alloc s c r
      (after (VirtualMap.map mapper alloc c.p_addr c.v_addr c.flags s)) := by
  by_cases hv : c.v_addr.slot 3 = R
  · exact ⟨.error (.Reserved c.p_addr c.v_addr), by rw [mapSteps, map_of_reserved hm hv]; rfl⟩
  · obtain ⟨o, s', hmap, -⟩ := map_spec hm hs hv c.p_addr c.flags
    rcases o with r | ⟨⟩
    · exact ⟨.error (refused c.p_addr c.v_addr r), by rw [mapSteps, hmap]; rfl⟩
    · exact ⟨.ok (), by rw [mapSteps, hmap]; rfl⟩

theorem exists_run_mapSteps (hs : Intact alloc root R e s) (calls : List Call) :
    ∃ events, events.map Prod.fst = calls ∧
      Run (mapSteps mapper alloc) s events (mapAll mapper alloc calls s) := by
  induction calls generalizing s with
  | nil => exact ⟨[], rfl, .nil⟩
  | cons c calls ih =>
      obtain ⟨r, hr⟩ := exists_mapSteps hm hs c
      obtain ⟨events, hcalls, hrun⟩ := ih (hs.map hm c.p_addr c.v_addr c.flags)
      exact ⟨(c, r) :: events, congrArg (c :: ·) hcalls, .cons hr hrun⟩

/-- What is behind a page that was just mapped, and behind the others. -/
theorem Represents.update (h : Represents s.store root R space) (hs : Intact alloc root R e s)
    (hok : VirtualMap.map mapper alloc c.p_addr c.v_addr c.flags s = .ok () s') :
    Represents s'.store root R
      (Function.update space c.v_addr.pageIndex (some c.mapping)) := by
  intro u hu
  by_cases hpage : u.pageIndex = c.v_addr.pageIndex
  · obtain ⟨-, ws, hw, hlen⟩ := walk_of_ok hm hs hok
    rw [walk_eq_lookup, ← VAddr.path_eq_iff.mpr hpage, ← walk_eq_lookup] at hw
    rw [hw, hpage, Function.update_self, Option.map_some, Option.map_some, Call.mapping,
      leafEntry_frame,
      leafOf, hlen]
  · rw [walk_of_ne hm hs hok hu hpage, Function.update_of_ne hpage, h u hu]

/-- Page tables that represent a counted space, and the requests made for them. -/
structure CountedSpace.Of (root : Loc) (R : Fin 512) (s : Tables) (a : CountedSpace) : Prop where
  represents : Represents s.store root R a.pages
  regions : a.regions.Of x86 root (Domain.avoiding R) s

/-- A call on page tables is a call on the counted space they represent. -/
theorem counted_of_mapSteps {a : CountedSpace} (hs : Intact alloc root R e s) (h : a.Of root R s)
    (hstep : mapSteps mapper alloc s c r s') :
    ∃ a', CountedSpace.steps R alloc a c r a' ∧ a'.Of root R s' := by
  by_cases hv : c.v_addr.slot 3 = R
  · obtain ⟨rfl, rfl⟩ := returned_inj (r := .error (.Reserved c.p_addr c.v_addr))
      ((map_of_reserved hm hv).symm.trans hstep)
    exact ⟨a, if_pos hv, h⟩
  · obtain ⟨o, s'', hmap, hins⟩ := map_spec hm hs hv c.p_addr c.flags
    have hout := hmap.symm.trans hstep
    simp only [CountedSpace.steps, CountedSpace.map, if_neg hv]
    cases hpage : a.pages c.v_addr.pageIndex with
    | some m =>
        obtain ⟨_, hw, hlen⟩ := h.represents.exists_walk hv hpage
        rw [walk_eq_lookup] at hw
        cases hins with
        | @occupied ws _ hw' =>
            obtain ⟨rfl, rfl⟩ := Prod.mk.inj (Option.some.inj (hw'.symm.trans hw))
            obtain ⟨rfl, rfl⟩ := returned_inj (r := .error (refused c.p_addr c.v_addr _)) hout
            have hbase : leafBase ws.length (leafEntry m.frame m.flags).bits = m.frame := by
              rw [hlen, leafBase_leafEntry, PAddr.frame_eq_self m.isPage]
            exact ⟨a, by rw [refused, hbase], h⟩
        | noTable hfree => cases hfree.symm.trans hw
        | ok hfree => cases hfree.symm.trans hw
    | none =>
        have hfree := (h.represents.walk_eq_none hv).mpr hpage
        rw [walk_eq_lookup] at hfree
        have hgranted (n : ℕ) : (alloc n).isSome = (supply alloc n).isSome :=
          (Option.isSome_map ..).symm
        obtain ⟨granted, regions, hextend, hregions, rfl⟩ := hins.extend_eq hgranted hs.good
          (path_mem_avoiding.mpr hv) (bottom_lt_path _) hfree h.regions
        rw [hextend]
        cases granted with
        | true =>
            obtain ⟨rfl, rfl⟩ := returned_inj (r := .ok ()) hout
            exact ⟨_, rfl, h.represents.update hm hs hmap, hregions⟩
        | false =>
            obtain ⟨rfl, rfl⟩ := returned_inj (r := .error .PageTable) hout
            refine ⟨⟨a.pages, regions⟩, rfl, fun u hu ↦ ?_, hregions⟩
            rw [walk_eq_lookup, hins.lookup_of_error hs.good (path_mem_avoiding.mpr hu),
              ← walk_eq_lookup, h.represents u hu]

/-- A run of calls is a run on the counted space. -/
theorem counted_run {a : CountedSpace} (hs : Intact alloc root R e s) (h : a.Of root R s)
    {events : List (Call × Except VirtualMapError Unit)}
    (hrun : Run (mapSteps mapper alloc) s events s') :
    ∃ a', Run (CountedSpace.steps R alloc) a events a' ∧ a'.Of root R s' := by
  obtain ⟨a', hrun', -, h'⟩ := Run.simulate
    (fun s a ↦ Intact alloc root R e s ∧ CountedSpace.Of root R s a) hrun
    (fun {s _ c _ _} ⟨hs, h⟩ hstep ↦ by
      obtain ⟨a', hstep', h'⟩ := counted_of_mapSteps hm hs h hstep
      have hs' := hs.map hm c.p_addr c.v_addr c.flags
      rw [hstep, after_returned] at hs'
      exact ⟨a', hstep', hs', h'⟩) ⟨hs, h⟩
  exact ⟨a', hrun', h'⟩

end

/-! ## The whole life of a map -/

theorem represents_tables (R : Fin 512) :
    Represents VirtualMapBuilder.tables.store .own R AddressSpace.empty := fun u _ ↦ by
  rw [walk_tables]; rfl

/-- Empty tables have no page table below the PML4. -/
theorem counted_tables (R : Fin 512) :
    CountedSpace.empty.Of .own R VirtualMapBuilder.tables where
  represents := represents_tables R
  regions := by
    refine ⟨fun ρ _ hne ↦ iff_of_false (Finset.notMem_empty ρ) ?_, rfl⟩
    rintro ⟨l, hl⟩
    obtain ⟨i, π, rfl⟩ := List.exists_cons_of_ne_nil hne
    obtain ⟨t, m, ht, hd, -⟩ := follow_cons_eq_some.mp hl
    rw [(VirtualMapBuilder.store_tables ht).2, x86_decode,
      decode_of_not_present (present_zeroed i)] at hd
    cases hd

/-- Finishing the tables moves the PML4 to the page requested for it. -/
theorem CountedSpace.Of.finished {alloc : NewPageTable} {R : Word} (hR : R.toNat < 512)
    {s s' : Tables} (hs : Intact alloc .own ⟨R.toNat, hR⟩ 0 s) {pml4 : PAddr} {m : RecursiveMapper}
    (hfin : (VirtualMapBuilder.new R alloc).finish s = .ok (pml4, m) s') {a : CountedSpace}
    (h : a.Of .own ⟨R.toNat, hR⟩ s) : a.finished.Of (.page pml4) ⟨R.toNat, hR⟩ s' where
  represents u hu := by
    obtain ⟨-, -, -, -, -, hwalk⟩ := VirtualMapBuilder.finish_spec hR hs hfin
    rw [hwalk hu]
    exact h.represents u hu
  regions := by
    refine ⟨fun ρ hρ hne ↦ ?_, ?_⟩
    · rw [VirtualMapBuilder.follow_finish hR hs hfin hρ hne]
      exact h.regions.mem_opened ρ hρ hne
    · rw [(VirtualMapBuilder.finish_spec hR hs hfin).2.1, ← h.regions.requests_eq]
      rfl

/-- From the first call of a builder to the last call after the tables were loaded, the calls are
answered as those on a counted space are.  It starts empty, and outside the slot of the recursive
mapping its pages are what the processor sees in the end. -/
theorem map_refines_addressSpace {alloc : NewPageTable} (halloc : Documented alloc) {R : Word}
    (hR : R.toNat < 512) (before : List Call) {pml4 : PAddr} {m : RecursiveMapper} {s₁ : Tables}
    (hfin : (VirtualMapBuilder.new R alloc).finish ((VirtualMapBuilder.new R alloc).run before) =
      .ok (pml4, m) s₁)
    {alloc' : NewPageTable} (halloc' : (supply alloc').Sound x86 s₁) (later : List Call) :
    ∃ events events' space space',
      events.map Prod.fst = before ∧ events'.map Prod.fst = later ∧
      Run (mapSteps (VirtualMapBuilder.new R alloc).map alloc) VirtualMapBuilder.tables events
        ((VirtualMapBuilder.new R alloc).run before) ∧
      Run (mapSteps m alloc') s₁ events' (mapAll m alloc' later s₁) ∧
      Run (CountedSpace.steps ⟨R.toNat, hR⟩ alloc) .empty events space ∧
      Run (CountedSpace.steps ⟨R.toNat, hR⟩ alloc') space.finished events' space' ∧
      Shows (mapAll m alloc' later s₁).store (.page pml4) ⟨R.toNat, hR⟩ space'.pages := by
  have htables := intact_tables halloc ⟨R.toNat, hR⟩
  have hbuilder : Lawful (VirtualMapBuilder.new R alloc).map .own ⟨R.toNat, hR⟩ 0 :=
    VirtualMapBuilder.lawful hR
  obtain ⟨events, hevents, hrun⟩ := exists_run_mapSteps hbuilder htables before
  obtain ⟨space, hspace, hof⟩ := counted_run hbuilder htables (counted_tables _) hrun
  have hs := VirtualMapBuilder.intact_run halloc hR before
  have hof₁ := hof.finished hR hs hfin
  obtain ⟨rfl, -, hs₁, hself, -, -⟩ := VirtualMapBuilder.finish_spec hR hs hfin
  have hs₁' : Intact alloc' (.page pml4) ⟨R.toNat, hR⟩
      (NodeEntry.new Entry.WRITABLE pml4).bits s₁ :=
    ⟨hs₁.table, halloc'⟩
  have hm : Lawful (RecursiveMapper.mk R pml4) (.page pml4) ⟨R.toNat, hR⟩ _ :=
    RecursiveMapper.lawful _ hself rfl
  obtain ⟨events', hevents', hrun'⟩ := exists_run_mapSteps hm hs₁' later
  obtain ⟨space', hspace', hof'⟩ := counted_run hm hs₁' hof₁ hrun'
  exact ⟨events, events', space, space', hevents, hevents', hrun, hrun', hspace, hspace',
    hof'.represents.shows⟩

theorem map_refines_addressSpace_one_page :
    let before : List Call := [⟨⟨0x5000⟩, ⟨0x400000⟩, VFlags.WRITABLE⟩]
    let later : List Call := [⟨⟨0x6000⟩, ⟨0x401000⟩, VFlags.empty⟩]
    let b := VirtualMapBuilder.new 510 (firstPages 8)
    let s₁ := VirtualMapBuilder.finished (b.run before) 510 ⟨0x4000⟩
    let m : RecursiveMapper := ⟨510, ⟨0x4000⟩⟩
    ∃ events events' space space',
      events.map Prod.fst = before ∧ events'.map Prod.fst = later ∧
      Run (mapSteps b.map (firstPages 8)) VirtualMapBuilder.tables events (b.run before) ∧
      Run (mapSteps m (firstPages 8)) s₁ events' (mapAll m (firstPages 8) later s₁) ∧
      Run (CountedSpace.steps 510 (firstPages 8)) .empty events space ∧
      Run (CountedSpace.steps 510 (firstPages 8)) space.finished events' space' ∧
      Shows (mapAll m (firstPages 8) later s₁).store (.page ⟨0x4000⟩) 510 space'.pages := by
  have halloc : Documented (firstPages 8) := documented_firstPages (by omega)
  have hR : (510 : Word).toNat < 512 := by decide
  have hs := VirtualMapBuilder.intact_run halloc hR [⟨⟨0x5000⟩, ⟨0x400000⟩, VFlags.WRITABLE⟩]
  have hfin := VirtualMapBuilder.finish_of_some hR hs (a := ⟨0x4000⟩) (by decide +kernel)
  have hloaded := (VirtualMapBuilder.finish_spec hR hs hfin).2.2.1
  exact map_refines_addressSpace halloc hR _ hfin hloaded.sound _

/-- A second page of a region needs no page table of its own. -/
example :
    let first : Call := ⟨⟨0x5000⟩, ⟨0x400000⟩, VFlags.WRITABLE⟩
    let second : Call := ⟨⟨0x6000⟩, ⟨0x401000⟩, VFlags.empty⟩
    let a := (CountedSpace.empty.map 510 (firstPages 3) first).2
    (a.map 510 (firstPages 3) second).1 = .ok () ∧
      (a.map 510 (firstPages 3) first).1 =
        .error (.AlreadyMapped ⟨0x5000⟩ ⟨0x400000⟩ ⟨0x5000⟩) := by
  decide +kernel

end Elpytios
