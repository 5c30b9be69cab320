import Elpytios.Paging.Pages
import Elpytios.Paging.Recursive

/-!
# Mapping ranges and finishing the tables

A builder that maps ranges of pages and is finished leaves tables in which these pages,
and outside slot `R` no others, are mapped.
-/

namespace Elpytios

open Radix

theorem walk_tables (u : VAddr) : walk VirtualMapBuilder.tables.store .own u = none := by
  have hown : VirtualMapBuilder.tables.store .own = some PageTable.zeroed := rfl
  rw [walk, hown, Option.bind_some]
  simp only [present_zeroed]
  rfl

section

variable {alloc : NewPageTable} {R : Word} (hR : R.toNat < 512)

section

variable {s : Tables} (hs : Intact alloc .own ⟨R.toNat, hR⟩ 0 s)

include hs

theorem calls_le_finish :
    s.calls ≤ (after ((VirtualMapBuilder.new R alloc).finish s)).calls := by
  cases ha : alloc s.calls with
  | none =>
      rw [VirtualMapBuilder.finish_of_none ha]
      exact Nat.le_succ _
  | some a =>
      rw [VirtualMapBuilder.finish_of_some hR hs ha]
      exact Nat.le_succ _

theorem finish_defined :
    answer ((VirtualMapBuilder.new R alloc).finish s) ≠ .error .undefined := by
  cases ha : alloc s.calls with
  | none => simp [VirtualMapBuilder.finish_of_none ha]
  | some a => simp [VirtualMapBuilder.finish_of_some hR hs ha]

/-- The tables can be finished if the page for the PML4 is not refused. -/
theorem exists_finish (hall : Granted alloc (VirtualMapBuilder.new R alloc).finish s) :
    ∃ pml4 s', (VirtualMapBuilder.new R alloc).finish s = .ok (pml4, ⟨R, pml4⟩) s' := by
  cases ha : alloc s.calls with
  | none =>
      rw [Granted, VirtualMapBuilder.finish_of_none ha] at hall
      exact absurd ha (hall _ le_rfl (Nat.lt_succ_self _))
  | some a => exact ⟨a, _, VirtualMapBuilder.finish_of_some hR hs ha⟩

end

variable (halloc : Documented alloc)

include halloc

/-- The tables that mapping some pages leaves. -/
theorem intact_of_mapPages {calls : List Call} {s₁ : Tables}
    (hs₁ : mapPages (VirtualMapBuilder.new R alloc).map alloc calls VirtualMapBuilder.tables =
      .ok () s₁) : Intact alloc .own ⟨R.toNat, hR⟩ 0 s₁ := by
  have hm : Lawful (VirtualMapBuilder.new R alloc).map .own ⟨R.toNat, hR⟩ 0 :=
    VirtualMapBuilder.lawful hR
  have hintact := (intact_tables halloc ⟨R.toNat, hR⟩).mapPages hm calls
  rwa [hs₁, after_ok] at hintact

variable {ranges : List PageRange} (husable : ∀ r ∈ ranges, r.Usable ⟨R.toNat, hR⟩)

include husable

/-- Ranges without a common page are mapped and the tables finished, if no request is
refused. -/
theorem exists_finished (hdisjoint : ranges.Pairwise PageRange.Disjoint)
    (hall : Granted alloc (mapPages (VirtualMapBuilder.new R alloc).map alloc
        (ranges.flatMap PageRange.calls) >>= fun _ ↦
      unwrapOrPanic (VirtualMapBuilder.new R alloc).finish) VirtualMapBuilder.tables) :
    ∃ s₁ pml4 s', mapPages (VirtualMapBuilder.new R alloc).map alloc
        (ranges.flatMap PageRange.calls) VirtualMapBuilder.tables = .ok () s₁ ∧
      (VirtualMapBuilder.new R alloc).finish s₁ = .ok (pml4, ⟨R, pml4⟩) s' := by
  have hm : Lawful (VirtualMapBuilder.new R alloc).map .own ⟨R.toNat, hR⟩ 0 :=
    VirtualMapBuilder.lawful hR
  have hs := intact_tables halloc ⟨R.toNat, hR⟩
  have hmappable : Mappable .own ⟨R.toNat, hR⟩ VirtualMapBuilder.tables
      (ranges.flatMap PageRange.calls) :=
    (mappable_ranges_iff husable).mpr ⟨fun r _ c _ ↦ walk_tables c.v_addr, hdisjoint⟩
  have hpages := hall.of_bind fun {_ s₁} hs₁ ↦ by
    rw [after_unwrapOrPanic]
    exact calls_le_finish hR (intact_of_mapPages hR halloc hs₁)
  obtain ⟨s₁, hs₁⟩ := exists_mapPages hm hs hmappable hpages
  have hintact := intact_of_mapPages hR halloc hs₁
  have hle := calls_le_mapPages hm hs (ranges.flatMap PageRange.calls)
  rw [hs₁, after_ok] at hle
  have hfinish := hall.right hs₁ hle
  rw [Granted, after_unwrapOrPanic] at hfinish
  obtain ⟨pml4, s', hs'⟩ := exists_finish hR hintact hfinish
  exact ⟨s₁, pml4, s', hs₁, hs'⟩

variable {s₁ s' : Tables} {pml4 : PAddr} {m : RecursiveMapper} {u : VAddr}
  (hs₁ : mapPages (VirtualMapBuilder.new R alloc).map alloc (ranges.flatMap PageRange.calls)
    VirtualMapBuilder.tables = .ok () s₁)
  (hs' : (VirtualMapBuilder.new R alloc).finish s₁ = .ok (pml4, m) s')

include hs₁ hs'

/-- The walks of the pages that were mapped. -/
theorem finished_of_covers {r : PageRange} (hr : r ∈ ranges) (hu : r.Covers u.pageNumber) :
    ∃ w, walk s'.store (.page pml4) u = some w ∧ w.1.length = 3 ∧
      leafBase 3 w.2 = r.frameOf u.pageNumber ∧ Grants w.2 r.flags ∧
      (VirtualMapBuilder.Writable w ↔ r.flags.contains VFlags.WRITABLE = true) := by
  have hm : Lawful (VirtualMapBuilder.new R alloc).map .own ⟨R.toNat, hR⟩ 0 :=
    VirtualMapBuilder.lawful hR
  have hs := intact_tables halloc ⟨R.toNat, hR⟩
  have hslot := (husable r hr).slot_ne u hu
  have hintact := intact_of_mapPages hR halloc hs₁
  obtain ⟨-, -, -, -, -, hwalk⟩ := VirtualMapBuilder.finish_spec hR hintact hs'
  obtain ⟨ws, p, hw, hlen, hp⟩ := walk_of_covers hm hs husable hs₁ hr hu
  have hrun : (VirtualMapBuilder.new R alloc).run (ranges.flatMap PageRange.calls) = s₁ :=
    (eq_mapAll_of_ok hs₁).symm
  have hlinks : ∀ x ∈ ws, VirtualMapBuilder.SupervisorLink x :=
    (hrun ▸ VirtualMapBuilder.links_run halloc hR (ranges.flatMap PageRange.calls)).of_lookup
      (path_mem_avoiding.mpr hslot) ((walk_eq_lookup _ _ _).symm.trans hw)
  refine ⟨_, (hwalk hslot).trans hw, hlen, (leafBase_leafEntry p _).trans hp,
    grants_leafEntry p _, VirtualMapBuilder.writable_iff hlinks p _⟩

/-- Nothing else is mapped. -/
theorem finished_of_not_covered (hu : u.Canonical) (hslot : u.slot 3 ≠ ⟨R.toNat, hR⟩)
    (hout : ∀ r ∈ ranges, ¬ r.Covers u.pageNumber) : walk s'.store (.page pml4) u = none := by
  have hm : Lawful (VirtualMapBuilder.new R alloc).map .own ⟨R.toNat, hR⟩ 0 :=
    VirtualMapBuilder.lawful hR
  have hs := intact_tables halloc ⟨R.toNat, hR⟩
  have hintact := intact_of_mapPages hR halloc hs₁
  obtain ⟨-, -, -, -, -, hwalk⟩ := VirtualMapBuilder.finish_spec hR hintact hs'
  rw [hwalk hslot, walk_of_not_covered hm hs husable hs₁ hu hslot hout, walk_tables]

end

end Elpytios
