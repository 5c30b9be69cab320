import Elpytios.Lib.Radix.Count
import Elpytios.Paging.Pages
import Mathlib.Data.List.Pairwise

/-!
# How many page tables some calls need

Calls that must succeed ask for one page table for every prefix of their paths that has none
yet, however many of the pages share it (`missingTables`).  So they succeed exactly if their
pages can be mapped and that many requests are granted (`exists_mapPages_iff_requests`).

Neither condition looks at the order of the calls, and so in any order the calls succeed, use as
many page tables and lead every address to the same place (`mapPages_perm`).
-/

namespace Elpytios

open Radix

/-- The number of page tables that are missing for some calls. -/
def missingTables (s : Tables) (root : Loc) (calls : List Call) : ℕ :=
  (absent x86 s.store root (calls.map fun c ↦ c.v_addr.path)).card

/-- The requests for these tables are granted. -/
def Supplied (alloc : NewPageTable) (s : Tables) (count : ℕ) : Prop :=
  ∀ n, s.calls ≤ n → n < s.calls + count → alloc n ≠ none

section

variable {T Ref : Type} [VirtualMapper T Ref] {mapper : T} {root : Loc} {R : Fin 512} {e : Word}
  {alloc : NewPageTable} {s s₁ s' : Tables} {c : Call} {calls calls' : List Call} {u : VAddr}

theorem supplied_add {m n : ℕ} (hs₁ : s₁.calls = s.calls + m) :
    Supplied alloc s (m + n) ↔ Supplied alloc s m ∧ Supplied alloc s₁ n := by
  constructor
  · exact fun h ↦ ⟨fun i hi hi' ↦ h i hi (by omega), fun i hi hi' ↦ h i (by omega) (by omega)⟩
  · rintro ⟨h, h'⟩ i hi hi'
    by_cases him : i < s.calls + m
    · exact h i hi him
    · exact h' i (by omega) (by omega)

theorem missingTables_perm (h : calls.Perm calls') :
    missingTables s root calls = missingTables s root calls' := by
  rw [missingTables, missingTables, absent_congr fun ν ↦ (h.map _).mem_iff]

theorem Mappable.perm (h : Mappable root R s calls) (hperm : calls.Perm calls') :
    Mappable root R s calls' where
  slot_ne c hc := h.slot_ne c (hperm.mem_iff.mpr hc)
  free c hc := h.free c (hperm.mem_iff.mpr hc)
  distinct := h.distinct.perm hperm Ne.symm

variable (hm : Lawful mapper root R e) (hs : Intact alloc root R e s)

include hm hs

/-- The calls left can be mapped after the first of them was. -/
theorem Mappable.tail (h : Mappable root R s (c :: calls))
    (hmap : VirtualMap.map mapper alloc c.p_addr c.v_addr c.flags s = .ok () s₁) :
    Mappable root R s₁ calls := by
  obtain ⟨hne, hdistinct⟩ := List.pairwise_cons.mp h.distinct
  refine ⟨fun d hd ↦ h.slot_ne d (List.mem_cons_of_mem c hd), fun d hd ↦ ?_, hdistinct⟩
  rw [walk_of_ne hm hs hmap (h.slot_ne d (List.mem_cons_of_mem c hd)) (hne d hd).symm]
  exact h.free d (List.mem_cons_of_mem c hd)

/-- A call that returns `Ok` was granted the tables on its way, and the calls after it are left
with those that are not on its way. -/
theorem missingTables_cons
    (hmap : VirtualMap.map mapper alloc c.p_addr c.v_addr c.flags s = .ok () s₁)
    (hcalls : ∀ d ∈ calls, d.v_addr.slot 3 ≠ R) :
    ∃ m, s₁.calls = s.calls + m ∧ Supplied alloc s m ∧
      missingTables s root (c :: calls) = m + missingTables s₁ root calls := by
  obtain ⟨hv, hins⟩ := inserted_of_ok hm hs hmap
  have hlen := bottom_lt_path c.v_addr
  refine ⟨missing x86 s.store root c.v_addr.path, hins.calls_of_ok hs.good hlen, fun n hn hn' ↦ ?_,
    hins.card_absent hs.good (path_mem_avoiding.mpr hv) hlen fun ν hν ↦ ?_⟩
  · exact fun hnone ↦ hins.granted_of_ok hs.good hlen hn hn' (supply_eq_none.mpr hnone)
  · obtain ⟨d, hd, rfl⟩ := List.mem_map.mp hν
    exact path_mem_avoiding.mpr (hcalls d hd)

/-- A call for a free page succeeds if the tables missing on its way are supplied. -/
theorem exists_map_of_supplied (hv : c.v_addr.slot 3 ≠ R) (hfree : walk s.store root c.v_addr = none)
    (hall : Supplied alloc s (missingTables s root (c :: calls))) :
    ∃ s₁, VirtualMap.map mapper alloc c.p_addr c.v_addr c.flags s = .ok () s₁ := by
  obtain ⟨o, s₁, hmap, hins⟩ := map_spec hm hs hv c.p_addr c.flags
  have hlen := bottom_lt_path c.v_addr
  have hle : missing x86 s.store root c.v_addr.path ≤ missingTables s root (c :: calls) := by
    rw [← card_absent_singleton _ hlen]
    refine Finset.card_le_card fun π hπ ↦ ?_
    obtain ⟨hπ, hnone⟩ := mem_absent.mp hπ
    obtain ⟨ν, hν, hk⟩ := mem_prefixes.mp hπ
    obtain rfl := List.mem_singleton.mp hν
    exact mem_absent.mpr ⟨mem_prefixes.mpr ⟨_, List.mem_cons_self, hk⟩, hnone⟩
  obtain rfl := hins.eq_ok hs.good (path_mem_avoiding.mpr hv) hlen
    (by rwa [← walk_eq_lookup]) fun n hn hn' hnone ↦
      hall n hn (by omega) (supply_eq_none.mp hnone)
  exact ⟨s₁, hmap⟩

/-- Calls that succeed ask for the tables missing, and are granted them. -/
theorem calls_mapPages (h : mapPages mapper alloc calls s = .ok () s') :
    s'.calls = s.calls + missingTables s root calls ∧
      Supplied alloc s (missingTables s root calls) := by
  induction calls generalizing s with
  | nil =>
      obtain rfl : s = s' := by simpa using h
      exact ⟨rfl, fun n hn hn' ↦ absurd hn' (by simpa [missingTables, absent, prefixes] using hn)⟩
  | cons c calls ih =>
      have hslot := (mappable_of_ok hm hs h).1.slot_ne
      obtain ⟨s₁, hmap, hrest⟩ := mapPages_cons_eq_ok.mp h
      have hs₁ := hs.map hm c.p_addr c.v_addr c.flags
      rw [hmap, after_ok] at hs₁
      obtain ⟨m, hm₁, hsup, hcount⟩ := missingTables_cons hm hs hmap fun d hd ↦
        hslot d (List.mem_cons_of_mem c hd)
      obtain ⟨hcalls, hsup'⟩ := ih hs₁ hrest
      rw [hcount]
      exact ⟨by omega, (supplied_add hm₁).mpr ⟨hsup, hsup'⟩⟩

/-- Calls for free pages succeed if the tables missing on their ways are supplied. -/
theorem exists_mapPages_of_supplied (h : Mappable root R s calls)
    (hall : Supplied alloc s (missingTables s root calls)) :
    ∃ s', mapPages mapper alloc calls s = .ok () s' := by
  induction calls generalizing s with
  | nil => exact ⟨s, rfl⟩
  | cons c calls ih =>
      obtain ⟨s₁, hmap⟩ := exists_map_of_supplied hm hs (h.slot_ne c List.mem_cons_self)
        (h.free c List.mem_cons_self) hall
      have hs₁ := hs.map hm c.p_addr c.v_addr c.flags
      rw [hmap, after_ok] at hs₁
      obtain ⟨m, hm₁, -, hcount⟩ := missingTables_cons hm hs hmap fun d hd ↦
        h.slot_ne d (List.mem_cons_of_mem c hd)
      rw [hcount] at hall
      obtain ⟨s', hs'⟩ := ih hs₁ (h.tail hm hs hmap) ((supplied_add hm₁).mp hall).2
      exact ⟨s', mapPages_cons_eq_ok.mpr ⟨s₁, hmap, hs'⟩⟩

/-- Calls that must succeed do so exactly if their pages are free and different from each other
and there is a page table for every prefix of their paths that has none, and those are the page
tables that they ask for. -/
theorem exists_mapPages_iff_requests :
    ((∃ s', mapPages mapper alloc calls s = .ok () s') ↔
        Mappable root R s calls ∧ Supplied alloc s (missingTables s root calls)) ∧
      ∀ s', mapPages mapper alloc calls s = .ok () s' →
        s'.calls = s.calls + missingTables s root calls := by
  refine ⟨⟨fun ⟨s', h⟩ ↦ ⟨(mappable_of_ok hm hs h).1, (calls_mapPages hm hs h).2⟩, ?_⟩,
    fun s' h ↦ (calls_mapPages hm hs h).1⟩
  rintro ⟨h, hall⟩
  exact exists_mapPages_of_supplied hm hs h hall

/-- Where an address leads after calls that succeed: to the page asked for, or to where it led
before. -/
theorem leaf_mapPages (h : mapPages mapper alloc calls s = .ok () s') (hu : u.slot 3 ≠ R) :
    (∃ c ∈ calls, u.pageIndex = c.v_addr.pageIndex ∧
        (walk s'.store root u).map (fun w ↦ (w.1.length, w.2)) =
          some (3, (leafEntry c.p_addr c.flags).bits)) ∨
      (∀ c ∈ calls, u.pageIndex ≠ c.v_addr.pageIndex) ∧
        walk s'.store root u = walk s.store root u := by
  by_cases hpage : ∃ c ∈ calls, u.pageIndex = c.v_addr.pageIndex
  · obtain ⟨c, hc, hcu⟩ := hpage
    obtain ⟨ws, hw, hlen⟩ := (mappable_of_ok hm hs h).2 c hc
    rw [walk_eq_lookup, ← VAddr.path_eq_iff.mpr hcu, ← walk_eq_lookup] at hw
    exact Or.inl ⟨c, hc, hcu, by rw [hw, Option.map_some, hlen]⟩
  · have hne : ∀ c ∈ calls, u.pageIndex ≠ c.v_addr.pageIndex := fun c hc hcu ↦ hpage ⟨c, hc, hcu⟩
    exact Or.inr ⟨hne, walk_mapPages_of_ne hm hs h hu hne⟩

/-- Calls that succeed in some order succeed in any, with as many page tables, and every address
leads to the same place. -/
theorem mapPages_perm (hperm : calls.Perm calls') (h : mapPages mapper alloc calls s = .ok () s') :
    ∃ s'', mapPages mapper alloc calls' s = .ok () s'' ∧ s''.calls = s'.calls ∧
      ∀ u : VAddr, u.slot 3 ≠ R →
        (walk s''.store root u).map (fun w ↦ (w.1.length, w.2)) =
          (walk s'.store root u).map fun w ↦ (w.1.length, w.2) := by
  have hmappable := (mappable_of_ok hm hs h).1
  obtain ⟨hcalls, hall⟩ := calls_mapPages hm hs h
  have hcount : missingTables s root calls = missingTables s root calls' := missingTables_perm hperm
  obtain ⟨s'', h'⟩ := exists_mapPages_of_supplied hm hs (hmappable.perm hperm) (hcount ▸ hall)
  refine ⟨s'', h', ?_, fun u hu ↦ ?_⟩
  · rw [hcalls, (calls_mapPages hm hs h').1, hcount]
  · have hdistinct := hmappable.distinct
    rcases leaf_mapPages hm hs h hu with ⟨c, hc, hcu, hw⟩ | ⟨hne, hw⟩ <;>
      rcases leaf_mapPages hm hs h' hu with ⟨d, hd, hdu, hw'⟩ | ⟨hne', hw'⟩
    · -- no two calls are for the page of `u`
      have hcd : c = d := by
        by_contra hcd
        have : Std.Symm fun c d : Call ↦ c.v_addr.pageIndex ≠ d.v_addr.pageIndex :=
          ⟨fun _ _ h ↦ h.symm⟩
        exact hdistinct.forall hc (hperm.mem_iff.mpr hd) hcd (hcu.symm.trans hdu)
      rw [hw, hw', hcd]
    · exact absurd hcu (hne' c (hperm.mem_iff.mp hc))
    · exact absurd hdu (hne d (hperm.mem_iff.mpr hd))
    · rw [hw, hw']

end

/-- Two pages of one table, of which the second is asked for with a third page table left. -/
theorem exists_mapPages_iff_requests_two_pages :
    let calls : List Call :=
      [⟨⟨0x5000⟩, ⟨0x400000⟩, VFlags.WRITABLE⟩, ⟨⟨0x6000⟩, ⟨0x401000⟩, VFlags.empty⟩]
    let m := (VirtualMapBuilder.new 510 (firstPages 3)).map
    let s := VirtualMapBuilder.tables
    ((∃ s', mapPages m (firstPages 3) calls s = .ok () s') ↔
        Mappable .own 510 s calls ∧ Supplied (firstPages 3) s (missingTables s .own calls)) ∧
      ∀ s', mapPages m (firstPages 3) calls s = .ok () s' →
        s'.calls = s.calls + missingTables s .own calls :=
  exists_mapPages_iff_requests (VirtualMapBuilder.lawful (by decide))
    (intact_tables (documented_firstPages (by decide)) 510)

/-- The same pages in the other order. -/
theorem mapPages_perm_two_pages :
    let first : Call := ⟨⟨0x5000⟩, ⟨0x400000⟩, VFlags.WRITABLE⟩
    let second : Call := ⟨⟨0x6000⟩, ⟨0x401000⟩, VFlags.empty⟩
    let m := (VirtualMapBuilder.new 510 (firstPages 3)).map
    let s' := after (mapPages m (firstPages 3) [first, second] VirtualMapBuilder.tables)
    ∃ s'', mapPages m (firstPages 3) [second, first] VirtualMapBuilder.tables = .ok () s'' ∧
      s''.calls = s'.calls ∧ ∀ u : VAddr, u.slot 3 ≠ 510 →
        (walk s''.store .own u).map (fun w ↦ (w.1.length, w.2)) =
          (walk s'.store .own u).map fun w ↦ (w.1.length, w.2) :=
  mapPages_perm (VirtualMapBuilder.lawful (by decide))
    (intact_tables (documented_firstPages (by decide)) 510) (.swap _ _ _)
    (eq_ok_of_answer (by decide +kernel))

end Elpytios
