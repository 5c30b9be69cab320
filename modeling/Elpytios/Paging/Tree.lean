import Elpytios.Bootinfo.Virt

/-!
# The tree of page tables

The invariant of the page tables a `VirtualMap` works on.  Below the PML4 at `root`,
apart from its slot `R`, the tables form a tree in which every table has one place.
Slot `R` holds a fixed word: it is free in a `VirtualMapBuilder` and points back to the
PML4 in a loaded `VirtualMap`.

`Intact` adds that the pages `new_page_table` is still going to hand out are fresh.
Every step of `VirtualMap::map` keeps it.
-/

namespace Elpytios

open Radix

variable {mem : Memory} {root : Loc} {R : Fin 512} {e : Word}

/-- A tree of page tables whose PML4 at `root` holds `e` in slot `R`. -/
structure TableTree (mem : Memory) (root : Loc) (R : Fin 512) (e : Word) : Prop where
  tree : IsTree x86 mem root (Domain.avoiding R)
  /-- Bit 7 is reserved in the entries of a PML4. -/
  noLeaf : ∀ {t i}, mem root = some t → i ≠ R → present (t i) = true → pageSize (t i) = false
  slot : ∀ {t}, mem root = some t → t R = e

/-- The pages `new_page_table` returns, as the tables a tree grows by. -/
def supply (new_page_table : NewPageTable) : Supply Loc := fun n ↦ (new_page_table n).map .page

theorem supply_eq_some {alloc : NewPageTable} {n : ℕ} {l : Loc} :
    supply alloc n = some l ↔ ∃ a, alloc n = some a ∧ l = .page a := by
  simp [supply, eq_comm]

theorem supply_eq_none {alloc : NewPageTable} {n : ℕ} : supply alloc n = none ↔ alloc n = none := by
  simp [supply]

/-- The contract of `new_page_table`, as far as it does not depend on the tables: it
returns distinct pages. -/
structure Documented (alloc : NewPageTable) : Prop where
  page : ∀ {n a}, alloc n = some a → a.IsPage
  distinct : ∀ {n m a}, alloc n = some a → alloc m = some a → n = m

theorem path_mem_avoiding {v : VAddr} : v.path ∈ Domain.avoiding R ↔ v.slot 3 ≠ R := by
  simp [Domain.mem_avoiding, VAddr.path]

namespace TableTree

theorem exists_root (h : TableTree mem root R e) : ∃ t, mem root = some t :=
  h.tree.exists_table (Domain.nil_mem _) (follow_nil 0 root)

/-- Only the empty path leads to the PML4. -/
theorem eq_nil_of_root (h : TableTree mem root R e) {π : List (Fin 512)}
    (hπ : π ∈ Domain.avoiding R) (hl : follow x86 mem 0 root π = some root) : π = [] :=
  h.tree.inj hπ (Domain.nil_mem _) hl (follow_nil 0 root)

theorem put (h : TableTree mem root R e) {a : Loc}
    (ha : Unreached x86 mem root (Domain.avoiding R) a) (t : PageTable) :
    TableTree (mem.put a t) root R e := by
  have hroot : mem.put a t root = mem root :=
    Store.put_of_ne (ha (Domain.nil_mem _) (follow_nil 0 root))
  exact ⟨h.tree.put ha t, fun ht ↦ h.noLeaf (hroot ▸ ht), fun ht ↦ h.slot (hroot ▸ ht)⟩

/-- The PML4 after one of its slots other than `R` was written. -/
theorem root_write (h : TableTree mem root R e) {mem' : Memory} {i : Fin 512} {x : Word}
    (htree : IsTree x86 mem' root (Domain.avoiding R)) (hi : i ≠ R) (hx : pageSize x = false)
    (hroot : mem' root = (mem root).map fun t ↦ Function.update t i x) :
    TableTree mem' root R e := by
  refine ⟨htree, fun {t j} ht hj hp ↦ ?_, fun {t} ht ↦ ?_⟩
  all_goals
    rw [hroot, Option.map_eq_some_iff] at ht
    obtain ⟨t₀, ht₀, rfl⟩ := ht
  · by_cases hji : j = i
    · rw [hji, Function.update_self]; exact hx
    · rw [Function.update_of_ne hji] at hp ⊢
      exact h.noLeaf ht₀ hj hp
  · rw [Function.update_of_ne hi.symm]
    exact h.slot ht₀

/-- Linking a new page table keeps the tree, whatever the slot held before. -/
theorem attach (h : TableTree mem root R e) {π : List (Fin 512)} {i : Fin 512} {l : Loc}
    {a : PAddr} (hπ : π ++ [i] ∈ Domain.avoiding R) (hb : π.length < 3)
    (hl : follow x86 mem 0 root π = some l)
    (ha : Unreached x86 mem root (Domain.avoiding R) (.page a)) (hpage : a.IsPage) :
    TableTree (mem.attach x86 l i (.page a)) root R e := by
  have hπ' := (Domain.avoiding R).mem_of_snoc hπ
  have htree := h.tree.attach (i := i) hπ' hl ha (x86.decode_link _ hb (.page a) hpage)
  have hra := ha (Domain.nil_mem _) (follow_nil 0 root)
  by_cases hlr : l = root
  · subst hlr
    obtain rfl := h.eq_nil_of_root hπ' hl
    refine h.root_write (i := i) htree (by simpa [Domain.mem_avoiding] using hπ)
      ((pageSize_new Entry.WRITABLE a).trans rfl) ?_
    rw [Store.attach, Store.write, if_pos rfl, Store.put_of_ne hra]
    rfl
  · have hroot : mem.attach x86 l i (.page a) root = mem root :=
      (Store.write_of_ne (Ne.symm hlr)).trans (Store.put_of_ne hra)
    exact ⟨htree, fun ht ↦ h.noLeaf (hroot ▸ ht), fun ht ↦ h.slot (hroot ▸ ht)⟩

/-- Writing an entry of a PT keeps the tree. -/
theorem write (h : TableTree mem root R e) {π : List (Fin 512)} {i : Fin 512} {l : Loc} {x : Word}
    (hπ : π ∈ Domain.avoiding R) (hb : π.length = 3) (hl : follow x86 mem 0 root π = some l) :
    TableTree (mem.write l i x) root R e := by
  have htree := h.tree.write (i := i) (x := x) hπ hl (Option.eq_none_iff_forall_ne_some.mpr
    fun c hc ↦ x86.decode_bottom _ hb.ge _ c (Slot.child?_eq_some.mp hc))
  have hroot : mem.write l i x root = mem root := by
    apply Store.write_of_ne
    rintro rfl
    simp [h.eq_nil_of_root hπ hl] at hb
  exact ⟨htree, fun ht ↦ h.noLeaf (hroot ▸ ht), fun ht ↦ h.slot (hroot ▸ ht)⟩

end TableTree

/-! ## States -/

variable {alloc : NewPageTable} {s s' : Tables}

/-- The tables form a tree and the pages still to come are fresh. -/
structure Intact (alloc : NewPageTable) (root : Loc) (R : Fin 512) (e : Word) (s : Tables) :
    Prop where
  table : TableTree s.store root R e
  sound : (supply alloc).Sound x86 s

namespace Intact

theorem good (h : Intact alloc root R e s) : s.Good x86 (supply alloc) root (Domain.avoiding R) :=
  ⟨h.table.tree, h.sound⟩

theorem fresh (h : Intact alloc root R e s) {a : PAddr} (ha : alloc s.calls = some a) :
    s.store (.page a) = none ∧ a.IsPage :=
  have hs := supply_eq_some.mpr ⟨a, ha, rfl⟩
  ⟨h.sound.fresh le_rfl hs, h.sound.linkable le_rfl hs⟩

theorem unreached (h : Intact alloc root R e s) {a : PAddr} (ha : alloc s.calls = some a) :
    Unreached x86 s.store root (Domain.avoiding R) (.page a) :=
  h.table.tree.unreached (h.fresh ha).1

theorem refuse (h : Intact alloc root R e s) : Intact alloc root R e s.refuse :=
  ⟨h.table, h.good.refuse.sound⟩

/-- The next page handed out may be linked from any slot, whatever that held before. -/
theorem link (h : Intact alloc root R e s) {π : List (Fin 512)} {i : Fin 512} {l : Loc} {a : PAddr}
    (hπ : π ++ [i] ∈ Domain.avoiding R) (hb : π.length < 3)
    (hl : follow x86 s.store 0 root π = some l) (ha : alloc s.calls = some a) :
    Intact alloc root R e (s.link x86 l i (.page a)) := by
  obtain ⟨t, ht⟩ := h.table.tree.exists_table ((Domain.avoiding R).mem_of_snoc hπ) hl
  exact ⟨h.table.attach hπ hb hl (h.unreached ha) (h.fresh ha).2,
    h.sound.link ht (supply_eq_some.mpr ⟨a, ha, rfl⟩) i⟩

theorem grow (h : Intact alloc root R e s) {π : List (Fin 512)}
    (hg : Grow x86 (supply alloc) root (Domain.avoiding R) π s s') : Intact alloc root R e s' := by
  cases hg with
  | intro hπ hb hl _ _ ha =>
      obtain ⟨a, hcall, rfl⟩ := supply_eq_some.mp ha
      exact h.link hπ hb hl hcall

theorem growAlong (h : Intact alloc root R e s) {ν : List (Fin 512)}
    (hg : GrowAlong x86 (supply alloc) root (Domain.avoiding R) ν s s') :
    Intact alloc root R e s' := by
  induction hg with
  | refl => exact h
  | tail _ hstep ih =>
      obtain ⟨π, -, hg⟩ := hstep
      exact ih.grow hg

theorem fill (h : Intact alloc root R e s) {π : List (Fin 512)} {x : Word}
    (hf : Fill x86 root (Domain.avoiding R) x π s s') : Intact alloc root R e s' := by
  refine ⟨?_, hf.sound h.sound⟩
  cases hf with
  | intro hπ hb hl _ _ => exact h.table.write ((Domain.avoiding R).mem_of_snoc hπ) hb hl

theorem inserted (h : Intact alloc root R e s) {x : Word} {ν : List (Fin 512)}
    {r : Except (Refusal Word) Unit}
    (hi : Inserted x86 (supply alloc) root (Domain.avoiding R) x ν s r s') :
    Intact alloc root R e s' := by
  cases hi with
  | occupied => exact h
  | noTable _ hg _ _ => exact (h.growAlong hg).refuse
  | ok _ hg hf => exact (h.growAlong hg).fill hf

end Intact

/-- A new builder has its own PML4, free of entries, and nothing else. -/
theorem intact_tables (halloc : Documented alloc) (R : Fin 512) :
    Intact alloc .own R 0 VirtualMapBuilder.tables := by
  have hown : VirtualMapBuilder.tables.store .own = some PageTable.zeroed := rfl
  have hpath : ∀ {π l}, follow x86 VirtualMapBuilder.tables.store 0 .own π = some l →
      π = [] ∧ l = .own := by
    rintro (_ | ⟨i, π⟩) l hl
    · exact ⟨rfl, (Option.some.inj hl).symm⟩
    · obtain ⟨t, c, ht, hd, -⟩ := follow_cons_eq_some.mp hl
      obtain rfl := Option.some.inj (hown.symm.trans ht)
      rw [x86_decode, decode_of_not_present (present_zeroed i)] at hd
      cases hd
  refine ⟨⟨⟨fun _ _ h₁ h₂ ↦ ?_, fun _ hl ↦ ?_⟩, fun ht _ hp ↦ ?_, fun ht ↦ ?_⟩, ?_, ?_, ?_⟩
  · rw [(hpath h₁).1, (hpath h₂).1]
  · rw [(hpath hl).2]; rfl
  · obtain rfl := Option.some.inj (hown.symm.trans ht)
    simp at hp
  · obtain rfl := Option.some.inj (hown.symm.trans ht)
    rfl
  · intro n l _ hl
    obtain ⟨a, ha, rfl⟩ := supply_eq_some.mp hl
    exact halloc.page ha
  · intro n l _ hl
    obtain ⟨a, -, rfl⟩ := supply_eq_some.mp hl
    rfl
  · intro n m l _ _ hn hm
    obtain ⟨a, ha, rfl⟩ := supply_eq_some.mp hn
    obtain ⟨b, hb, hab⟩ := supply_eq_some.mp hm
    obtain rfl := Loc.page.inj hab
    exact halloc.distinct ha hb

end Elpytios
