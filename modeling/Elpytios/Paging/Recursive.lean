import Elpytios.Lib.Radix.Move
import Elpytios.Paging.Builder

/-!
# From the builder to the loaded map

`VirtualMapBuilder::finish` moves the PML4 into a page of its own and points slot `R` at
it (`finish_spec`).  From then on the tables are changed through `RecursiveMapper`.

`RecursiveMapper` and `LocalMapper` are both lawful on such tables, and lawful mappers
cannot be told apart (`map_congr`).  `Watched` makes the resolution of every single
access part of what is compared: it is `RecursiveMapper`, but an access that goes to
another table than the entries select is undefined behaviour.
-/

namespace Elpytios

open Radix

/-! ## `finish` -/

namespace VirtualMapBuilder

/-- The tables after `finish` was given the page `a`. -/
def finished (s : Tables) (R : Fin 512) (a : PAddr) : Tables where
  store := fun l ↦
    if l = .own then none
    else if l = .page a then
      (s.store .own).map fun t ↦ Function.update t R (NodeEntry.new Entry.WRITABLE a).bits
    else s.store l
  calls := s.calls + 1

section

variable {s : Tables} {R : Fin 512} {t : PageTable} (ht : s.store .own = some t) (a : PAddr)

include ht

theorem finished_page : (finished s R a).store (.page a) =
    some (Function.update t R (NodeEntry.new Entry.WRITABLE a).bits) := by
  simp [finished, ht]

/-- Outside slot `R`, `finish` only moves the PML4. -/
theorem moved_finished :
    Moved (Domain.avoiding R) s.store (finished s R a).store .own (.page a) := by
  refine ⟨⟨t, _, ht, finished_page ht a, fun i hi ↦ ?_⟩, fun l h₁ h₂ ↦ ?_⟩
  · exact Function.update_of_ne (by simpa [Domain.mem_avoiding] using hi) _ _
  · simp [finished, h₁, h₂]

end

variable {alloc : NewPageTable} {R : Word} {s s' : Tables}

theorem finish_of_none (ha : alloc s.calls = none) :
    (new R alloc).finish s = .error (.error .PageTable) s.refuse :=
  run_bind_error (newPageTable_of_none ha)

theorem finish_of_some (hR : R.toNat < 512) (hs : Intact alloc .own ⟨R.toNat, hR⟩ 0 s) {a : PAddr}
    (ha : alloc s.calls = some a) :
    (new R alloc).finish s = .ok (a, ⟨R, a⟩) (finished s ⟨R.toNat, hR⟩ a) := by
  obtain ⟨t, ht⟩ := hs.table.exists_root
  have hslot : t ⟨R.toNat, hR⟩ = 0 := hs.table.slot ht
  let s₁ : Tables := { store := s.store.put (.page a) PageTable.zeroed, calls := s.calls + 1 }
  have hne : Loc.own ≠ .page a := Loc.noConfusion
  have hput : s.store.put (.page a) PageTable.zeroed .own = s.store .own := Store.put_of_ne hne
  have hown : s₁.store .own = some t := hput.trans ht
  have hindex : ∀ s₁ : Tables, index R s₁ = .ok ⟨R.toNat, hR⟩ s₁ := fun s₁ ↦ by
    rw [index_eq (j := ⟨R.toNat, hR⟩) rfl]; rfl
  have hpage : (s₁.fill .own ⟨R.toNat, hR⟩ (NodeEntry.new Entry.WRITABLE a).bits).store
      (.page a) = some PageTable.zeroed := by
    rw [State.store_fill, Store.write_of_ne hne.symm]
    exact Store.put_self
  apply (run_bind_ok (newPageTable_of_some ha)).trans
  apply (run_bind_ok (hindex _)).trans
  apply (run_bind_ok (readAt_eq _ hown)).trans
  rw [hslot, if_neg (by decide)]
  apply (run_bind_ok (writeAt_eq _ _ hown)).trans
  refine run_bind_ok (show intoPage a _ = .ok () (finished s ⟨R.toNat, hR⟩ a) from ?_)
  rw [intoPage, hpage]
  refine congrArg (EStateM.Result.ok ()) (State.ext (funext fun l ↦ ?_) rfl)
  by_cases hlo : l = .own
  · simp [finished, hlo]
  · by_cases hla : l = .page a
    · simp [finished, hla, State.fill, Store.write, Store.put, s₁]
    · simp [finished, hlo, hla, State.fill, Store.write, Store.put, s₁]

/-- A successful `finish` loads the tables of the builder: slot `R` points back to the
PML4, and no other walk has changed. -/
theorem finish_spec (hR : R.toNat < 512) (hs : Intact alloc .own ⟨R.toNat, hR⟩ 0 s)
    {pml4 : PAddr} {m : RecursiveMapper} (hok : (new R alloc).finish s = .ok (pml4, m) s') :
    m = ⟨R, pml4⟩ ∧ s'.calls = s.calls + 1 ∧
      Intact alloc (.page pml4) ⟨R.toNat, hR⟩ (NodeEntry.new Entry.WRITABLE pml4).bits s' ∧
      RecursiveMapper.SelfLink pml4 (NodeEntry.new Entry.WRITABLE pml4).bits ∧
      (∀ {P : Word → Prop}, Links x86 s.store .own (Domain.avoiding ⟨R.toNat, hR⟩) P →
        Links x86 s'.store (.page pml4) (Domain.avoiding ⟨R.toNat, hR⟩) P) ∧
      ∀ {u : VAddr}, u.slot 3 ≠ ⟨R.toNat, hR⟩ →
        walk s'.store (.page pml4) u = walk s.store .own u := by
  cases ha : alloc s.calls with
  | none =>
      rw [finish_of_none ha] at hok
      cases hok
  | some a =>
      rw [finish_of_some hR hs ha] at hok
      obtain ⟨⟨rfl, rfl⟩, rfl⟩ : (a = pml4 ∧ ⟨R, a⟩ = m) ∧ finished s ⟨R.toNat, hR⟩ a = s' := by
        simpa using hok
      obtain ⟨t, ht⟩ := hs.table.exists_root
      have hnew := hs.unreached ha
      have hpage := finished_page (R := ⟨R.toNat, hR⟩) ht a
      have hmove := moved_finished (R := ⟨R.toNat, hR⟩) ht a
      have hself := RecursiveMapper.SelfLink.of_new (hs.fresh ha).2
      refine ⟨rfl, rfl, ⟨⟨hs.table.tree.move hmove hnew, fun ht' hi hp ↦ ?_, fun ht' ↦ ?_⟩, ?_⟩,
        hself, fun hlinks ↦ hlinks.move hmove hs.table.tree hnew, fun hu ↦ ?_⟩
      · obtain rfl := Option.some.inj (hpage.symm.trans ht')
        rw [Function.update_of_ne hi] at hp ⊢
        exact hs.table.noLeaf ht hi hp
      · obtain rfl := Option.some.inj (hpage.symm.trans ht')
        exact Function.update_self _ _ _
      · -- the page handed out for the PML4 is not handed out again
        apply hs.sound.mono (Nat.le_succ _)
        intro l hl
        by_cases hla : l = .page a
        · apply Or.inl
          intro n hn hnl
          have := hs.sound.distinct le_rfl (Nat.le_of_succ_le hn)
            (supply_eq_some.mpr ⟨a, ha, rfl⟩) (hla ▸ hnl)
          exact absurd (this ▸ hn) (Nat.not_succ_le_self _)
        · right
          simp [finished, hla, hl]
      · rw [walk_eq_lookup, walk_eq_lookup]
        exact lookup_move hmove hs.table.tree hnew (path_mem_avoiding.mpr hu)

/-- Below the PML4, the tables of a builder stay where they are. -/
theorem follow_finish (hR : R.toNat < 512) (hs : Intact alloc .own ⟨R.toNat, hR⟩ 0 s)
    {pml4 : PAddr} {m : RecursiveMapper} (hok : (new R alloc).finish s = .ok (pml4, m) s')
    {ρ : List (Fin 512)} (hρ : ρ ∈ Domain.avoiding (⟨R.toNat, hR⟩ : Fin 512)) (hne : ρ ≠ []) :
    follow x86 s'.store 0 (.page pml4) ρ = follow x86 s.store 0 .own ρ := by
  cases ha : alloc s.calls with
  | none =>
      rw [finish_of_none ha] at hok
      cases hok
  | some a =>
      rw [finish_of_some hR hs ha] at hok
      obtain ⟨⟨rfl, -⟩, rfl⟩ : (a = pml4 ∧ ⟨R, a⟩ = m) ∧ finished s ⟨R.toNat, hR⟩ a = s' := by
        simpa using hok
      obtain ⟨t, ht⟩ := hs.table.exists_root
      exact follow_move (moved_finished ht a) hs.table.tree (hs.unreached ha) hρ hne

end VirtualMapBuilder

/-! ## Lawful mappers cannot be told apart -/

theorem map_congr {T Ref T' Ref' : Type} [VirtualMapper T Ref] [VirtualMapper T' Ref'] {mapper : T}
    {mapper' : T'} {root : Loc} {R : Fin 512} {e : Word} {alloc : NewPageTable} {s : Tables}
    (hm : Lawful mapper root R e) (hm' : Lawful mapper' root R e) (hs : Intact alloc root R e s)
    (p : PAddr) (v : VAddr) (f : VFlags) :
    VirtualMap.map mapper alloc p v f s = VirtualMap.map mapper' alloc p v f s := by
  by_cases hv : v.slot 3 = R
  · rw [map_of_reserved hm hv, map_of_reserved hm' hv]
  · obtain ⟨o, s', hins, -⟩ := insert_spec (leafEntry p f).bits hs.good [] (by simp)
      (path_mem_avoiding.mpr hv) rfl (follow_nil 0 root)
    rw [map_of_insert hm hs hv hins, map_of_insert hm' hs hv hins]

/-- A call of `map` returns a result of the source's type. -/
theorem map_returns {T Ref : Type} [VirtualMapper T Ref] {mapper : T} {root : Loc} {R : Fin 512}
    {e : Word} {alloc : NewPageTable} {s : Tables} (hm : Lawful mapper root R e)
    (hs : Intact alloc root R e s) (p : PAddr) (v : VAddr) (f : VFlags) :
    answer (VirtualMap.map mapper alloc p v f s) = .ok () ∨
      ∃ err, answer (VirtualMap.map mapper alloc p v f s) = .error (.error err) := by
  by_cases hv : v.slot 3 = R
  · exact Or.inr ⟨_, by rw [map_of_reserved hm hv, answer_error]⟩
  · obtain ⟨o, s', hmap, -⟩ := map_spec hm hs hv p f
    rw [hmap]
    cases o with
    | ok => exact Or.inl rfl
    | error r => exact Or.inr ⟨_, rfl⟩

/-! ## Watching the accesses -/

/-- The table that following `child_addr` through the given slots selects. -/
def childTable (mem : Memory) : Loc → List Word → Option Loc
  | l, [] => some l
  | l, i :: is => (mem l).bind fun t ↦
      if h : i.toNat < 512 then
        childTable mem (.page (NodeEntry.mk (t ⟨i.toNat, h⟩)).child_addr) is
      else none

theorem childTable_of_follow {mem : Memory} {n : ℕ} {l c : Loc} {is : List Word}
    {π : List (Fin 512)} (his : is.map BitVec.toNat = π.map Fin.val)
    (h : follow x86 mem n l π = some c) : childTable mem l is = some c := by
  induction π generalizing n l is with
  | nil =>
      obtain rfl : is = [] := by simpa using his
      exact h
  | cons j π ih =>
      obtain ⟨i, is, rfl, hi, his⟩ := List.map_eq_cons_iff.mp his
      obtain ⟨t, l', ht, hd, hrest⟩ := follow_cons_eq_some.mp h
      have hlt : i.toNat < 512 := hi ▸ j.isLt
      have hij : (⟨i.toNat, hlt⟩ : Fin 512) = j := Fin.ext hi
      rw [childTable, ht, Option.bind_some, dif_pos hlt, hij, (child_of_node hd).1]
      exact ih his hrest

/-- `RecursiveMapper`, with every access checked: a reference also says which slots lead to
the table it was computed for, and using it is undefined unless the processor resolves it
to the table these select at that moment. -/
structure Watched where
  mapper : RecursiveMapper

namespace Watched

def deref (self : Watched) (r : List Word × VAddr) (mem : Memory) : Option Loc :=
  if self.mapper.deref r.2 mem = childTable mem (.page self.mapper.cr3) r.1 then
    self.mapper.deref r.2 mem
  else none

instance : VirtualMapper Watched (List Word × VAddr) where
  reserved self := self.mapper.reserved
  pml4 self := pure ([], self.mapper.pml4)
  pdpt self i := pure ([i], self.mapper.pdpt i)
  pd self i j := pure ([i, j], self.mapper.pd i j)
  pt self i j k := pure ([i, j, k], self.mapper.pt i j k)
  deref := deref

variable {R : Fin 512} {e : Word}

theorem deref_eq (self : Watched) {r : List Word × VAddr} {mem : Memory} {l : Loc}
    {π : List (Fin 512)} (his : r.1.map BitVec.toNat = π.map Fin.val)
    (hl : follow x86 mem 0 (.page self.mapper.cr3) π = some l)
    (hr : self.mapper.deref r.2 mem = some l) : self.deref r mem = some l := by
  rw [deref, hr, childTable_of_follow his hl, if_pos rfl]

/-- Watching `RecursiveMapper` makes no difference. -/
theorem lawful (self : Watched) (hself : RecursiveMapper.SelfLink self.mapper.cr3 e)
    (hR : self.mapper.recursion_index.toNat = R) :
    Lawful self (.page self.mapper.cr3) R e where
  reserved_eq := reserved_eq_decide hR
  access {v s k l} hk _ hl := by
    have h₃ := v.toNat_pml4_index
    have h₂ := v.toNat_pdpt_index
    have h₁ := v.toNat_pd_index
    obtain rfl | rfl | rfl | rfl : k = 0 ∨ k = 1 ∨ k = 2 ∨ k = 3 := by omega
    · refine ⟨_, rfl, fun mem h hm ↦ self.deref_eq rfl hm ?_⟩
      exact Option.some.inj hm ▸ RecursiveMapper.deref_pml4 hself hR h
    · refine ⟨_, rfl, fun mem h hm ↦ self.deref_eq ?_ hm (RecursiveMapper.deref_pdpt hself hR h hm)⟩
      simp [VAddr.path, h₃]
    · refine ⟨_, rfl, fun mem h hm ↦ self.deref_eq ?_ hm (RecursiveMapper.deref_pd hself hR h hm)⟩
      simp [VAddr.path, h₃, h₂]
    · refine ⟨_, rfl, fun mem h hm ↦ self.deref_eq ?_ hm (RecursiveMapper.deref_pt hself hR h hm)⟩
      simp [VAddr.path, h₃, h₂, h₁]

end Watched

/-! ## The refinement -/

/-- Slot `R` of the PML4 points to the PML4. -/
def SelfReferential (mem : Memory) (pml4 : PAddr) (R : Fin 512) : Prop :=
  ∃ t, mem (.page pml4) = some t ∧ (NodeEntry.mk (t R)).is_present = true ∧
    (NodeEntry.mk (t R)).child_addr = pml4

theorem TableTree.selfReferential {mem : Memory} {pml4 : PAddr} {R : Fin 512} {e : Word}
    (h : TableTree mem (.page pml4) R e) (hself : RecursiveMapper.SelfLink pml4 e) :
    SelfReferential mem pml4 R := by
  obtain ⟨t, ht⟩ := h.exists_root
  refine ⟨t, ht, ?_, ?_⟩
  · rw [h.slot ht, NodeEntry.is_present_eq]
    exact hself.present
  · rw [h.slot ht]
    exact Loc.page.inj hself.next

/-- On the tables a builder was finished with, after any sequence of calls through
`RecursiveMapper`: slot `R` points to the PML4, the next call does what it would do with
`LocalMapper`, and each of its accesses goes to the table its slots select. -/
theorem recursive_refines_local {alloc : NewPageTable} (halloc : Documented alloc) {R : Word}
    (hR : R.toNat < 512) (calls : List Call) {pml4 : PAddr} {m : RecursiveMapper} {s₁ : Tables}
    (hfin : (VirtualMapBuilder.new R alloc).finish ((VirtualMapBuilder.new R alloc).run calls) =
      .ok (pml4, m) s₁)
    {alloc' : NewPageTable} (halloc' : (supply alloc').Sound x86 s₁) (later : List Call)
    (p : PAddr) (v : VAddr) (f : VFlags) :
    let s := mapAll m alloc' later s₁
    SelfReferential s.store pml4 ⟨R.toNat, hR⟩ ∧
      VirtualMap.map m alloc' p v f s =
        VirtualMap.map (LocalMapper.mk (.page pml4) R) alloc' p v f s ∧
      VirtualMap.map (Watched.mk m) alloc' p v f s = VirtualMap.map m alloc' p v f s ∧
      (answer (VirtualMap.map m alloc' p v f s) = .ok () ∨
        ∃ err, answer (VirtualMap.map m alloc' p v f s) = .error (.error err)) := by
  obtain ⟨rfl, -, hs₁, hself, -, -⟩ := VirtualMapBuilder.finish_spec hR
    (VirtualMapBuilder.intact_run halloc hR calls) hfin
  have hm : Lawful (RecursiveMapper.mk R pml4) (.page pml4) ⟨R.toNat, hR⟩ _ :=
    RecursiveMapper.lawful _ hself rfl
  have hlocal : Lawful (LocalMapper.mk (.page pml4) R) (.page pml4) ⟨R.toNat, hR⟩
      (NodeEntry.new Entry.WRITABLE pml4).bits := LocalMapper.lawful _ rfl
  have hwatched := Watched.lawful ⟨⟨R, pml4⟩⟩ hself (R := ⟨R.toNat, hR⟩) rfl
  have hs : Intact alloc' _ _ _ (mapAll (RecursiveMapper.mk R pml4) alloc' later s₁) :=
    Intact.mapAll hm ⟨hs₁.table, halloc'⟩ later
  intro s
  exact ⟨hs.table.selfReferential hself, map_congr hm hlocal hs p v f,
    map_congr hwatched hm hs p v f, map_returns hm hs p v f⟩

/-- A builder finished after one call, and two calls through `RecursiveMapper`. -/
theorem recursive_refines_local_loaded :
    let s₀ := (VirtualMapBuilder.new 510 (firstPages 8)).run
      [⟨⟨0x5000⟩, ⟨0x400000⟩, VFlags.WRITABLE⟩]
    let s₁ := VirtualMapBuilder.finished s₀ 510 ⟨0x4000⟩
    let m : RecursiveMapper := ⟨510, ⟨0x4000⟩⟩
    let s := mapAll m (firstPages 8) [⟨⟨0x6000⟩, ⟨0x401000⟩, VFlags.empty⟩] s₁
    SelfReferential s.store ⟨0x4000⟩ 510 ∧
      VirtualMap.map m (firstPages 8) ⟨0x7000⟩ ⟨0x8000000000⟩ VFlags.empty s =
        VirtualMap.map (LocalMapper.mk (.page ⟨0x4000⟩) 510) (firstPages 8) ⟨0x7000⟩
          ⟨0x8000000000⟩ VFlags.empty s ∧
      VirtualMap.map (Watched.mk m) (firstPages 8) ⟨0x7000⟩ ⟨0x8000000000⟩ VFlags.empty s =
        VirtualMap.map m (firstPages 8) ⟨0x7000⟩ ⟨0x8000000000⟩ VFlags.empty s ∧
      (answer (VirtualMap.map m (firstPages 8) ⟨0x7000⟩ ⟨0x8000000000⟩ VFlags.empty s) = .ok () ∨
        ∃ err, answer (VirtualMap.map m (firstPages 8) ⟨0x7000⟩ ⟨0x8000000000⟩ VFlags.empty s) =
          .error (.error err)) := by
  have halloc : Documented (firstPages 8) := documented_firstPages (by omega)
  have hR : (510 : Word).toNat < 512 := by decide
  have hs := VirtualMapBuilder.intact_run halloc hR [⟨⟨0x5000⟩, ⟨0x400000⟩, VFlags.WRITABLE⟩]
  have hfin := VirtualMapBuilder.finish_of_some hR hs (a := ⟨0x4000⟩) (by decide +kernel)
  have hloaded := (VirtualMapBuilder.finish_spec hR hs hfin).2.2.1
  exact recursive_refines_local halloc hR _ hfin hloaded.sound _ _ _ _

end Elpytios
