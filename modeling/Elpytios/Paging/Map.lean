import Elpytios.Paging.Mapper

/-!
# `VirtualMap::map` inserts into the tree

With a lawful mapper `VirtualMap::map` is insertion into the radix tree of page tables
(`map_of_insert`), so that it has the three outcomes of an insertion (`map_spec`).
The rest of the development reasons from these outcomes.
-/

namespace Elpytios

open Radix

variable {root : Loc} {R : Fin 512} {e : Word} {s s' : Tables} {alloc : NewPageTable}

/-! ## Entries as the code and the processor see them -/

/-- What the `match` at a depth sees in an entry. -/
def arm : ℕ → Word → Arm
  | 0 => pml4Arm
  | 1 => pdptArm
  | 2 => pdArm
  | _ => ptArm

/-- What the code sees in an entry that the processor takes for the given slot. -/
def armOf (n : ℕ) (x : Word) : Slot Loc → Arm
  | .empty => .absent
  | .leaf => .leaf (leafBase n x)
  | .node _ => .node

/-- The code and the processor agree on an entry, unless it is one of the PML4 with bit 7
set. -/
theorem arm_eq {n : ℕ} (hn : n ≤ 3) {x : Word}
    (hx : n = 0 → present x = true → pageSize x = false) :
    arm n x = armOf n x (decode n x) := by
  have hp : x.getLsbD 0 = present x := rfl
  have hl : x.getLsbD 7 = pageSize x := rfl
  obtain rfl | rfl | rfl | rfl : n = 0 ∨ n = 1 ∨ n = 2 ∨ n = 3 := by omega
  · rw [arm, pml4Arm, NodeEntry.is_present_eq, hp]
    cases h : present x with
    | false => simp [decode_of_not_present h, armOf]
    | true => simp [decode, h, hx rfl h, armOf]
  · rw [arm, pdptArm, PdptEntry.is_present_eq, PdptEntry.kind_eq, hp, hl]
    cases h : present x with
    | false => simp [decode_of_not_present h, armOf]
    | true =>
        cases h' : pageSize x with
        | false => simp [decode, h, h', armOf]
        | true => simp [decode, h, h', armOf]; rfl
  · rw [arm, pdArm, PdEntry.is_present_eq, PdEntry.kind_eq, hp, hl]
    cases h : present x with
    | false => simp [decode_of_not_present h, armOf]
    | true =>
        cases h' : pageSize x with
        | false => simp [decode, h, h', armOf]
        | true => simp [decode, h, h', armOf]; rfl
  · change ptArm x = _
    rw [ptArm, PtEntry.is_present_eq, hp]
    cases h : present x with
    | false => simp [decode_of_not_present h, armOf]
    | true => simp [decode, h, armOf]; rfl

theorem TableTree.arm_eq {mem : Memory} (h : TableTree mem root R e) {v : VAddr}
    (hv : v.slot 3 ≠ R) {k j : ℕ} (hkj : k + j = 3) {l : Loc} {t : PageTable}
    (hl : follow x86 mem 0 root (v.path.take k) = some l) (ht : mem l = some t) :
    arm k (t (v.slot j)) = armOf k (t (v.slot j)) (decode k (t (v.slot j))) := by
  apply Elpytios.arm_eq (by omega)
  intro hk hp
  subst hk
  obtain rfl : j = 3 := by omega
  obtain rfl := Option.some.inj hl
  exact h.noLeaf ht hv hp

theorem getLsbD_leafEntry (p : PAddr) (f : VFlags) (i : ℕ) :
    (leafEntry p f).bits.getLsbD i =
      if 12 ≤ i ∧ i < 52 then p.addr.getLsbD i
      else (Entry.ofVFlags f).bits.getLsbD i || decide (i = 0) ||
        (decide (i = 8) && f.bits.getLsbD 5) := by
  have hglobal : (if f.contains VFlags.GLOBAL then PtEntry.GLOBAL else PtEntry.empty).bits.getLsbD i
      = (decide (i = 8) && f.bits.getLsbD 5) := by
    rw [VFlags.contains_GLOBAL]
    cases f.bits.getLsbD 5 with
    | false => simp [PtEntry.empty]
    | true =>
        rw [if_pos rfl, PtEntry.GLOBAL, Bits.getLsbD_one_shiftLeft]
        by_cases h : i = 8 <;> simp [h]
  rw [leafEntry, PtEntry.bits_or, BitVec.getLsbD_or, PtEntry.getLsbD_new, hglobal]
  by_cases h : 12 ≤ i ∧ i < 52
  · have h8 : ¬ i = 8 := by omega
    simp [h, h8]
  · rw [if_neg h, if_neg h]

theorem present_leafEntry (p : PAddr) (f : VFlags) : present (leafEntry p f).bits = true := by
  rw [present, getLsbD_leafEntry]
  simp

theorem decode_leafEntry (p : PAddr) (f : VFlags) : decode 3 (leafEntry p f).bits = .leaf :=
  decode_bottom (present_leafEntry p f)

/-! ## Level by level -/

/-- The index of an address into the table `j` levels above the page. -/
def tableIndex (i : VAddrInfo) : ℕ → Word
  | 0 => i.pt_index
  | 1 => i.pd_index
  | 2 => i.pdpt_index
  | _ => i.pml4_index

theorem toNat_tableIndex (v : VAddr) {j : ℕ} (hj : j ≤ 3) :
    (tableIndex v.info j).toNat = v.slot j := by
  obtain rfl | rfl | rfl | rfl : j = 0 ∨ j = 1 ∨ j = 2 ∨ j = 3 := by omega
  · exact v.toNat_pt_index
  · exact v.toNat_pd_index
  · exact v.toNat_pdpt_index
  · exact v.toNat_pml4_index

theorem take_mem_avoiding {v : VAddr} (hv : v.slot 3 ≠ R) (k : ℕ) :
    v.path.take k ∈ Domain.avoiding R :=
  (Domain.avoiding R).mem_of_isPrefix (path_mem_avoiding.mpr hv) (List.take_prefix _ _)

/-- What `map` does from the table `j` levels above the page on. -/
def mapFrom {T Ref : Type} [VirtualMapper T Ref] (mapper : T) (new_page_table : NewPageTable)
    (p_addr : PAddr) (v_addr : VAddr) (flags : VFlags) : ℕ → MapM Unit
  | 0 => do
      let pt ← accessor mapper v_addr.info 3
      matchLeaf mapper p_addr v_addr flags pt (tableIndex v_addr.info 0)
  | j + 1 => do
      let table ← accessor mapper v_addr.info (2 - j)
      matchNode mapper new_page_table p_addr v_addr (arm (2 - j)) table
        (tableIndex v_addr.info (j + 1))
      mapFrom mapper new_page_table p_addr v_addr flags j

theorem map_eq_mapFrom {T Ref : Type} [VirtualMapper T Ref] (mapper : T)
    (new_page_table : NewPageTable) (p_addr : PAddr) (v_addr : VAddr) (flags : VFlags) :
    VirtualMap.map mapper new_page_table p_addr v_addr flags =
      if VirtualMapper.reserved mapper v_addr then throw (.error (.Reserved p_addr v_addr))
      else mapFrom mapper new_page_table p_addr v_addr flags 3 := rfl

/-! ## Outcomes -/

/-- The error of `map` for a refused insertion. -/
def refused (p_addr : PAddr) (v_addr : VAddr) : Refusal Word → VirtualMapError
  | .noTable => .PageTable
  | .occupied n x => .AlreadyMapped p_addr v_addr (leafBase n x)

/-- How `map` ends when an insertion ends with `r` in the state `s`. -/
def outcome (p_addr : PAddr) (v_addr : VAddr) (r : Except (Refusal Word) Unit) (s : Tables) :
    EStateM.Result Stop Tables Unit :=
  match r with
  | .ok () => .ok () s
  | .error r => .error (.error (refused p_addr v_addr r)) s

@[simp] theorem after_outcome (p : PAddr) (v : VAddr) (r : Except (Refusal Word) Unit)
    (s : Tables) : after (outcome p v r s) = s := by
  cases r <;> rfl

@[simp] theorem answer_outcome (p : PAddr) (v : VAddr) (r : Except (Refusal Word) Unit)
    (s : Tables) :
    answer (outcome p v r s) = r.mapError fun r ↦ .error (refused p v r) := by
  cases r <;> rfl

/-! ## The `match`es -/

section

variable {T Ref : Type} [VirtualMapper T Ref] {mapper : T} {p : PAddr} {v : VAddr} {f : VFlags}
  {l : Loc} {t : PageTable} {r : Ref}

theorem readEntry_eq (hr : VirtualMapper.deref mapper r s.store = some l)
    (ht : s.store l = some t) (i : Fin 512) : readEntry mapper r i s = .ok (t i) s := by
  rw [readEntry, run_bind_ok (show (get : MapM Tables) s = .ok s s from rfl), hr, readAt_eq i ht]

theorem writeEntry_eq (hr : VirtualMapper.deref mapper r s.store = some l)
    (ht : s.store l = some t) (i : Fin 512) (x : Word) :
    writeEntry mapper r i x s = .ok () (s.fill l i x) := by
  rw [writeEntry, run_bind_ok (show (get : MapM Tables) s = .ok s s from rfl), hr,
    writeAt_eq i x ht]

theorem newPageTable_of_none (h : alloc s.calls = none) :
    newPageTable alloc s = .error (.error .PageTable) s.refuse := by
  simp [newPageTable, h]

theorem newPageTable_of_some {a : PAddr} (h : alloc s.calls = some a) :
    newPageTable alloc s =
      .ok a { store := s.store.put (.page a) PageTable.zeroed, calls := s.calls + 1 } := by
  simp [newPageTable, h]

variable (hs : Intact alloc root R e s) {k : ℕ}
  (hl : follow x86 s.store 0 root (v.path.take k) = some l)
  (ht : s.store l = some t) (hr : Reaches mapper root R e (v.path.take k) l r)

include hs hl ht hr

/-- A new page table is linked where the reference found a free entry. -/
theorem link_eq {a : PAddr} (ha : alloc s.calls = some a) (hk : v.path.take k ∈ Domain.avoiding R)
    (i : Fin 512) :
    (newPageTable alloc >>= fun a ↦
      writeEntry mapper r i (NodeEntry.new Entry.WRITABLE a).bits) s =
      .ok () (s.link x86 l i (.page a)) := by
  have hnew := hs.unreached ha
  have hl' := (follow_put hnew PageTable.zeroed hk).trans hl
  rw [run_bind_ok (newPageTable_of_some ha),
    writeEntry_eq (hr (hs.table.put hnew PageTable.zeroed) hl')
      ((Store.put_of_ne (hnew hk hl)).trans ht)]
  rfl

variable {j : ℕ} (hkj : k + j = 3) (hv : v.slot 3 ≠ R) {i : Word} (hi : i.toNat = v.slot j)

include hkj hv hi

/-- A `match` reads the entry of the table the walk is at. -/
theorem matchNode_eq :
    matchNode mapper alloc p v (arm k) r i s =
      (match armOf k (t (v.slot j)) (decode k (t (v.slot j))) with
        | .absent => do
            let a ← newPageTable alloc
            writeEntry mapper r (v.slot j) (NodeEntry.new Entry.WRITABLE a).bits
        | .leaf existing => throw (Stop.error (.AlreadyMapped p v existing))
        | .node => pure ()) s := by
  rewrite [matchNode, index_eq hi, run_bind_ok (run_pure _ s),
    run_bind_ok (readEntry_eq (hr hs.table hl) ht _), hs.table.arm_eq hv hkj hl ht]
  rfl

/-- The first three `match`es make one step of an insertion, and the rest of `map` goes on
from there. -/
theorem matchNode_bind (hj : 0 < j) {rest : Unit → MapM Unit} {x : Word} {π : List (Fin 512)}
    (hπ : π ≠ []) {o : Except (Refusal Word) Unit} {s' : Tables}
    (hins : Radix.insert x86 (supply alloc) x k l (v.slot j :: π) s = some (o, s'))
    (hrest : ∀ {s₁ c}, Intact alloc root R e s₁ →
      follow x86 s₁.store 0 root (v.path.take (k + 1)) = some c →
      Radix.insert x86 (supply alloc) x (k + 1) c π s₁ = some (o, s') →
      rest () s₁ = outcome p v o s') :
    (matchNode mapper alloc p v (arm k) r i >>= rest) s = outcome p v o s' := by
  have hsnoc := v.take_path hkj
  have hlen := v.length_take_path (show k ≤ 4 by omega)
  have hD := take_mem_avoiding hv (k + 1)
  have hmatch := matchNode_eq (p := p) hs hl ht hr hkj hv hi
  obtain ⟨i₁, π₁, rfl⟩ := List.exists_cons_of_ne_nil hπ
  rw [Radix.insert, ht, Option.bind_some] at hins
  cases hd : decode k (t (v.slot j)) with
  | empty =>
      rw [hd] at hmatch
      cases ha : alloc s.calls with
      | none =>
          have hout : (Except.error .noTable, s.refuse) = (o, s') := by
            simpa [hd, supply_eq_none.mpr ha] using hins
          obtain ⟨rfl, rfl⟩ := Prod.mk.inj hout
          exact run_bind_error (hmatch.trans (run_bind_error (newPageTable_of_none ha)))
      | some a =>
          have hsup := supply_eq_some.mpr ⟨a, ha, rfl⟩
          have hg : Grow x86 (supply alloc) root (Domain.avoiding R) (v.path.take k ++ [v.slot j]) s
              (s.link x86 l (v.slot j) (.page a)) :=
            .intro (hsnoc ▸ hD) (by rw [hlen]; exact (by omega : k < 3)) hl ht
              (by rw [hlen]; exact hd) hsup
          obtain ⟨b, hb, hfb, -⟩ := hg.follow_self hs.sound hs.table.tree
          obtain rfl := Option.some.inj (hsup.symm.trans hb)
          rw [run_bind_ok (hmatch.trans
            (link_eq hs hl ht hr ha ((Domain.avoiding R).mem_of_snoc (hsnoc ▸ hD)) _))]
          apply hrest (hs.grow hg) (hsnoc ▸ hfb)
          simpa only [x86_decode, hd, hsup] using hins
  | leaf =>
      have hout : (Except.error (.occupied k (t (v.slot j))), s) = (o, s') := by
        simpa [hd] using hins
      obtain ⟨rfl, rfl⟩ := Prod.mk.inj hout
      rw [hd] at hmatch
      exact run_bind_error hmatch
  | node c =>
      rw [hd] at hmatch
      rw [run_bind_ok hmatch]
      refine hrest hs ?_ (by simpa only [x86_decode, hd] using hins)
      rw [hsnoc]
      exact follow_snoc_eq_some.mpr ⟨l, t, hl, ht, by rw [hlen]; exact hd⟩

omit hkj hv hi in
/-- The last `match` fills the slot of the page. -/
theorem matchLeaf_eq (hk : k = 3) (hv : v.slot 3 ≠ R) {i : Word} (hi : i.toNat = v.slot 0)
    {o : Except (Refusal Word) Unit} {s' : Tables}
    (hins : Radix.insert x86 (supply alloc) (leafEntry p f).bits k l [v.slot 0] s = some (o, s')) :
    matchLeaf mapper p v f r i s = outcome p v o s' := by
  subst hk
  have harm : ptArm (t (v.slot 0)) = armOf 3 (t (v.slot 0)) (decode 3 (t (v.slot 0))) :=
    hs.table.arm_eq (j := 0) hv rfl hl ht
  rw [matchLeaf, index_eq hi, run_bind_ok (run_pure _ s),
    run_bind_ok (readEntry_eq (hr hs.table hl) ht _), harm]
  rw [Radix.insert, ht, Option.bind_some] at hins
  cases hd : decode 3 (t (v.slot 0)) with
  | empty =>
      have hout : (Except.ok (), s.fill l (v.slot 0) (leafEntry p f).bits) = (o, s') := by
        simpa [hd] using hins
      obtain ⟨rfl, rfl⟩ := Prod.mk.inj hout
      exact writeEntry_eq (hr hs.table hl) ht _ _
  | leaf =>
      have hout : (Except.error (.occupied 3 (t (v.slot 0))), s) = (o, s') := by
        simpa [hd] using hins
      obtain ⟨rfl, rfl⟩ := Prod.mk.inj hout
      rfl
  | node c => exact absurd (decode_eq_node hd).1 (by decide)

end

/-! ## `map` -/

section

variable {T Ref : Type} [VirtualMapper T Ref] {mapper : T} {p : PAddr} {v : VAddr} {f : VFlags}

/-- `map` refuses the addresses of slot `R` at once. -/
theorem map_of_reserved (hm : Lawful mapper root R e) (hv : v.slot 3 = R) :
    VirtualMap.map mapper alloc p v f s = .error (.error (.Reserved p v)) s := by
  rw [VirtualMap.map, hm.reserved_eq, if_pos (decide_eq_true hv)]
  rfl

/-- From any table on the way, `map` goes on as the insertion of the page's entry does. -/
theorem mapFrom_of_insert (hm : Lawful mapper root R e) (hs : Intact alloc root R e s)
    (hv : v.slot 3 ≠ R) {k j : ℕ} (hkj : k + j = 3) {l : Loc}
    (hl : follow x86 s.store 0 root (v.path.take k) = some l) {o : Except (Refusal Word) Unit}
    (hins : Radix.insert x86 (supply alloc) (leafEntry p f).bits k l (v.path.drop k) s =
      some (o, s')) :
    mapFrom mapper alloc p v f j s = outcome p v o s' := by
  induction j generalizing k l s with
  | zero =>
      obtain rfl : k = 3 := hkj
      obtain ⟨t, ht⟩ := hs.table.tree.exists_table (take_mem_avoiding hv 3) hl
      obtain ⟨r, hacc, hr⟩ := hm.access (by decide) hs.table hl
      rw [mapFrom, run_bind_ok hacc]
      exact matchLeaf_eq hs hl ht hr rfl hv (toNat_tableIndex v (by decide)) hins
  | succ j ih =>
      obtain rfl : k = 2 - j := by omega
      obtain ⟨t, ht⟩ := hs.table.tree.exists_table (take_mem_avoiding hv (2 - j)) hl
      obtain ⟨r, hacc, hr⟩ := hm.access (by omega) hs.table hl
      rw [v.drop_path hkj] at hins
      have hdrop : v.path.drop (2 - j + 1) ≠ [] := by
        rw [v.drop_path (show 2 - j + 1 + j = 3 by omega)]
        exact List.cons_ne_nil _ _
      rw [mapFrom, run_bind_ok hacc]
      refine matchNode_bind hs hl ht hr hkj hv (toNat_tableIndex v (by omega)) (Nat.succ_pos j)
        hdrop hins fun hs₁ hl₁ hins₁ ↦ ?_
      exact ih hs₁ (by omega) hl₁ hins₁

/-- `map` does what insertion of the page's entry does. -/
theorem map_of_insert (hm : Lawful mapper root R e) (hs : Intact alloc root R e s)
    (hv : v.slot 3 ≠ R) {o : Except (Refusal Word) Unit}
    (hins : Radix.insert x86 (supply alloc) (leafEntry p f).bits 0 root v.path s = some (o, s')) :
    VirtualMap.map mapper alloc p v f s = outcome p v o s' := by
  rw [map_eq_mapFrom, hm.reserved_eq, if_neg (by simpa using hv)]
  exact mapFrom_of_insert (k := 0) hm hs hv rfl rfl hins

/-- From any table on the way to a page that is not mapped, `map` goes on to map it, if the
tables still missing are to be had. -/
theorem mapFrom_of_free (hm : Lawful mapper root R e) (hs : Intact alloc root R e s)
    (hv : v.slot 3 ≠ R) {k j : ℕ} (hkj : k + j = 3) {l : Loc}
    (hl : follow x86 s.store 0 root (v.path.take k) = some l)
    (hfree : lookup x86 (s.table x86 root) [] v.path = none)
    (hall : ∀ n, s.calls ≤ n → n < s.calls + missing x86 s.store root v.path → alloc n ≠ none) :
    ∃ s', mapFrom mapper alloc p v f j s = .ok () s' ∧
      Inserted x86 (supply alloc) root (Domain.avoiding R) (leafEntry p f).bits v.path s
        (.ok ()) s' := by
  have hD := path_mem_avoiding.mpr hv
  have hsplit : v.path.take k ++ v.path.drop k = v.path := List.take_append_drop k _
  have hlen := v.length_take_path (show k ≤ 4 by omega)
  have hdrop : (v.path.drop k).length = 4 - k := by rw [List.length_drop, v.length_path]
  have hne : v.path.drop k ≠ [] := by
    intro hc
    rw [hc, List.length_nil] at hdrop
    omega
  obtain ⟨o, s', hins, hspec⟩ := insert_spec (leafEntry p f).bits hs.good (v.path.take k) hne
    (by rw [hsplit]; exact hD) (by rw [hlen, hdrop]; exact (by omega : k + (4 - k) = 4)) hl
  rw [hsplit] at hspec
  rw [hlen] at hins
  obtain rfl := hspec.eq_ok hs.good hD (Nat.lt_succ_self 3) hfree fun n hn hn' ↦ by
    simpa [supply_eq_none] using hall n hn hn'
  exact ⟨s', mapFrom_of_insert hm hs hv hkj hl hins, hspec⟩

/-- Outside slot `R`, `map` ends in one of the outcomes of an insertion. -/
theorem map_spec (hm : Lawful mapper root R e) (hs : Intact alloc root R e s) (hv : v.slot 3 ≠ R)
    (p : PAddr) (f : VFlags) :
    ∃ o s', VirtualMap.map mapper alloc p v f s = outcome p v o s' ∧
      Inserted x86 (supply alloc) root (Domain.avoiding R) (leafEntry p f).bits v.path s o s' := by
  obtain ⟨o, s', hins, hspec⟩ := insert_spec (leafEntry p f).bits hs.good []
    (by simp) (path_mem_avoiding.mpr hv) rfl (follow_nil 0 root)
  exact ⟨o, s', map_of_insert hm hs hv hins, hspec⟩

end

end Elpytios
