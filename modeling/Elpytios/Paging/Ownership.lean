import Elpytios.Lib.Radix.Owned
import Elpytios.Paging.Recursive

/-!
# Which entry refers to which table

The entries of a PML4, a PDPT and a PD refer to tables by their physical address.  In
the tables of a `VirtualMapBuilder` each page that `new_page_table` handed out is referred
to by one such entry and no other, whatever became of the calls that asked for it
(`VirtualMapBuilder.references_run`).  `finish` adds one reference, the one from slot `R`
of the PML4 to the page the PML4 is moved to (`VirtualMapBuilder.finish_references`).

The accessors of `LocalMapper` follow entries without looking whether they refer to a
table.  `Checked` is `LocalMapper` with that test, and `map` cannot tell it apart.
-/

namespace Elpytios

open Radix

variable {mem : Memory} {root l : Loc} {R i : Fin 512} {e x : Word} {a : PAddr}
  {alloc : NewPageTable} {s s' : Tables}

/-- The page was handed out in answer to one of the requests made so far. -/
def Provided (alloc : NewPageTable) (s : Tables) (a : PAddr) : Prop :=
  ∃ n < s.calls, alloc n = some a

/-- Entry `i` of the table at `l`, which the entries above lead to in `k` steps: the PML4
in none, a PDPT in one and a PD in two. -/
def EntryAt (mem : Memory) (root : Loc) (k : ℕ) (l : Loc) (i : Fin 512) (x : Word) : Prop :=
  ∃ π t, π.length = k ∧ follow x86 mem 0 root π = some l ∧ mem l = some t ∧ t i = x

/-- Entry `i` of the table at `l` refers to the table in the page at `a`. -/
def Refers (mem : Memory) (root l : Loc) (i : Fin 512) (a : PAddr) : Prop :=
  ∃ k x, k < 3 ∧ EntryAt mem root k l i x ∧ (NodeEntry.mk x).is_present = true ∧
    (NodeEntry.mk x).child_addr = a

/-! ## Paths through the recursive slot -/

theorem child?_decode {n : ℕ} (hn : n < 3) (x : Word) :
    (decode n x).child? = if present x ∧ pageSize x = false then some (nextTable x) else none := by
  obtain rfl | rfl | rfl : n = 0 ∨ n = 1 ∨ n = 2 := by omega
  all_goals cases h₁ : present x <;> cases h₂ : pageSize x <;> simp [decode, h₁, h₂, Slot.child?]

/-- Above the PTs, the way from a table does not depend on its depth. -/
theorem follow_succ {n : ℕ} {π : List (Fin 512)} (h : n + π.length < 3) :
    follow x86 mem (n + 1) l π = follow x86 mem n l π := by
  induction π generalizing n l with
  | nil => rfl
  | cons j π ih =>
      rw [List.length_cons] at h
      rw [follow, follow]
      congr 1
      funext t
      rw [x86_decode, child?_decode (by omega), child?_decode (by omega)]
      congr 1
      funext c
      exact ih (by omega)

/-- If slot `R` leads nowhere but to the PML4, the tables above the PTs and the PTs are
reached without it. -/
theorem exists_avoiding {t : PageTable} (ht : mem root = some t)
    (he : ∀ c, decode 0 (t R) = .node c → c = root) {π : List (Fin 512)} (hlen : π.length ≤ 3)
    (hl : follow x86 mem 0 root π = some l) :
    ∃ ρ ∈ Domain.avoiding R, ρ.length ≤ π.length ∧ follow x86 mem 0 root ρ = some l := by
  induction π with
  | nil => exact ⟨[], Domain.nil_mem _, le_rfl, hl⟩
  | cons j π ih =>
      rw [List.length_cons] at hlen
      by_cases hj : j = R
      · obtain ⟨t', c, ht', hc, hl⟩ := follow_cons_eq_some.mp hl
        obtain rfl := Option.some.inj (ht.symm.trans ht')
        rw [he c (hj ▸ hc), follow_succ (by omega)] at hl
        obtain ⟨ρ, hρ, hle, hl⟩ := ih (by omega) hl
        exact ⟨ρ, hρ, hle.trans (Nat.le_succ _), hl⟩
      · exact ⟨j :: π, by simpa [Domain.mem_avoiding] using hj, le_rfl, hl⟩

/-- The entries of the tables above the PTs: slot `R` of the PML4, and those that a path
outside slot `R` leads to. -/
theorem EntryAt.cases (h : TableTree mem root R e) (he : ∀ c, decode 0 e = .node c → c = root)
    {k : ℕ} (hk : k < 3) (hx : EntryAt mem root k l i x) :
    (l = root ∧ i = R ∧ x = e) ∨ ∃ π t, π ++ [i] ∈ Domain.avoiding R ∧ π.length < 3 ∧
      follow x86 mem 0 root π = some l ∧ mem l = some t ∧ t i = x := by
  obtain ⟨π, t, hlen, hl, ht, rfl⟩ := hx
  obtain ⟨t₀, ht₀⟩ := h.exists_root
  obtain ⟨ρ, hρ, hle, hl⟩ := exists_avoiding ht₀ (h.slot ht₀ ▸ he) (by omega) hl
  cases ρ with
  | nil =>
      obtain rfl := Option.some.inj hl
      by_cases hi : i = R
      · exact Or.inl ⟨rfl, hi, hi ▸ h.slot ht⟩
      · exact Or.inr ⟨[], t, by simpa [Domain.mem_avoiding] using hi, by simp, hl, ht, rfl⟩
  | cons j ρ =>
      refine Or.inr ⟨j :: ρ, t, ?_, by omega, hl, ht, rfl⟩
      simpa [Domain.mem_avoiding] using hρ

/-! ## References -/

/-- A free slot leads nowhere. -/
theorem node_of_free (hfree : present e = false) (c : Loc) (hc : decode 0 e = .node c) :
    c = root := by
  rw [decode_of_not_present hfree] at hc
  cases hc

section

variable (hs : Intact alloc root R e s)
  (ho : s.Owned x86 (supply alloc) root (Domain.avoiding R))
  (he : ∀ c, decode 0 e = .node c → c = root)

include hs ho

/-- Outside slot `R` a present entry above the PTs links to a table. -/
theorem decode_of_present {π : List (Fin 512)} {t : PageTable} (hπ : π ++ [i] ∈ Domain.avoiding R)
    (hlen : π.length < 3) (hl : follow x86 s.store 0 root π = some l) (ht : s.store l = some t)
    (hp : present (t i) = true) : decode π.length (t i) = .node (nextTable (t i)) := by
  apply decode_of_node hlen hp
  by_cases hroot : π = []
  · subst hroot
    obtain rfl := Option.some.inj hl
    exact hs.table.noLeaf ht (by simpa [Domain.mem_avoiding] using hπ) hp
  · have hpos := List.length_pos_iff.mpr hroot
    rw [Bool.eq_false_iff]
    intro hleaf
    exact ho.noLeaf hπ hlen hl ht (decode_of_leaf (by omega) hp hleaf)

include he

theorem refers_iff :
    Refers s.store root l i a ↔
      (l = root ∧ i = R ∧ present e = true ∧ (NodeEntry.mk e).child_addr = a) ∨
        LinkedFrom x86 s.store root (Domain.avoiding R) l i (.page a) := by
  constructor
  · rintro ⟨k, x, hk, hx, hp, rfl⟩
    rw [NodeEntry.is_present_eq] at hp
    rcases hx.cases hs.table he hk with ⟨rfl, rfl, rfl⟩ | ⟨π, t, hπ, hlen, hl, ht, rfl⟩
    · exact Or.inl ⟨rfl, rfl, hp, rfl⟩
    · exact Or.inr ⟨π, t, hπ, hl, ht, decode_of_present hs ho hπ hlen hl ht hp⟩
  · rintro (⟨rfl, rfl, hp, rfl⟩ | ⟨π, t, hπ, hl, ht, hd⟩)
    · obtain ⟨t, ht⟩ := hs.table.exists_root
      refine ⟨0, e, by decide, ⟨[], t, rfl, rfl, ht, hs.table.slot ht⟩, ?_, rfl⟩
      rw [NodeEntry.is_present_eq]
      exact hp
    · obtain ⟨hlen, hp, -, -⟩ := decode_eq_node hd
      refine ⟨π.length, t i, hlen, ⟨π, t, rfl, hl, ht, rfl⟩, ?_, ?_⟩
      · rw [NodeEntry.is_present_eq]
        exact hp
      · exact Loc.page.inj (child_of_node hd).1

omit he in
/-- While slot `R` is free, a present entry above the PTs refers to a page handed out. -/
theorem provided_of_present (hfree : present e = false) {k : ℕ} (hk : k < 3)
    (hx : EntryAt s.store root k l i x) (hp : (NodeEntry.mk x).is_present = true) :
    pageSize x = false ∧ Provided alloc s (NodeEntry.mk x).child_addr := by
  rw [NodeEntry.is_present_eq] at hp
  rcases hx.cases hs.table (node_of_free hfree) hk with ⟨-, -, rfl⟩ | ⟨π, t, hπ, hlen, hl, ht, rfl⟩
  · cases hfree.symm.trans hp
  · have hd := decode_of_present hs ho hπ hlen hl ht hp
    obtain ⟨n, hn, hsup⟩ := ho.exists_of_follow_snoc hs.table.tree hπ
      (follow_snoc_eq_some.mpr ⟨l, t, hl, ht, hd⟩)
    obtain ⟨a, ha, hpage⟩ := supply_eq_some.mp hsup
    refine ⟨(decode_eq_node hd).2.2.1, n, hn, ha.trans (congrArg some ?_)⟩
    exact (Loc.page.inj hpage).symm

end

/-! ## `LocalMapper` with a test -/

/-- `LocalMapper`, where following an entry that does not refer to a table is undefined. -/
structure Checked where
  mapper : LocalMapper

namespace Checked

/-- Follow the entries at the given slots, if they are present and nodes. -/
def descend (l : Loc) : List Word → MapM Loc
  | [] => pure l
  | i :: is => do
      let e ← readAt l (← indexUnchecked i)
      if (NodeEntry.mk e).is_present && !pageSize e then
        descend (.page (NodeEntry.mk e).child_addr) is
      else throw .undefined

instance : VirtualMapper Checked Loc where
  reserved self := self.mapper.reserved
  pml4 self := pure self.mapper.table
  pdpt self i := descend self.mapper.table [i]
  pd self i j := descend self.mapper.table [i, j]
  pt self i j k := descend self.mapper.table [i, j, k]
  deref _ l _ := some l

/-- Along links every test is passed. -/
theorem descend_eq {n : ℕ} {l c : Loc} {is : List Word} {π : List (Fin 512)}
    (his : is.map BitVec.toNat = π.map Fin.val) (h : follow x86 s.store n l π = some c) :
    descend l is s = .ok c s := by
  induction π generalizing n l is with
  | nil =>
      obtain rfl : is = [] := by simpa using his
      obtain rfl := Option.some.inj h
      rfl
  | cons j π ih =>
      obtain ⟨i, is, rfl, hi, his⟩ := List.map_eq_cons_iff.mp his
      obtain ⟨t, l', ht, hd, hrest⟩ := follow_cons_eq_some.mp h
      obtain ⟨-, hp, hleaf, -⟩ := decode_eq_node hd
      have htest : ((NodeEntry.mk (t j)).is_present && !pageSize (t j)) = true := by
        rw [NodeEntry.is_present_eq, hleaf]
        exact congrArg (· && true) hp
      rw [descend, indexUnchecked_eq hi, run_bind_ok (run_pure _ s),
        run_bind_ok (readAt_eq _ ht), if_pos htest, (child_of_node hd).1]
      exact ih his hrest

/-- On a tree of page tables the tests are always passed. -/
theorem lawful (self : Checked) (hR : self.mapper.recursion_index.toNat = R) :
    Lawful self self.mapper.table R e where
  reserved_eq := reserved_eq_decide hR
  access {v s k l} hk _ hl := by
    have h₃ := v.toNat_pml4_index
    have h₂ := v.toNat_pdpt_index
    have h₁ := v.toNat_pd_index
    refine ⟨l, ?_, fun _ _ _ ↦ rfl⟩
    obtain rfl | rfl | rfl | rfl : k = 0 ∨ k = 1 ∨ k = 2 ∨ k = 3 := by omega
    · obtain rfl := Option.some.inj hl
      rfl
    · exact descend_eq (by simp [VAddr.path, h₃]) hl
    · exact descend_eq (by simp [VAddr.path, h₃, h₂]) hl
    · exact descend_eq (by simp [VAddr.path, h₃, h₂, h₁]) hl

end Checked

/-! ## The tables of a builder -/

namespace VirtualMapBuilder

variable {R : Word}

theorem leaves_tables {D : Domain (Fin 512)} {P : ℕ → Word → Prop} :
    Leaves x86 tables.store .own D P := by
  intro π i t _ ht hd
  rw [eq_zeroed_of_tableAt ht, x86_decode, decode_of_not_present (present_zeroed i)] at hd
  cases hd

/-- The tables of a builder are owned after any sequence of calls. -/
theorem owned_run (halloc : Documented alloc) (hR : R.toNat < 512) (calls : List Call) :
    ((new R alloc).run calls).Owned x86 (supply alloc) .own (Domain.avoiding ⟨R.toNat, hR⟩) := by
  refine mapAll_induction (lawful hR) (intact_tables halloc _) calls ?_
    fun _ hs ho hins ↦ ho.inserted hs.good hins
  exact ⟨fun ht ↦ Or.inl (store_tables ht).1, fun hn ↦ absurd hn (Nat.not_lt_zero _), leaves_tables⟩

/-- The entries of the PTs are those that calls asked for. -/
theorem leaves_run (halloc : Documented alloc) (hR : R.toNat < 512) (calls : List Call) :
    Leaves x86 ((new R alloc).run calls).store .own (Domain.avoiding ⟨R.toNat, hR⟩)
      fun n x ↦ n = 3 ∧ ∃ c ∈ calls, x = (leafEntry c.p_addr c.flags).bits := by
  exact leaves_mapAll (lawful hR) (intact_tables halloc _) calls (fun c hc ↦ ⟨rfl, c, hc, rfl⟩)
    leaves_tables

/-- Every walk outside slot `R` ends in a PT, in the entry a call asked for. -/
theorem exists_call_of_walk (halloc : Documented alloc) (hR : R.toNat < 512) (calls : List Call)
    {u : VAddr} (hu : u.slot 3 ≠ ⟨R.toNat, hR⟩) {ws : List Word} {x : Word}
    (hw : walk ((new R alloc).run calls).store .own u = some (ws, x)) :
    ws.length = 3 ∧ ∃ c ∈ calls, x = (leafEntry c.p_addr c.flags).bits := by
  rw [walk_eq_lookup] at hw
  exact (leaves_run halloc hR calls).of_lookup (path_mem_avoiding.mpr hu) hw

/-- After any sequence of calls, successful or not: present entries above the PTs refer to
pages handed out, each page handed out is referred to by one of them and no other, there
are no other tables, the entries of PTs are those asked for, and the entries that the
accessors follow in the next call refer to tables. -/
theorem references_run (halloc : Documented alloc) (hR : R.toNat < 512) (calls : List Call) :
    let s := (new R alloc).run calls
    (∀ {k l i x}, k < 3 → EntryAt s.store .own k l i x → (NodeEntry.mk x).is_present = true →
      pageSize x = false ∧ Provided alloc s (NodeEntry.mk x).child_addr) ∧
    (∀ {a}, Provided alloc s a → ∃! q : Loc × Fin 512, Refers s.store .own q.1 q.2 a) ∧
    (∀ {l t}, s.store l = some t → l = .own ∨ ∃ a, Provided alloc s a ∧ l = .page a) ∧
    (∀ {u ws x}, walk s.store .own u = some (ws, x) →
      ws.length = 3 ∧ ∃ c ∈ calls, x = (leafEntry c.p_addr c.flags).bits) ∧
    ∀ p v f,
      VirtualMap.map (Checked.mk (new R alloc).map) alloc p v f s =
        (new R alloc).mapPage p v f s ∧
      (answer ((new R alloc).mapPage p v f s) = .ok () ∨
        ∃ err, answer ((new R alloc).mapPage p v f s) = .error (.error err)) := by
  intro s
  have hs : Intact alloc .own ⟨R.toNat, hR⟩ 0 s := intact_run halloc hR calls
  have ho : s.Owned x86 (supply alloc) .own (Domain.avoiding ⟨R.toNat, hR⟩) :=
    owned_run halloc hR calls
  have hm : Lawful (new R alloc).map .own ⟨R.toNat, hR⟩ 0 := lawful hR
  have hchecked := Checked.lawful ⟨(new R alloc).map⟩ (R := ⟨R.toNat, hR⟩) (e := 0) rfl
  have hfree : present 0 = false := rfl
  have hrefers : ∀ {l i a}, Refers s.store .own l i a ↔
      LinkedFrom x86 s.store .own (Domain.avoiding ⟨R.toNat, hR⟩) l i (.page a) := by
    intro l i a
    rw [refers_iff hs ho (node_of_free hfree), hfree]
    simp
  refine ⟨provided_of_present hs ho hfree, fun {a} ha ↦ ?_, fun {l t} ht ↦ ?_, fun {u ws x} hw ↦ ?_,
    fun p v f ↦ ⟨map_congr hchecked hm hs p v f, map_returns hm hs p v f⟩⟩
  · obtain ⟨n, hn, ha⟩ := ha
    simp only [hrefers]
    exact ho.existsUnique_linkedFrom hs.table.tree hn (supply_eq_some.mpr ⟨a, ha, rfl⟩)
      Loc.noConfusion
  · apply (ho.held ht).imp_right
    rintro ⟨n, hn, hl⟩
    obtain ⟨a, ha, rfl⟩ := supply_eq_some.mp hl
    exact ⟨a, ⟨n, hn, ha⟩, rfl⟩
  · refine exists_call_of_walk halloc hR calls (fun hu ↦ ?_) hw
    cases (hs.table.walk_of_free hfree hu).symm.trans hw

/-- A call that needed three tables, and one that got one of the three it needed. -/
theorem references_run_refused :
    let builder := new 510 (firstPages 4)
    let calls : List Call :=
      [⟨⟨0x5000⟩, ⟨0x400000⟩, VFlags.WRITABLE⟩, ⟨⟨0x6000⟩, ⟨0x8000000000⟩, VFlags.empty⟩]
    let s := builder.run calls
    (∀ {k l i x}, k < 3 → EntryAt s.store .own k l i x → (NodeEntry.mk x).is_present = true →
      pageSize x = false ∧ Provided (firstPages 4) s (NodeEntry.mk x).child_addr) ∧
    (∀ {a}, Provided (firstPages 4) s a → ∃! q : Loc × Fin 512, Refers s.store .own q.1 q.2 a) ∧
    (∀ {l t}, s.store l = some t → l = .own ∨ ∃ a, Provided (firstPages 4) s a ∧ l = .page a) ∧
    (∀ {u ws x}, walk s.store .own u = some (ws, x) →
      ws.length = 3 ∧ ∃ c ∈ calls, x = (leafEntry c.p_addr c.flags).bits) ∧
    ∀ p v f,
      VirtualMap.map (Checked.mk builder.map) (firstPages 4) p v f s = builder.mapPage p v f s ∧
      (answer (builder.mapPage p v f s) = .ok () ∨
        ∃ err, answer (builder.mapPage p v f s) = .error (.error err)) :=
  have halloc : Documented (firstPages 4) := documented_firstPages (by omega)
  references_run halloc (by decide) _

/-! ## The finished tables -/

section

variable (hR : R.toNat < 512) (hs : Intact alloc .own ⟨R.toNat, hR⟩ 0 s)
  (ho : s.Owned x86 (supply alloc) .own (Domain.avoiding ⟨R.toNat, hR⟩))
  (ha : alloc s.calls = some a)

include hs ho ha

/-- The finished tables are owned by the PML4 in the page handed out last. -/
theorem owned_finished : (finished s ⟨R.toNat, hR⟩ a).Owned x86 (supply alloc) (.page a)
    (Domain.avoiding ⟨R.toNat, hR⟩) := by
  obtain ⟨t, ht⟩ := hs.table.exists_root
  refine ho.move hs.table.tree (moved_finished ht a) (hs.unreached ha) rfl
    (supply_eq_some.mpr ⟨a, ha, rfl⟩) rfl fun n _ hn ↦ ?_
  obtain ⟨b, -, hb⟩ := supply_eq_some.mp hn
  cases hb

/-- In the finished tables slot `R` refers to the PML4, and nothing else does. -/
theorem refers_finished_iff : Refers (finished s ⟨R.toNat, hR⟩ a).store (.page a) l i a ↔
    l = .page a ∧ i = ⟨R.toNat, hR⟩ := by
  obtain ⟨-, -, hs', hself, -, -⟩ := finish_spec hR hs (finish_of_some hR hs ha)
  have hlink : ∀ c, decode 0 (NodeEntry.new Entry.WRITABLE a).bits = .node c → c = .page a := by
    intro c hc
    rw [(decode_eq_node hc).2.2.2, hself.next]
  rw [refers_iff hs' (owned_finished hR hs ho ha) hlink]
  constructor
  · rintro (⟨hl, hi, -, -⟩ | ⟨π, t, hπ, hl, ht, hd⟩)
    · exact ⟨hl, hi⟩
    · -- a link to the PML4 from elsewhere would be a second path to it
      have hnil := hs'.table.eq_nil_of_root hπ (follow_snoc_eq_some.mpr ⟨l, t, hl, ht, hd⟩)
      simp at hnil
  · rintro ⟨hl, hi⟩
    exact Or.inl ⟨hl, hi, hself.present, Loc.page.inj hself.next⟩

end

/-- After any sequence of calls, successful or not: slot `R` is free, so that `finish` fails
only if the page for the PML4 is refused.  Otherwise the PML4 is in the page handed out,
every walk outside slot `R` is the one it was, slot `R` is a writable link to that page, and
nothing else refers to it; the entries of PTs are those calls asked for. -/
theorem finish_references (halloc : Documented alloc) (hR : R.toNat < 512) (calls : List Call) :
    let s := (new R alloc).run calls
    (∃ t, s.store .own = some t ∧ (NodeEntry.mk (t ⟨R.toNat, hR⟩)).is_present = false) ∧
    (alloc s.calls = none →
      (new R alloc).finish s = .error (.error .PageTable) s.refuse) ∧
    ∀ {a}, alloc s.calls = some a → ∃ s', (new R alloc).finish s = .ok (a, ⟨R, a⟩) s' ∧
      (∀ {u : VAddr}, u.slot 3 ≠ ⟨R.toNat, hR⟩ →
        walk s'.store (.page a) u = walk s.store .own u) ∧
      (∃ t, s'.store (.page a) = some t ∧
        (NodeEntry.mk (t ⟨R.toNat, hR⟩)).is_present = true ∧
        (t ⟨R.toNat, hR⟩).getLsbD 1 = true ∧ pageSize (t ⟨R.toNat, hR⟩) = false ∧
        (NodeEntry.mk (t ⟨R.toNat, hR⟩)).child_addr = a) ∧
      (∀ {l i}, Refers s'.store (.page a) l i a ↔ l = .page a ∧ i = ⟨R.toNat, hR⟩) ∧
      ∀ {u ws x}, u.slot 3 ≠ ⟨R.toNat, hR⟩ → walk s'.store (.page a) u = some (ws, x) →
        ws.length = 3 ∧ ∃ c ∈ calls, x = (leafEntry c.p_addr c.flags).bits := by
  intro s
  have hs : Intact alloc .own ⟨R.toNat, hR⟩ 0 s := intact_run halloc hR calls
  obtain ⟨t, ht⟩ := hs.table.exists_root
  refine ⟨⟨t, ht, ?_⟩, finish_of_none, fun {a} ha ↦ ?_⟩
  · rw [hs.table.slot ht]
    rfl
  · have hok := finish_of_some hR hs ha
    obtain ⟨-, -, -, hself, -, hwalk⟩ := finish_spec hR hs hok
    refine ⟨_, hok, hwalk, ⟨_, finished_page ht a, ?_⟩,
      refers_finished_iff hR hs (owned_run halloc hR calls) ha, fun hu hw ↦ ?_⟩
    · rw [Function.update_self, NodeEntry.is_present_eq]
      exact ⟨hself.present, (supervisorLink_new a).1, hself.node, Loc.page.inj hself.next⟩
    · rw [hwalk hu] at hw
      exact exists_call_of_walk halloc hR calls hu hw

/-- A builder finished after a call and a refused one. -/
theorem finish_references_second_page :
    let builder := new 510 (firstPages 8)
    let calls : List Call := [⟨⟨0x9000⟩, ⟨0x400000⟩, VFlags.WRITABLE⟩,
      ⟨⟨0xa000⟩, ⟨0x400000⟩, VFlags.empty⟩, ⟨⟨0xb000⟩, ⟨0xffffff0000000000⟩, VFlags.empty⟩]
    let s := builder.run calls
    ∃ s', builder.finish s = .ok (⟨0x4000⟩, ⟨510, ⟨0x4000⟩⟩) s' ∧
      (∀ {u : VAddr}, u.slot 3 ≠ 510 → walk s'.store (.page ⟨0x4000⟩) u = walk s.store .own u) ∧
      (∃ t, s'.store (.page ⟨0x4000⟩) = some t ∧ (NodeEntry.mk (t 510)).is_present = true ∧
        (t 510).getLsbD 1 = true ∧ pageSize (t 510) = false ∧
        (NodeEntry.mk (t 510)).child_addr = ⟨0x4000⟩) ∧
      (∀ {l i}, Refers s'.store (.page ⟨0x4000⟩) l i ⟨0x4000⟩ ↔ l = .page ⟨0x4000⟩ ∧ i = 510) ∧
      ∀ {u ws x}, u.slot 3 ≠ 510 → walk s'.store (.page ⟨0x4000⟩) u = some (ws, x) →
        ws.length = 3 ∧ ∃ c ∈ calls, x = (leafEntry c.p_addr c.flags).bits :=
  have halloc : Documented (firstPages 8) := documented_firstPages (by omega)
  (finish_references halloc (by decide) _).2.2 (by decide +kernel)

end VirtualMapBuilder

end Elpytios
