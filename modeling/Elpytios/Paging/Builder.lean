import Elpytios.Paging.Run

/-!
# What a `VirtualMapBuilder` builds

A builder starts from an empty PML4 and only ever calls `map`, so its tables are a tree
after any sequence of calls (`VirtualMapBuilder.intact_run`).

A successful call gives its page the leaf entry asked for and leaves every other walk
alone.  The rights the processor grants are a different matter: they need the same bit in
all four entries of a walk, and the three upper entries are written without `USER_MODE`.
-/

namespace Elpytios

open Radix

/-- An allocator with the given number of pages, the first at 0x1000. -/
def firstPages (count : ℕ) : NewPageTable := fun n ↦
  if n < count then some ⟨BitVec.ofNat 64 ((n + 1) * PAGE_SIZE)⟩ else none

theorem toNat_of_firstPages {count : ℕ} (h : count < 2 ^ 40) {n : ℕ} {a : PAddr}
    (ha : firstPages count n = some a) : n < count ∧ a.addr.toNat = (n + 1) * PAGE_SIZE := by
  rw [firstPages] at ha
  split_ifs at ha with hn
  obtain rfl := Option.some.inj ha
  refine ⟨hn, ?_⟩
  rw [BitVec.toNat_ofNat, PAGE_SIZE]
  omega

theorem documented_firstPages {count : ℕ} (h : count < 2 ^ 40) : Documented (firstPages count) := by
  constructor
  · intro n a ha
    obtain ⟨hn, haddr⟩ := toNat_of_firstPages h ha
    rw [PAddr.IsPage, haddr, PAGE_SIZE]
    omega
  · intro n m a hn hm
    have h₁ := (toNat_of_firstPages h hn).2
    have h₂ := (toNat_of_firstPages h hm).2
    rw [PAGE_SIZE] at h₁ h₂
    omega

namespace VirtualMapBuilder

/-- The tables of a builder after a sequence of calls. -/
def run (self : VirtualMapBuilder) (calls : List Call) : Tables :=
  mapAll self.map self.new_page_table calls tables

variable {alloc : NewPageTable} {R : Word}

theorem lawful (hR : R.toNat < 512) : Lawful (new R alloc).map .own ⟨R.toNat, hR⟩ 0 :=
  LocalMapper.lawful _ rfl

theorem store_tables {l : Loc} {t : PageTable} (h : tables.store l = some t) :
    l = .own ∧ t = PageTable.zeroed := by
  simp only [tables] at h
  split_ifs at h with hl
  exact ⟨hl, (Option.some.inj h).symm⟩

theorem eq_zeroed_of_tableAt {π : List (Fin 512)} {t : PageTable}
    (h : tableAt x86 tables.store .own π = some t) : t = PageTable.zeroed := by
  obtain ⟨l, -, ht⟩ := Option.bind_eq_some_iff.mp h
  exact (store_tables ht).2

/-- The tables of a builder form a tree after any sequence of calls. -/
theorem intact_run (halloc : Documented alloc) (hR : R.toNat < 512) (calls : List Call) :
    Intact alloc .own ⟨R.toNat, hR⟩ 0 ((new R alloc).run calls) :=
  (intact_tables halloc _).mapAll (lawful hR) calls

theorem run_append (self : VirtualMapBuilder) (calls₁ calls₂ : List Call) :
    self.run (calls₁ ++ calls₂) = mapAll self.map self.new_page_table calls₂ (self.run calls₁) :=
  List.foldl_append

theorem run_snoc (self : VirtualMapBuilder) (calls : List Call) (c : Call) :
    self.run (calls ++ [c]) = after (self.mapPage c.p_addr c.v_addr c.flags (self.run calls)) :=
  List.foldl_append

/-- The walk of an address the builder keeps for the recursive slot finds nothing. -/
theorem walk_run_of_reserved (halloc : Documented alloc) (hR : R.toNat < 512) (calls : List Call)
    {u : VAddr} (hu : (u.slot 3 : ℕ) = R.toNat) :
    walk ((new R alloc).run calls).store .own u = none :=
  (intact_run halloc hR calls).table.walk_of_free (by simp [present]) (Fin.ext hu)

/-- After any sequence of calls, a call that returns `Ok` maps its page as asked and
changes no walk of another page. -/
theorem map_exact (halloc : Documented alloc) (hR : R.toNat < 512) (calls : List Call)
    {p : PAddr} {v : VAddr} {f : VFlags} {s' : Tables}
    (hok : (new R alloc).mapPage p v f ((new R alloc).run calls) = .ok () s') :
    (∃ ws x, walk s'.store .own v = some (ws, x) ∧ ws.length = 3 ∧ present x = true ∧
      leafBase 3 x = p.frame ∧ Grants x f) ∧
    ∀ u, u.pageIndex ≠ v.pageIndex →
      walk s'.store .own u = walk ((new R alloc).run calls).store .own u := by
  have hm : Lawful (new R alloc).map .own ⟨R.toNat, hR⟩ 0 := lawful hR
  have hs := intact_run halloc hR calls
  refine ⟨?_, fun u hne ↦ ?_⟩
  · obtain ⟨-, ws, hw, hlen⟩ := walk_of_ok hm hs hok
    exact ⟨ws, _, hw, hlen, present_leafEntry p f, leafBase_leafEntry p f, grants_leafEntry p f⟩
  · by_cases hu : u.slot 3 = ⟨R.toNat, hR⟩
    · have hs' : s' = (new R alloc).run (calls ++ [⟨p, v, f⟩]) := by
        rw [run_snoc, hok, after_ok]
      rw [hs', walk_run_of_reserved halloc hR _ (Fin.ext_iff.mp hu),
        walk_run_of_reserved halloc hR _ (Fin.ext_iff.mp hu)]
    · exact walk_of_ne hm hs hok hu hne

/-- A page mapped after a call for another page of the same table and one for a reserved
address. -/
theorem map_exact_second_page :
    let builder := new 510 (firstPages 3)
    let s := builder.run [⟨⟨0x5000⟩, ⟨0x400000⟩, VFlags.USER_MODE⟩,
      ⟨⟨0x6000⟩, ⟨0xffffff0000000000⟩, VFlags.empty⟩]
    let s' := after (builder.mapPage ⟨0x7123⟩ ⟨0x401000⟩ VFlags.WRITABLE s)
    (∃ ws x, walk s'.store .own ⟨0x401000⟩ = some (ws, x) ∧ ws.length = 3 ∧ present x = true ∧
      leafBase 3 x = PAddr.frame ⟨0x7123⟩ ∧ Grants x VFlags.WRITABLE) ∧
    ∀ u, u.pageIndex ≠ VAddr.pageIndex ⟨0x401000⟩ →
      walk s'.store .own u = walk s.store .own u :=
  have halloc : Documented (firstPages 3) := documented_firstPages (by omega)
  map_exact halloc (by decide) _ (eq_ok_of_answer (by decide +kernel))

/-! ## The rights the processor grants -/

/-- The processor lets user code use a page if bit 2 is set in all entries of its walk. -/
def UserAccessible (w : Walk) : Prop := ∀ x ∈ w.1 ++ [w.2], x.getLsbD 2 = true

/-- The processor lets a page be written if bit 1 is set in all entries of its walk. -/
def Writable (w : Walk) : Prop := ∀ x ∈ w.1 ++ [w.2], x.getLsbD 1 = true

instance (w : Walk) : Decidable (UserAccessible w) := inferInstanceAs (Decidable (∀ _ ∈ _, _))

instance (w : Walk) : Decidable (Writable w) := inferInstanceAs (Decidable (∀ _ ∈ _, _))

/-- The rights a walk grants are those asked for. -/
def RightsAsRequested (w : Walk) (f : VFlags) : Prop :=
  (UserAccessible w ↔ f.contains VFlags.USER_MODE = true) ∧
    (Writable w ↔ f.contains VFlags.WRITABLE = true)

instance (w : Walk) (f : VFlags) : Decidable (RightsAsRequested w f) :=
  inferInstanceAs (Decidable (_ ∧ _))

/-- An entry that points to a table, as `map` writes it: writable, but not for user code. -/
def SupervisorLink (x : Word) : Prop := x.getLsbD 1 = true ∧ x.getLsbD 2 = false

theorem supervisorLink_new (a : PAddr) : SupervisorLink (NodeEntry.new Entry.WRITABLE a).bits := by
  constructor
  · rw [NodeEntry.getLsbD_new]; rfl
  · rw [NodeEntry.getLsbD_new]; rfl

/-- All links of a builder's tables are written by `map`. -/
theorem links_run (halloc : Documented alloc) (hR : R.toNat < 512) (calls : List Call) :
    Links x86 ((new R alloc).run calls).store .own (Domain.avoiding ⟨R.toNat, hR⟩)
      SupervisorLink := by
  apply links_mapAll (lawful hR) (intact_tables halloc _) calls supervisorLink_new
  intro π i t c _ ht hd
  rw [eq_zeroed_of_tableAt ht, x86_decode, decode_of_not_present (present_zeroed i)] at hd
  cases hd

/-- A page mapped with `f` can be written if `f` says so. -/
theorem writable_iff {ws : List Word} (hws : ∀ x ∈ ws, SupervisorLink x) (p : PAddr)
    (f : VFlags) : Writable (ws, (leafEntry p f).bits) ↔ f.contains VFlags.WRITABLE = true := by
  rw [← (grants_leafEntry p f).writable]
  refine ⟨fun h ↦ h _ (by simp), fun h x hx ↦ ?_⟩
  rcases List.mem_append.mp hx with hx | hx
  · exact (hws x hx).1
  · rwa [List.mem_singleton.mp hx]

/-- Walks through links of that kind and a leaf that was asked for with `f`. -/
theorem rightsAsRequested_iff {ws : List Word} (hne : ws ≠ []) (hws : ∀ x ∈ ws, SupervisorLink x)
    (p : PAddr) (f : VFlags) :
    RightsAsRequested (ws, (leafEntry p f).bits) f ↔ f.contains VFlags.USER_MODE = false := by
  have huser : ¬ UserAccessible (ws, (leafEntry p f).bits) := by
    intro h
    obtain ⟨x, ws', rfl⟩ := List.exists_cons_of_ne_nil hne
    have := h x (by simp)
    rw [(hws x (by simp)).2] at this
    cases this
  rw [RightsAsRequested, iff_true_intro (writable_iff hws p f), and_true, iff_false_left huser,
    Bool.not_eq_true]

/-- In the final tables of a run, a page mapped with `f` has the rights `f` asks for exactly
if `f` does not ask for user access. -/
theorem rights_of_mapped_page (halloc : Documented alloc) (hR : R.toNat < 512)
    (before later : List Call) (c : Call) {s' : Tables}
    (hok : (new R alloc).mapPage c.p_addr c.v_addr c.flags ((new R alloc).run before) = .ok () s') :
    ∃ w, walk ((new R alloc).run (before ++ c :: later)).store .own c.v_addr = some w ∧
      w.1.length = 3 ∧
      (RightsAsRequested w c.flags ↔ c.flags.contains VFlags.USER_MODE = false) := by
  have hm : Lawful (new R alloc).map .own ⟨R.toNat, hR⟩ 0 := lawful hR
  have hs := intact_run halloc hR before
  obtain ⟨hv, -⟩ := inserted_of_ok hm hs hok
  obtain ⟨-, ws, hw, hlen⟩ := walk_of_ok hm hs hok
  have hs' : (new R alloc).run (before ++ [c]) = s' := by rw [run_snoc, hok, after_ok]
  have hsplit : before ++ c :: later = before ++ [c] ++ later := by simp
  have hfinal : walk ((new R alloc).run (before ++ c :: later)).store .own c.v_addr =
      some (ws, (leafEntry c.p_addr c.flags).bits) := by
    rw [hsplit, run_append, hs']
    exact walk_mapAll_of_some hm (hs' ▸ intact_run halloc hR (before ++ [c])) later hv hw
  have hlinks : ∀ x ∈ ws, SupervisorLink x :=
    (links_run halloc hR (before ++ c :: later)).of_lookup (path_mem_avoiding.mpr hv)
      ((walk_eq_lookup _ _ _).symm.trans hfinal)
  have hne : ws ≠ [] := fun hc ↦ by simp [hc] at hlen
  exact ⟨_, hfinal, hlen, rightsAsRequested_iff hne hlinks _ _⟩

/-- A page mapped for user code among supervisor pages. -/
theorem rights_of_mapped_page_user :
    let builder := new 510 (firstPages 3)
    let c : Call := ⟨⟨0x5000⟩, ⟨0x400000⟩, VFlags.USER_MODE⟩
    let later : List Call := [⟨⟨0x6000⟩, ⟨0x401000⟩, VFlags.WRITABLE⟩]
    ∃ w, walk (builder.run ([] ++ c :: later)).store .own c.v_addr = some w ∧
      w.1.length = 3 ∧
      (RightsAsRequested w c.flags ↔ c.flags.contains VFlags.USER_MODE = false) :=
  have halloc : Documented (firstPages 3) := documented_firstPages (by omega)
  rights_of_mapped_page halloc (by decide) [] _ _ (eq_ok_of_answer (by decide +kernel))

/-- The first page mapped for user code cannot be used by user code. -/
theorem user_page_not_accessible :
    let builder := new 510 (firstPages 3)
    let r := builder.mapPage ⟨0x5000⟩ ⟨0x400000⟩ VFlags.USER_MODE (builder.run [])
    Documented (firstPages 3) ∧ answer r = .ok () ∧
      ∃ w, walk (after r).store .own ⟨0x400000⟩ = some w ∧
        VFlags.USER_MODE.contains VFlags.USER_MODE = true ∧ ¬ UserAccessible w := by
  intro builder r
  have hok : answer r = .ok () := by decide +kernel
  have hw : walk (after r).store .own ⟨0x400000⟩ = some ([4099, 8195, 12291], 0x5005) := by
    decide +kernel
  have huser : ¬ UserAccessible ([4099, 8195, 12291], 0x5005) := fun h ↦
    absurd (h 4099 (by simp)) (by decide)
  exact ⟨documented_firstPages (by omega), hok, _, hw, by decide, huser⟩

end VirtualMapBuilder

end Elpytios
