import Elpytios.Paging.Disjoint
import Elpytios.Paging.Errors

/-!
# Calls that race for a slot

The safety contract of `VirtualMap::map` forbids concurrent calls for one page only.  But
an entry above the page tables belongs to many pages.  Two calls that both find such an
entry absent both link a page table of their own, and the second link takes the page that
the first call mapped out of the tables (`exists_race`).

So nothing is lost under every schedule exactly if no such entry is absent at the start
(`harmlessExactly_of_lawful`), given that there are page tables enough for both calls.
-/

namespace Elpytios

open Radix

section

variable {T Ref : Type} [VirtualMapper T Ref] {mapper : T} {root : Loc} {R : Fin 512} {e : Word}
  {alloc : NewPageTable} {c c₁ c₂ : Call} {s s' : Tables}

/-! ## Letting one call run -/

theorem interleave_append (schedule₁ schedule₂ : List Bool) (conf : Conf Ref) :
    interleave mapper alloc c₁ c₂ (schedule₁ ++ schedule₂) conf =
      interleave mapper alloc c₁ c₂ schedule₂ (interleave mapper alloc c₁ c₂ schedule₁ conf) :=
  List.foldl_append

theorem interleave_left (n : ℕ) (conf : Conf Ref) :
    interleave mapper alloc c₁ c₂ (List.replicate n true) conf =
      { conf with
        left := ((Thread.advance mapper alloc c₁)^[n] (conf.left, conf.tables)).1
        tables := ((Thread.advance mapper alloc c₁)^[n] (conf.left, conf.tables)).2 } := by
  induction n generalizing conf with
  | zero => rfl
  | succ n ih => exact ih _

theorem interleave_right (n : ℕ) (conf : Conf Ref) :
    interleave mapper alloc c₁ c₂ (List.replicate n false) conf =
      { conf with
        right := ((Thread.advance mapper alloc c₂)^[n] (conf.right, conf.tables)).1
        tables := ((Thread.advance mapper alloc c₂)^[n] (conf.right, conf.tables)).2 } := by
  induction n generalizing conf with
  | zero => rfl
  | succ n ih => exact ih _

theorem advance_returned (c : Call) (n : ℕ) (r : Except Stop Unit) (s : Tables) :
    (Thread.advance mapper alloc c)^[n] ((.returned r : Thread Ref), s) = (.returned r, s) := by
  induction n with
  | zero => rfl
  | succ n ih => exact ih

/-- Steps do not change what a call comes to. -/
theorem complete_of_advance {n : ℕ} {pc pc' : Pc Ref}
    (h : (Thread.advance mapper alloc c)^[n] (.running pc, s) = (.running pc', s')) :
    complete mapper alloc c pc s = complete mapper alloc c pc' s' := by
  induction n generalizing pc s with
  | zero =>
      obtain ⟨hpc, rfl⟩ := Prod.mk.inj h
      cases hpc
      rfl
  | succ n ih =>
      rw [Function.iterate_succ_apply, Thread.advance] at h
      rw [complete_step]
      cases hstep : step mapper alloc c pc s with
      | error err s₁ =>
          rw [hstep, Thread.next, advance_returned] at h
          cases h
      | ok o s₁ =>
          rw [hstep] at h
          cases o with
          | none =>
              rw [Thread.next, advance_returned] at h
              cases h
          | some pc₁ =>
              rw [run_bind_ok hstep]
              exact ih h

/-! ## Two calls at one slot -/

/-- A call that is alone gets to the first free slot on its way without changing anything. -/
theorem advance_to_free (hm : Lawful mapper root R e) (hs : Intact alloc root R e s)
    (hv : c.v_addr.slot 3 ≠ R) {k j : ℕ} (hkj : k + j = 2) {i : Fin 512} {l : Loc}
    (hslot : FreeSlot x86 s.store root (Domain.avoiding R) (c.v_addr.path.take k) i l)
    (hi : i = c.v_addr.slot (j + 1)) :
    ∃ n table, (Thread.advance mapper alloc c)^[n] (.running (.test 3), s) =
        (.running (.request j table i), s) ∧
      Reaches mapper root R e (c.v_addr.path.take k) l table := by
  have hdown : ∀ m ≤ k, (Thread.advance mapper alloc c)^[m] (.running (.test 3), s) =
      (.running (.test (3 - m)), s) := by
    intro m hmk
    induction m with
    | zero => rfl
    | succ m ih =>
        obtain ⟨q, hq⟩ : ∃ q, q + m = 2 := ⟨2 - m, by omega⟩
        have hp : c.v_addr.path.take (m + 1) <+: c.v_addr.path.take k :=
          List.take_prefix_take_left hmk
        obtain ⟨child, hchild⟩ := exists_follow_of_isPrefix hslot.follow hp
        obtain ⟨l', t, hl', ht, hd⟩ := exists_of_follow_take (q + 1) (by omega) hchild
        have hqm : 2 - q = m := by omega
        obtain ⟨table, -, hstep⟩ := step_test_succ hm hs hv (by omega)
          (hqm ▸ hl') ht
        rw [hqm, hd] at hstep
        rw [Function.iterate_succ_apply', ih (by omega), show 3 - m = q + 1 by omega,
          show 3 - (m + 1) = q by omega, Thread.advance, hstep]
        rfl
  obtain ⟨t, ht, he⟩ := hslot.free
  have hjk : 2 - j = k := by omega
  have hlen := c.v_addr.length_take_path (show k ≤ 4 by omega)
  obtain ⟨table, hr, hstep⟩ := step_test_succ hm hs hv (by omega)
    (hjk ▸ hslot.follow) ht
  rw [hjk] at hr hstep
  rw [hlen, hi] at he
  refine ⟨k + 1, table, ?_, hr⟩
  rw [Function.iterate_succ_apply', hdown k le_rfl, show 3 - k = j + 1 by omega, Thread.advance,
    hstep, hi]
  simp only [x86_decode] at he
  rw [he]
  rfl

/-- A call that is about to request a page table for a slot links it there, whatever the slot
holds by now.  The other pages that were mapped through the slot are lost. -/
theorem complete_request (hm : Lawful mapper root R e) (hs : Intact alloc root R e s)
    (hv : c.v_addr.slot 3 ≠ R) {k j : ℕ} (hkj : k + j = 2) {i : Fin 512} {l : Loc} {table : Ref}
    (hl : follow x86 s.store 0 root (c.v_addr.path.take k) = some l)
    (hi : i = c.v_addr.slot (j + 1))
    (hr : Reaches mapper root R e (c.v_addr.path.take k) l table)
    (hgrant : ∀ n, s.calls ≤ n → n < s.calls + 3 → alloc n ≠ none) :
    ∃ s', complete mapper alloc c (.request j table i) s = .ok () s' ∧
      ∀ u : VAddr, c.v_addr.path.take (k + 1) <+: u.path → u.pageIndex ≠ c.v_addr.pageIndex →
        walk s'.store root u = none := by
  have hlen := c.v_addr.length_take_path (show k ≤ 4 by omega)
  have hsnoc : c.v_addr.path.take (k + 1) = c.v_addr.path.take k ++ [i] := by
    rw [hi]; exact c.v_addr.take_path (by omega)
  have hπi : c.v_addr.path.take k ++ [i] ∈ Domain.avoiding R := hsnoc ▸ take_mem_avoiding hv _
  have hπ := (Domain.avoiding R).mem_of_snoc hπi
  have hb : (c.v_addr.path.take k).length < 3 := by omega
  obtain ⟨t, ht⟩ := hs.table.tree.exists_table hπ hl
  obtain ⟨a, ha⟩ := Option.ne_none_iff_exists'.mp (hgrant s.calls le_rfl (by omega))
  have hlink : x86.decode (c.v_addr.path.take k).length (x86.link (.page a)) = .node (.page a) :=
    x86.decode_link _ hb (.page a) (hs.fresh ha).2
  have hs₁ := hs.link hπi hb hl ha
  have hchild : follow x86 (s.link x86 l i (.page a)).store 0 root (c.v_addr.path.take (k + 1)) =
      some (.page a) := by
    rw [hsnoc]
    exact follow_attach_snoc hs.table.tree hπ hl (hs.unreached ha) hlink
  have hD : ∀ {u : VAddr}, c.v_addr.path.take (k + 1) <+: u.path → u.path ∈ Domain.avoiding R :=
    fun hu ↦ path_mem_avoiding.mpr (VAddr.slot_eq_of_isPrefix hu ▸ hv)
  -- nothing is found through the slot that was linked just now
  have hnone : ∀ {u : VAddr}, c.v_addr.path.take (k + 1) <+: u.path →
      lookup x86 ((s.link x86 l i (.page a)).table x86 root) [] u.path = none := fun hu ↦
    lookup_attach_of_isPrefix hs.table.tree hπ hl (hs.unreached ha) hlink (hD hu)
      (hsnoc ▸ hu)
  have hmissing : missing x86 (s.link x86 l i (.page a)).store root c.v_addr.path < 3 :=
    missing_lt (Nat.succ_pos k) (show k + 1 ≤ 3 by omega) hchild
  obtain ⟨s', hrest, hins⟩ := mapFrom_of_free (p := c.p_addr) (f := c.flags) hm hs₁ hv
    (show k + 1 + j = 3 by omega) hchild (hnone (List.take_prefix _ _)) fun n hn hn' ↦ by
      rw [State.calls_link] at hn hn'
      exact hgrant n (by omega) (by omega)
  refine ⟨s', ?_, fun u hu hne ↦ ?_⟩
  · have hcut : complete mapper alloc c (.request j table i) =
        (newPageTable alloc >>= fun a ↦
          writeEntry mapper table i (NodeEntry.new Entry.WRITABLE a).bits) >>= fun _ ↦
            mapFrom mapper alloc c.p_addr c.v_addr c.flags j := by
      rw [complete, bind_assoc]
    rw [hcut, run_bind_ok (link_eq hs hl ht hr ha hπ i)]
    exact hrest
  · rw [walk_eq_lookup, hins.lookup_of_not_isPrefix hs₁.good (hD hu), hnone hu]
    exact fun hp ↦ hne (VAddr.path_eq_iff.mp (VAddr.path_eq_of_isPrefix hp)).symm

/-- Two calls that find the same slot free above the page tables can both return `Ok` and
leave the page of the first unmapped. -/
theorem exists_race (hm : Lawful mapper root R e) (hs : Intact alloc root R e s)
    (hv₁ : c₁.v_addr.slot 3 ≠ R) (hv₂ : c₂.v_addr.slot 3 ≠ R)
    (hne : c₁.v_addr.pageIndex ≠ c₂.v_addr.pageIndex)
    (hshared : SharedFree s.store root R c₁.v_addr c₂.v_addr)
    (hgrant : ∀ n, s.calls ≤ n → n < s.calls + 6 → alloc n ≠ none) :
    ∃ schedule, let conf := interleave mapper alloc c₁ c₂ schedule (.start mapper c₁ c₂ s)
      conf.left = .returned (.ok ()) ∧ conf.right = .returned (.ok ()) ∧
        walk conf.tables.store root c₁.v_addr = none := by
  obtain ⟨π, i, l, hlt, h₁, h₂, hslot⟩ := hshared
  obtain ⟨j, hkj⟩ : ∃ j, π.length + j = 2 := ⟨2 - π.length, by omega⟩
  -- the slot is the same one on both ways
  have hat : ∀ {v : VAddr}, π ++ [i] <+: v.path →
      v.path.take π.length = π ∧ i = v.slot (j + 1) := by
    intro v hp
    have htake := List.prefix_iff_eq_take.mp hp
    rw [List.length_append, List.length_singleton, v.take_path (j := j + 1) (by omega)] at htake
    obtain ⟨hπ, hi⟩ := List.append_inj' htake rfl
    exact ⟨hπ.symm, by simpa using hi⟩
  obtain ⟨hπ₁, hi₁⟩ := hat h₁
  obtain ⟨hπ₂, hi₂⟩ := hat h₂
  -- both calls find it free
  obtain ⟨n₁, table₁, hdown₁, hr₁⟩ := advance_to_free hm hs hv₁ hkj (hπ₁ ▸ hslot) hi₁
  obtain ⟨n₂, table₂, hdown₂, hr₂⟩ := advance_to_free hm hs hv₂ hkj (hπ₂ ▸ hslot) hi₂
  -- the first call goes on to the end
  obtain ⟨s₁, hmap, hins⟩ := mapFrom_of_free (p := c₁.p_addr) (f := c₁.flags) (j := 3) hm hs hv₁
    rfl (follow_nil 0 root) (hslot.lookup_eq_none h₁) fun n hn hn' ↦
      hgrant n hn (hn'.trans_le (Nat.add_le_add_left
        ((missing_le x86 s.store root c₁.v_addr.path).trans (by decide)) _))
  have hs₁ := hs.inserted hins
  obtain ⟨m₁, hrun₁⟩ := alone_eq_complete mapper alloc c₁ (.request j table₁ i) s
  rw [← complete_of_advance hdown₁, show complete mapper alloc c₁ (.test 3) s = .ok () s₁ from hmap]
    at hrun₁
  -- and then the second
  have hcalls := hins.calls_of_ok hs.good (bottom_lt_path _)
  have hle : missing x86 s.store root c₁.v_addr.path ≤ 3 := missing_le _ _ _ _
  have hl₁ : follow x86 s₁.store 0 root (c₂.v_addr.path.take π.length) = some l := by
    rw [hπ₂]
    exact hins.follow_eq hs.good ((Domain.avoiding R).mem_of_snoc hslot.mem) hslot.follow
  obtain ⟨s₂, hmap₂, hlost⟩ := complete_request hm hs₁ hv₂ hkj hl₁ hi₂ hr₂ fun n hn hn' ↦
    hgrant n (by omega) (by omega)
  obtain ⟨m₂, hrun₂⟩ := alone_eq_complete mapper alloc c₂ (.request j table₂ i) s₁
  rw [hmap₂] at hrun₂
  refine ⟨.replicate n₁ true ++ .replicate n₂ false ++ .replicate m₁ true ++ .replicate m₂ false,
    ?_⟩
  simp only [interleave_append, interleave_left, interleave_right, Conf.start, thread_start hm hv₁,
    thread_start hm hv₂, hdown₁, hdown₂, hrun₁, hrun₂, answer_ok, after_ok]
  refine ⟨trivial, trivial, hlost _ ?_ hne⟩
  rw [c₂.v_addr.take_path (j := j + 1) (by omega), hπ₂, ← hi₂]
  exact h₁

/-- Nothing is lost under any schedule exactly if the calls share no free slot above the page
tables.  For the one direction there must be page tables for both calls. -/
def HarmlessExactly (mapper : T) (alloc : NewPageTable) (root : Loc) (R : Fin 512)
    (c₁ c₂ : Call) (s : Tables) : Prop :=
  (¬ SharedFree s.store root R c₁.v_addr c₂.v_addr → Harmless mapper alloc root c₁ c₂ s) ∧
    ((∀ n, s.calls ≤ n → n < s.calls + 6 → alloc n ≠ none) →
      Harmless mapper alloc root c₁ c₂ s → ¬ SharedFree s.store root R c₁.v_addr c₂.v_addr)

theorem harmlessExactly_of_lawful (hm : Lawful mapper root R e) (hs : Intact alloc root R e s)
    (hv₁ : c₁.v_addr.slot 3 ≠ R) (hv₂ : c₂.v_addr.slot 3 ≠ R)
    (hne : c₁.v_addr.pageIndex ≠ c₂.v_addr.pageIndex) :
    HarmlessExactly mapper alloc root R c₁ c₂ s := by
  refine ⟨fun hshared ↦ harmless_of_disjoint hm hs ⟨hv₁, hv₂, hne, hshared⟩,
    fun hgrant hharmless hshared ↦ ?_⟩
  obtain ⟨schedule, hleft, hright, hlost⟩ := exists_race hm hs hv₁ hv₂ hne hshared hgrant
  have hframe := (hharmless schedule hleft hright).left
  rw [frameOf, hlost] at hframe
  cases hframe

end

/-- Two calls for different pages, neither of them reserved, with both mappers: nothing is
lost under any schedule exactly if no slot above the page tables that is on the way to both
pages is free at the start. -/
theorem interleaved_maps {alloc : NewPageTable} {R : Fin 512} {e : Word} {s : Tables} {c₁ c₂ : Call}
    (hv₁ : c₁.v_addr.slot 3 ≠ R) (hv₂ : c₂.v_addr.slot 3 ≠ R)
    (hne : c₁.v_addr.pageIndex ≠ c₂.v_addr.pageIndex) :
    (∀ self : LocalMapper, self.recursion_index.toNat = R → Intact alloc self.table R e s →
      HarmlessExactly self alloc self.table R c₁ c₂ s) ∧
    ∀ self : RecursiveMapper, self.recursion_index.toNat = R →
      RecursiveMapper.SelfLink self.cr3 e → Intact alloc (.page self.cr3) R e s →
      HarmlessExactly self alloc (.page self.cr3) R c₁ c₂ s := by
  constructor
  · intro self hR hs
    exact harmlessExactly_of_lawful (self.lawful hR) hs hv₁ hv₂ hne
  · intro self hR hself hs
    exact harmlessExactly_of_lawful (self.lawful hself hR) hs hv₁ hv₂ hne

/-- Pages below different entries of the PML4 share no slot at all. -/
theorem not_sharedFree_of_slot_ne {mem : Memory} {root : Loc} {R : Fin 512} {v₁ v₂ : VAddr}
    (h : v₁.slot 3 ≠ v₂.slot 3) : ¬ SharedFree mem root R v₁ v₂ := by
  rintro ⟨π, i, l, -, h₁, h₂, -⟩
  obtain ⟨x, ρ, hx⟩ := List.exists_cons_of_ne_nil (show π ++ [i] ≠ [] by simp)
  rw [hx, VAddr.path, List.cons_prefix_cons] at h₁ h₂
  exact h (h₁.1.symm.trans h₂.1)

/-- Two such pages on empty tables, with both mappers. -/
theorem interleaved_maps_apart :
    let c₁ : Call := ⟨⟨0x5000⟩, ⟨0x400000⟩, VFlags.WRITABLE⟩
    let c₂ : Call := ⟨⟨0x6000⟩, ⟨0x8000400000⟩, VFlags.WRITABLE⟩
    Harmless (LocalMapper.mk .own 510) (firstPages 8) .own c₁ c₂ VirtualMapBuilder.tables ∧
      Harmless (RecursiveMapper.mk 510 ⟨0x1000⟩) (firstPages 8) (.page ⟨0x1000⟩) c₁ c₂
        (VirtualMapBuilder.finished VirtualMapBuilder.tables 510 ⟨0x1000⟩) :=
  have hlocal := (interleaved_maps (R := 510) (by decide) (by decide) (by decide)).1
    (LocalMapper.mk .own 510) rfl (intact_tables (documented_firstPages (by omega)) 510)
  have hloaded := (interleaved_maps (R := 510) (by decide) (by decide) (by decide)).2
    (RecursiveMapper.mk 510 ⟨0x1000⟩) rfl (.of_new (by decide))
    (intact_finished (by omega) (by omega))
  ⟨hlocal.1 (not_sharedFree_of_slot_ne (by decide)),
    hloaded.1 (not_sharedFree_of_slot_ne (by decide))⟩

/-- Two pages of one page table, on empty tables.  Both calls find the entry of the PML4
absent; then the first runs to its end, and then the second. -/
theorem interleaved_maps_lose_page :
    let m : RecursiveMapper := ⟨510, ⟨0x1000⟩⟩
    let s := VirtualMapBuilder.finished VirtualMapBuilder.tables 510 ⟨0x1000⟩
    let c₁ : Call := ⟨⟨0x5000⟩, ⟨0x400000⟩, VFlags.WRITABLE⟩
    let c₂ : Call := ⟨⟨0x6000⟩, ⟨0x401000⟩, VFlags.WRITABLE⟩
    let schedule := [true, false] ++ .replicate 11 true ++ .replicate 11 false
    let conf := interleave m (firstPages 8) c₁ c₂ schedule (.start m c₁ c₂ s)
    Intact (firstPages 8) (.page ⟨0x1000⟩) 510 (NodeEntry.new Entry.WRITABLE ⟨0x1000⟩).bits s ∧
      RecursiveMapper.SelfLink ⟨0x1000⟩ (NodeEntry.new Entry.WRITABLE ⟨0x1000⟩).bits ∧
      c₁.v_addr.pageIndex ≠ c₂.v_addr.pageIndex ∧ m.reserved c₁.v_addr = false ∧
      m.reserved c₂.v_addr = false ∧
      conf.left = .returned (.ok ()) ∧ conf.right = .returned (.ok ()) ∧
      frameOf conf.tables.store (.page ⟨0x1000⟩) c₁.v_addr = none ∧
      frameOf conf.tables.store (.page ⟨0x1000⟩) c₂.v_addr = some ⟨0x6000⟩ := by
  intro m s c₁ c₂ schedule conf
  have hleft : conf.left = .returned (.ok ()) := by decide +kernel
  have hright : conf.right = .returned (.ok ()) := by decide +kernel
  have hlost : frameOf conf.tables.store (.page ⟨0x1000⟩) c₁.v_addr = none := by decide +kernel
  have hkept : frameOf conf.tables.store (.page ⟨0x1000⟩) c₂.v_addr = some ⟨0x6000⟩ := by
    decide +kernel
  exact ⟨intact_finished (by omega) (by omega), .of_new (by decide), by decide, by decide,
    by decide, hleft, hright, hlost, hkept⟩

end Elpytios
