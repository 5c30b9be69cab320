import Elpytios.Paging.Map

/-!
# Runs of `VirtualMap::map`

What a call of `map`, and a sequence of calls, does to the walks of the processor: a
successful call maps its own page and changes no other walk, a failed one changes none,
and what is mapped stays mapped.

All of it holds for any lawful mapper, and for the addresses outside slot `R`.  The walks
through slot `R` find nothing as long as the slot is free (`TableTree.walk_of_free`).
-/

namespace Elpytios

open Radix

variable {T Ref : Type} [VirtualMapper T Ref] {mapper : T} {root : Loc} {R : Fin 512} {e : Word}
  {alloc : NewPageTable} {s s' : Tables} {p : PAddr} {v u : VAddr} {f : VFlags}

/-! ## Leaf entries -/

/-- An entry of a PT gives the rights asked for. -/
structure Grants (x : Word) (f : VFlags) : Prop where
  writable : x.getLsbD 1 = f.contains VFlags.WRITABLE
  user_mode : x.getLsbD 2 = f.contains VFlags.USER_MODE
  write_through : x.getLsbD 3 = f.contains VFlags.WRITE_THROUGH
  cache_disabled : x.getLsbD 4 = f.contains VFlags.CACHE_DISABLED
  accessed : x.getLsbD 5 = f.contains VFlags.ACCESSED
  global : x.getLsbD 8 = f.contains VFlags.GLOBAL

theorem leafBase_leafEntry (p : PAddr) (f : VFlags) :
    leafBase 3 (leafEntry p f).bits = p.frame := by
  refine PAddr.ext (BitVec.eq_of_getLsbD_eq fun i _ ↦ ?_)
  change ((leafEntry p f).bits &&& NodeEntry.ADDRESS_MASK).getLsbD i =
    (p.addr &&& NodeEntry.ADDRESS_MASK).getLsbD i
  rw [BitVec.getLsbD_and, BitVec.getLsbD_and, getLsbD_ADDRESS_MASK, getLsbD_leafEntry]
  by_cases h : 12 ≤ i ∧ i < 52
  · rw [if_pos h]
  · have hmask : (decide (12 ≤ i) && decide (i < 52)) = false := by simpa using h
    rw [hmask, Bool.and_false, Bool.and_false]

theorem grants_leafEntry (p : PAddr) (f : VFlags) : Grants (leafEntry p f).bits f := by
  have hbit : ∀ i, 1 ≤ i → i < 6 → (leafEntry p f).bits.getLsbD i = f.bits.getLsbD (i - 1) := by
    intro i hi hi'
    have hmask : (31 : Word).getLsbD (i - 1) = true := by
      obtain rfl | rfl | rfl | rfl | rfl : i = 1 ∨ i = 2 ∨ i = 3 ∨ i = 4 ∨ i = 5 := by omega
      all_goals rfl
    rw [getLsbD_leafEntry, if_neg (by omega), Entry.bits_ofVFlags, BitVec.getLsbD_shiftLeft,
      BitVec.getLsbD_and, hmask]
    simp [show ¬ i = 0 by omega, show ¬ i = 8 by omega, show i < 64 by omega]
  refine ⟨?_, ?_, ?_, ?_, ?_, ?_⟩
  · rw [VFlags.contains_WRITABLE, hbit 1 (by decide) (by decide)]
  · rw [VFlags.contains_USER_MODE, hbit 2 (by decide) (by decide)]
  · rw [VFlags.contains_WRITE_THROUGH, hbit 3 (by decide) (by decide)]
  · rw [VFlags.contains_CACHE_DISABLED, hbit 4 (by decide) (by decide)]
  · rw [VFlags.contains_ACCESSED, hbit 5 (by decide) (by decide)]
  · have hmask : (31 : Word).getLsbD 7 = false := rfl
    rw [VFlags.contains_GLOBAL, getLsbD_leafEntry, if_neg (by decide), Entry.bits_ofVFlags,
      BitVec.getLsbD_shiftLeft, BitVec.getLsbD_and, hmask]
    simp

/-! ## One call -/

theorem bottom_lt_path (v : VAddr) : x86.bottom < v.path.length := Nat.lt_succ_self 3

/-- A call that returns `Ok` was an insertion with a result. -/
theorem inserted_of_ok (hm : Lawful mapper root R e) (hs : Intact alloc root R e s)
    (h : VirtualMap.map mapper alloc p v f s = .ok () s') :
    v.slot 3 ≠ R ∧ Inserted x86 (supply alloc) root (Domain.avoiding R) (leafEntry p f).bits
      v.path s (.ok ()) s' := by
  by_cases hv : v.slot 3 = R
  · rw [map_of_reserved hm hv] at h
    cases h
  · obtain ⟨o, s₁, hmap, hins⟩ := map_spec hm hs hv p f
    rw [hmap] at h
    cases o with
    | error r => cases h
    | ok =>
        cases h
        exact ⟨hv, hins⟩

/-- Whatever the outcome, a call is an insertion or does nothing at all. -/
theorem after_map (hm : Lawful mapper root R e) (hs : Intact alloc root R e s)
    (p : PAddr) (v : VAddr) (f : VFlags) :
    after (VirtualMap.map mapper alloc p v f s) = s ∨
      v.slot 3 ≠ R ∧ ∃ o, Inserted x86 (supply alloc) root (Domain.avoiding R) (leafEntry p f).bits
        v.path s o (after (VirtualMap.map mapper alloc p v f s)) := by
  by_cases hv : v.slot 3 = R
  · rw [map_of_reserved hm hv]
    exact Or.inl rfl
  · obtain ⟨o, s₁, hmap, hins⟩ := map_spec hm hs hv p f
    rw [hmap, after_outcome]
    exact Or.inr ⟨hv, o, hins⟩

theorem Intact.map (hm : Lawful mapper root R e) (hs : Intact alloc root R e s)
    (p : PAddr) (v : VAddr) (f : VFlags) :
    Intact alloc root R e (after (VirtualMap.map mapper alloc p v f s)) := by
  rcases after_map hm hs p v f with h | ⟨-, o, hins⟩
  · rwa [h]
  · exact hs.inserted hins

/-- Walks through a slot of the PML4 that is free find nothing. -/
theorem TableTree.walk_of_free {mem : Memory} (h : TableTree mem root R e)
    (he : present e = false) (hu : u.slot 3 = R) : walk mem root u = none := by
  obtain ⟨t, ht⟩ := h.exists_root
  rw [walk, ht, Option.bind_some, hu, h.slot ht]
  simp [he]

/-- A successful call was for a page that was not mapped, and maps it. -/
theorem walk_of_ok (hm : Lawful mapper root R e) (hs : Intact alloc root R e s)
    (h : VirtualMap.map mapper alloc p v f s = .ok () s') :
    walk s.store root v = none ∧
      ∃ ws, walk s'.store root v = some (ws, (leafEntry p f).bits) ∧ ws.length = 3 := by
  obtain ⟨-, hins⟩ := inserted_of_ok hm hs h
  simp only [walk_eq_lookup]
  refine ⟨?_, hins.lookup_self hs.good (decode_leafEntry p f)⟩
  cases hins with
  | ok hfree _ _ => exact hfree

/-- A successful call changes no other walk. -/
theorem walk_of_ne (hm : Lawful mapper root R e) (hs : Intact alloc root R e s)
    (h : VirtualMap.map mapper alloc p v f s = .ok () s') (hu : u.slot 3 ≠ R)
    (hne : u.pageIndex ≠ v.pageIndex) : walk s'.store root u = walk s.store root u := by
  obtain ⟨-, hins⟩ := inserted_of_ok hm hs h
  rw [walk_eq_lookup, walk_eq_lookup]
  refine hins.lookup_of_not_isPrefix hs.good (path_mem_avoiding.mpr hu) fun hp ↦ hne ?_
  exact (VAddr.path_eq_iff.mp (VAddr.path_eq_of_isPrefix hp)).symm

/-- What is mapped stays mapped, whatever a call does. -/
theorem walk_of_some (hm : Lawful mapper root R e) (hs : Intact alloc root R e s)
    (p : PAddr) (v : VAddr) (f : VFlags) (hu : u.slot 3 ≠ R) {w : Walk}
    (hw : walk s.store root u = some w) :
    walk (after (VirtualMap.map mapper alloc p v f s)).store root u = some w := by
  rcases after_map hm hs p v f with h | ⟨-, o, hins⟩
  · rwa [h]
  · rw [walk_eq_lookup] at hw ⊢
    exact hins.lookup_of_some hs.good (path_mem_avoiding.mpr hu) rfl hw

/-! ## Sequences of calls -/

section

variable (hm : Lawful mapper root R e) (hs : Intact alloc root R e s) (calls : List Call)

include hm hs

theorem Intact.mapAll : Intact alloc root R e (mapAll mapper alloc calls s) := by
  induction calls generalizing s with
  | nil => exact hs
  | cons c calls ih => exact ih (hs.map hm c.p_addr c.v_addr c.flags)

theorem walk_mapAll_of_some (hu : u.slot 3 ≠ R) {w : Walk} (hw : walk s.store root u = some w) :
    walk (mapAll mapper alloc calls s).store root u = some w := by
  induction calls generalizing s with
  | nil => exact hw
  | cons c calls ih =>
      exact ih (hs.map hm c.p_addr c.v_addr c.flags)
        (walk_of_some hm hs c.p_addr c.v_addr c.flags hu hw)

end

/-- What every call does or fails to do, all of them do. -/
theorem mapAll_induction {I : Tables → Prop} (hm : Lawful mapper root R e)
    (hs : Intact alloc root R e s) (calls : List Call) (h : I s)
    (hstep : ∀ {s s' : Tables} {c o}, c ∈ calls → Intact alloc root R e s → I s →
      Inserted x86 (supply alloc) root (Domain.avoiding R) (leafEntry c.p_addr c.flags).bits
        c.v_addr.path s o s' → I s') :
    I (mapAll mapper alloc calls s) := by
  induction calls generalizing s with
  | nil => exact h
  | cons c calls ih =>
      have hnext : I (after (VirtualMap.map mapper alloc c.p_addr c.v_addr c.flags s)) := by
        rcases after_map hm hs c.p_addr c.v_addr c.flags with hnone | ⟨-, o, hins⟩
        · rwa [hnone]
        · exact hstep List.mem_cons_self hs h hins
      exact ih (hs.map hm c.p_addr c.v_addr c.flags) hnext fun hc ↦
        hstep (List.mem_cons_of_mem _ hc)

/-- The links of a tree keep a property that all links written by `map` have. -/
theorem links_mapAll {P : Word → Prop} (hm : Lawful mapper root R e)
    (hs : Intact alloc root R e s) (calls : List Call)
    (hP : ∀ a, P (NodeEntry.new Entry.WRITABLE a).bits)
    (hlinks : Links x86 s.store root (Domain.avoiding R) P) :
    Links x86 (mapAll mapper alloc calls s).store root (Domain.avoiding R) P := by
  refine mapAll_induction (I := fun s ↦ Links x86 s.store root (Domain.avoiding R) P) hm hs calls
    hlinks fun _ hs hlinks hins ↦ hins.links hs.good (fun l hl ↦ ?_) hlinks
  cases l with
  | own => exact hl.elim
  | page a => exact hP a

/-- The leaves of a tree keep a property that the entries asked for have. -/
theorem leaves_mapAll {P : ℕ → Word → Prop} (hm : Lawful mapper root R e)
    (hs : Intact alloc root R e s) (calls : List Call)
    (hP : ∀ c ∈ calls, P 3 (leafEntry c.p_addr c.flags).bits)
    (hleaves : Leaves x86 s.store root (Domain.avoiding R) P) :
    Leaves x86 (mapAll mapper alloc calls s).store root (Domain.avoiding R) P :=
  mapAll_induction (I := fun s ↦ Leaves x86 s.store root (Domain.avoiding R) P) hm hs calls
    hleaves fun hc hs hleaves hins ↦ hins.leaves hs.good (hP _ hc) hleaves

end Elpytios
