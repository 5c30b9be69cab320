import Elpytios.Paging.Builder

/-!
# Mapping many pages

The bootloader maps whole ranges of pages and panics if a single call of `map` fails.
Such a sequence of calls succeeds exactly if its pages are free and different from each
other (`exists_mapPages_iff`).  A page of a range then leads to its own frame, and no other
walk has changed (`walk_of_covers`, `walk_of_not_covered`).
-/

namespace Elpytios

open Radix

/-- `unwrap_or_else(|e| panic!("{e}"))` on a result, and `unwrap()` on an option. -/
def unwrapOrPanic {α : Type} (x : MapM α) : MapM α := fun s ↦
  match x s with
  | .error (.error _) s' => .error .panic s'
  | r => r

theorem unwrapOrPanic_eq_ok {α : Type} {x : MapM α} {a : α} {s s' : Tables} :
    unwrapOrPanic x s = .ok a s' ↔ x s = .ok a s' := by
  rw [unwrapOrPanic]
  cases x s with
  | ok => rfl
  | error e => cases e <;> simp

@[simp] theorem after_unwrapOrPanic {α : Type} (x : MapM α) (s : Tables) :
    after (unwrapOrPanic x s) = after (x s) := by
  rw [unwrapOrPanic]
  cases x s with
  | ok => rfl
  | error e => cases e <;> rfl

theorem unwrapOrPanic_defined {α : Type} {x : MapM α} {s : Tables}
    (h : answer (x s) ≠ .error .undefined) : answer (unwrapOrPanic x s) ≠ .error .undefined := by
  rw [unwrapOrPanic]
  cases hx : x s with
  | ok => simp
  | error e s' => cases e <;> simp_all

theorem bind_defined {α β : Type} {x : MapM α} {f : α → MapM β} {s : Tables}
    (hx : answer (x s) ≠ .error .undefined)
    (hf : ∀ {a s₁}, x s = .ok a s₁ → answer (f a s₁) ≠ .error .undefined) :
    answer ((x >>= f) s) ≠ .error .undefined := by
  cases h : x s with
  | ok a s₁ =>
      rw [run_bind_ok h]
      exact hf h
  | error e s₁ =>
      rw [h] at hx
      rw [run_bind_error h]
      simpa using hx

theorem after_bind_pure {σ α β : Type} (x : EStateM Stop σ α) (f : α → β) (s : σ) :
    after ((x >>= fun a ↦ pure (f a)) s) = after (x s) := by
  cases hx : x s with
  | ok a s₁ =>
      rw [run_bind_ok hx, after_ok]
      rfl
  | error e s₁ => rw [run_bind_error hx, after_error, after_error]

/-- No page a computation asks for is refused. -/
def Granted {α : Type} (alloc : NewPageTable) (x : MapM α) (s : Tables) : Prop :=
  ∀ n, s.calls ≤ n → n < (after (x s)).calls → alloc n ≠ none

theorem granted_firstPages {α : Type} {count : ℕ} {x : MapM α} {s : Tables}
    (h : (after (x s)).calls ≤ count) : Granted (firstPages count) x s := fun n _ hn ↦ by
  rw [firstPages, if_pos (hn.trans_le h)]
  exact Option.some_ne_none _

theorem Granted.of_bind {α β : Type} {alloc : NewPageTable} {x : MapM α} {f : α → MapM β}
    {s : Tables} (h : Granted alloc (x >>= f) s)
    (hle : ∀ {a s₁}, x s = .ok a s₁ → s₁.calls ≤ (after (f a s₁)).calls) : Granted alloc x s := by
  intro n hn hn'
  refine h n hn (hn'.trans_le ?_)
  cases hx : x s with
  | ok a s₁ =>
      rw [run_bind_ok hx]
      exact hle hx
  | error e s₁ => rw [run_bind_error hx, after_error, after_error]

theorem Granted.right {α β : Type} {alloc : NewPageTable} {x : MapM α} {f : α → MapM β}
    {s s₁ : Tables} {a : α} (h : Granted alloc (x >>= f) s) (hx : x s = .ok a s₁)
    (hle : s.calls ≤ s₁.calls) : Granted alloc (f a) s₁ := fun n hn hn' ↦
  h n (hle.trans hn) (by rwa [run_bind_ok hx])

/-! ## Calls that must succeed -/

/-- Call `map` on each page, and panic at the first error. -/
def mapPages {T Ref : Type} [VirtualMapper T Ref] (mapper : T) (new_page_table : NewPageTable)
    (calls : List Call) : MapM Unit :=
  forM calls fun c ↦
    unwrapOrPanic (VirtualMap.map mapper new_page_table c.p_addr c.v_addr c.flags)

/-- The pages of some calls can be mapped: they are free, and no two of them are the same. -/
structure Mappable (root : Loc) (R : Fin 512) (s : Tables) (calls : List Call) : Prop where
  slot_ne : ∀ c ∈ calls, c.v_addr.slot 3 ≠ R
  free : ∀ c ∈ calls, walk s.store root c.v_addr = none
  distinct : calls.Pairwise fun c d ↦ c.v_addr.pageIndex ≠ d.v_addr.pageIndex

section

variable {T Ref : Type} [VirtualMapper T Ref] {mapper : T} {root : Loc} {R : Fin 512} {e : Word}
  {alloc : NewPageTable} {s s' : Tables} {c : Call} {calls : List Call} {u : VAddr}

@[simp] theorem mapPages_nil : mapPages mapper alloc [] = pure () := rfl

theorem mapPages_cons : mapPages mapper alloc (c :: calls) =
    unwrapOrPanic (VirtualMap.map mapper alloc c.p_addr c.v_addr c.flags) >>= fun _ ↦
      mapPages mapper alloc calls := rfl

theorem mapPages_cons_eq_ok : mapPages mapper alloc (c :: calls) s = .ok () s' ↔
    ∃ s₁, VirtualMap.map mapper alloc c.p_addr c.v_addr c.flags s = .ok () s₁ ∧
      mapPages mapper alloc calls s₁ = .ok () s' := by
  rw [mapPages_cons]
  constructor
  · intro h
    obtain ⟨⟨⟩, s₁, hmap, hrest⟩ := exists_of_run_bind_ok h
    exact ⟨s₁, unwrapOrPanic_eq_ok.mp hmap, hrest⟩
  · rintro ⟨s₁, hmap, hrest⟩
    rw [run_bind_ok (unwrapOrPanic_eq_ok.mpr hmap), hrest]

theorem mapPages_append (calls later : List Call) : mapPages mapper alloc (calls ++ later) =
    mapPages mapper alloc calls >>= fun _ ↦ mapPages mapper alloc later :=
  List.forM_append

variable (hm : Lawful mapper root R e)

include hm

theorem calls_le_map (hs : Intact alloc root R e s) (c : Call) :
    s.calls ≤ (after (VirtualMap.map mapper alloc c.p_addr c.v_addr c.flags s)).calls := by
  rcases after_map hm hs c.p_addr c.v_addr c.flags with h | ⟨-, o, hins⟩
  · rw [h]
  · exact hins.calls_le

theorem Intact.mapPages (hs : Intact alloc root R e s) (calls : List Call) :
    Intact alloc root R e (after (mapPages mapper alloc calls s)) := by
  induction calls generalizing s with
  | nil => exact hs
  | cons c calls ih =>
      have hs₁ := hs.map hm c.p_addr c.v_addr c.flags
      rw [← after_unwrapOrPanic] at hs₁
      rw [mapPages_cons]
      cases hmap : unwrapOrPanic (VirtualMap.map mapper alloc c.p_addr c.v_addr c.flags) s with
      | ok a s₁ =>
          rw [hmap] at hs₁
          rw [run_bind_ok hmap]
          exact ih hs₁
      | error e s₁ =>
          rw [hmap] at hs₁
          rwa [run_bind_error hmap]

theorem calls_le_mapPages (hs : Intact alloc root R e s) (calls : List Call) :
    s.calls ≤ (after (mapPages mapper alloc calls s)).calls := by
  induction calls generalizing s with
  | nil => exact le_rfl
  | cons c calls ih =>
      have hs₁ := hs.map hm c.p_addr c.v_addr c.flags
      have hle := calls_le_map hm hs c
      rw [← after_unwrapOrPanic] at hs₁ hle
      rw [mapPages_cons]
      cases hmap : unwrapOrPanic (VirtualMap.map mapper alloc c.p_addr c.v_addr c.flags) s with
      | ok a s₁ =>
          rw [hmap] at hs₁ hle
          rw [run_bind_ok hmap]
          exact hle.trans (ih hs₁)
      | error e s₁ =>
          rw [hmap] at hle
          rwa [run_bind_error hmap]

/-- A call of `map` is defined. -/
theorem map_defined (hs : Intact alloc root R e s) (c : Call) :
    answer (VirtualMap.map mapper alloc c.p_addr c.v_addr c.flags s) ≠ .error .undefined := by
  by_cases hv : c.v_addr.slot 3 = R
  · rw [map_of_reserved hm hv]
    simp
  · obtain ⟨o, s₁, hmap, -⟩ := map_spec hm hs hv c.p_addr c.flags
    rw [hmap, answer_outcome]
    cases o <;> simp [Except.mapError]

theorem mapPages_defined (hs : Intact alloc root R e s) (calls : List Call) :
    answer (mapPages mapper alloc calls s) ≠ .error .undefined := by
  induction calls generalizing s with
  | nil => simp
  | cons c calls ih =>
      have hs₁ := hs.map hm c.p_addr c.v_addr c.flags
      rw [← after_unwrapOrPanic] at hs₁
      rw [mapPages_cons]
      refine bind_defined (unwrapOrPanic_defined (map_defined hm hs c)) fun hmap ↦ ?_
      rw [hmap] at hs₁
      exact ih hs₁

/-- A call for a free page succeeds if no request of it is refused. -/
theorem exists_map_of_free (hs : Intact alloc root R e s) (hv : c.v_addr.slot 3 ≠ R)
    (hfree : walk s.store root c.v_addr = none)
    (hall : Granted alloc (VirtualMap.map mapper alloc c.p_addr c.v_addr c.flags) s) :
    ∃ s₁, VirtualMap.map mapper alloc c.p_addr c.v_addr c.flags s = .ok () s₁ := by
  obtain ⟨o, s₁, hmap, hins⟩ := map_spec hm hs hv c.p_addr c.flags
  rw [Granted, hmap, after_outcome] at hall
  rw [walk_eq_lookup] at hfree
  cases hins with
  | occupied h => exact absurd (hfree.symm.trans h) (by simp)
  | noTable _ hg _ hr =>
      exact absurd (supply_eq_none.mp hr) (hall _ (GrowAlong.calls_le hg) (Nat.lt_succ_self _))
  | ok => exact ⟨_, hmap⟩

/-- Pages that can be mapped are mapped, if no request is refused. -/
theorem exists_mapPages (hs : Intact alloc root R e s) (h : Mappable root R s calls)
    (hall : Granted alloc (mapPages mapper alloc calls) s) :
    ∃ s', mapPages mapper alloc calls s = .ok () s' := by
  induction calls generalizing s with
  | nil => exact ⟨s, rfl⟩
  | cons c calls ih =>
      have hle := calls_le_map hm hs c
      have hs₁ := hs.map hm c.p_addr c.v_addr c.flags
      have hcall : Granted alloc (VirtualMap.map mapper alloc c.p_addr c.v_addr c.flags) s := by
        have h := hall.of_bind fun {a s₁} hx ↦ by
          have hx' := unwrapOrPanic_eq_ok.mp hx
          rw [hx', after_ok] at hs₁
          exact calls_le_mapPages hm hs₁ calls
        rwa [Granted, after_unwrapOrPanic] at h
      obtain ⟨s₁, hmap⟩ := exists_map_of_free hm hs (h.slot_ne c List.mem_cons_self)
        (h.free c List.mem_cons_self) hcall
      rw [hmap, after_ok] at hs₁ hle
      have hdistinct := List.pairwise_cons.mp h.distinct
      have hrest : Mappable root R s₁ calls := by
        refine ⟨fun d hd ↦ h.slot_ne d (List.mem_cons_of_mem c hd), fun d hd ↦ ?_, hdistinct.2⟩
        rw [walk_of_ne hm hs hmap (h.slot_ne d (List.mem_cons_of_mem c hd))
          (hdistinct.1 d hd).symm]
        exact h.free d (List.mem_cons_of_mem c hd)
      obtain ⟨s', hs'⟩ := ih hs₁ hrest (hall.right (unwrapOrPanic_eq_ok.mpr hmap) hle)
      exact ⟨s', mapPages_cons_eq_ok.mpr ⟨s₁, hmap, hs'⟩⟩

/-- Calls that succeed leave the other walks as they were. -/
theorem walk_mapPages_of_ne (hs : Intact alloc root R e s)
    (h : mapPages mapper alloc calls s = .ok () s') (hu : u.slot 3 ≠ R)
    (hne : ∀ c ∈ calls, u.pageIndex ≠ c.v_addr.pageIndex) :
    walk s'.store root u = walk s.store root u := by
  induction calls generalizing s with
  | nil =>
      obtain rfl : s = s' := by simpa using h
      rfl
  | cons c calls ih =>
      obtain ⟨s₁, hmap, hrest⟩ := mapPages_cons_eq_ok.mp h
      have hs₁ := hs.map hm c.p_addr c.v_addr c.flags
      rw [hmap, after_ok] at hs₁
      rw [ih hs₁ hrest fun d hd ↦ hne d (List.mem_cons_of_mem c hd),
        walk_of_ne hm hs hmap hu (hne c List.mem_cons_self)]

/-- Calls that succeed were for pages that can be mapped, and gave each its leaf entry. -/
theorem mappable_of_ok (hs : Intact alloc root R e s)
    (h : mapPages mapper alloc calls s = .ok () s') :
    Mappable root R s calls ∧ ∀ c ∈ calls, ∃ ws,
      walk s'.store root c.v_addr = some (ws, (leafEntry c.p_addr c.flags).bits) ∧
        ws.length = 3 := by
  induction calls generalizing s with
  | nil => exact ⟨⟨nofun, nofun, List.Pairwise.nil⟩, nofun⟩
  | cons c calls ih =>
      obtain ⟨s₁, hmap, hrest⟩ := mapPages_cons_eq_ok.mp h
      have hs₁ := hs.map hm c.p_addr c.v_addr c.flags
      rw [hmap, after_ok] at hs₁
      obtain ⟨hfree, ws, hw, hlen⟩ := walk_of_ok hm hs hmap
      obtain ⟨hv, -⟩ := inserted_of_ok hm hs hmap
      obtain ⟨hmappable, hwalks⟩ := ih hs₁ hrest
      have hne : ∀ d ∈ calls, c.v_addr.pageIndex ≠ d.v_addr.pageIndex := by
        -- the page of `c` is taken when the other calls are made
        intro d hd hcd
        have hpath : c.v_addr.path = d.v_addr.path := VAddr.path_eq_iff.mpr hcd
        have hfree' := hmappable.free d hd
        rw [walk_eq_lookup, ← hpath, ← walk_eq_lookup, hw] at hfree'
        cases hfree'
      refine ⟨⟨?_, ?_, List.pairwise_cons.mpr ⟨hne, hmappable.distinct⟩⟩, ?_⟩
      · exact List.forall_mem_cons.mpr ⟨hv, hmappable.slot_ne⟩
      · refine List.forall_mem_cons.mpr ⟨hfree, fun d hd ↦ ?_⟩
        rw [← walk_of_ne hm hs hmap (hmappable.slot_ne d hd) (hne d hd).symm]
        exact hmappable.free d hd
      · refine List.forall_mem_cons.mpr ⟨⟨ws, ?_, hlen⟩, hwalks⟩
        rw [walk_mapPages_of_ne hm hs₁ hrest hv hne, hw]

/-- Calls that must succeed do so exactly if their pages can be mapped. -/
theorem exists_mapPages_iff (hs : Intact alloc root R e s)
    (hall : Granted alloc (mapPages mapper alloc calls) s) :
    (∃ s', mapPages mapper alloc calls s = .ok () s') ↔ Mappable root R s calls :=
  ⟨fun ⟨_, h⟩ ↦ (mappable_of_ok hm hs h).1, fun h ↦ exists_mapPages hm hs h hall⟩

omit hm in
/-- Calls that succeed do what a sequence of calls that may fail does. -/
theorem eq_mapAll_of_ok (h : mapPages mapper alloc calls s = .ok () s') :
    s' = mapAll mapper alloc calls s := by
  induction calls generalizing s with
  | nil =>
      obtain rfl : s = s' := by simpa using h
      rfl
  | cons c calls ih =>
      obtain ⟨s₁, hmap, hrest⟩ := mapPages_cons_eq_ok.mp h
      rw [ih hrest, mapAll, mapAll, List.foldl_cons, hmap, after_ok]

end

/-! ## Ranges of pages -/

/-- The number of the page an address is on. -/
def VAddr.pageNumber (v : VAddr) : ℕ := v.addr.toNat / PAGE_SIZE

/-- Pages next to each other, to be mapped to pages next to each other. -/
structure PageRange where
  p_addr : Word
  v_addr : Word
  count : ℕ
  flags : VFlags
deriving DecidableEq, Repr

namespace PageRange

/-- The number of the first page. -/
def first (self : PageRange) : ℕ := self.v_addr.toNat / PAGE_SIZE

/-- The page with the given number is in the range. -/
def Covers (self : PageRange) (n : ℕ) : Prop := self.first ≤ n ∧ n < self.first + self.count

instance (self : PageRange) (n : ℕ) : Decidable (self.Covers n) :=
  inferInstanceAs (Decidable (_ ∧ _))

/-- Two ranges have no page in common. -/
def Disjoint (a b : PageRange) : Prop := ∀ n, a.Covers n → ¬ b.Covers n

/-- The call of `map` for page `i`. -/
def call (self : PageRange) (i : ℕ) : Call where
  p_addr := ⟨self.p_addr + BitVec.ofNat 64 (i * PAGE_SIZE)⟩
  v_addr := ⟨self.v_addr + BitVec.ofNat 64 (i * PAGE_SIZE)⟩
  flags := self.flags

def calls (self : PageRange) : List Call := (List.range self.count).map self.call

/-- The frame the given page is to be mapped to. -/
def frameOf (self : PageRange) (n : ℕ) : PAddr := (self.call (n - self.first)).p_addr.frame

/-- The pages of a range are in the address space and not in slot `R`. -/
structure Usable (R : Fin 512) (range : PageRange) : Prop where
  le : range.first + range.count ≤ 2 ^ 52
  canonical : ∀ u : VAddr, range.Covers u.pageNumber → u.Canonical
  slot_ne : ∀ u : VAddr, range.Covers u.pageNumber → u.slot 3 ≠ R

theorem mem_calls {self : PageRange} {c : Call} :
    c ∈ self.calls ↔ ∃ i < self.count, c = self.call i := by
  simp [calls, eq_comm]

section

variable {self : PageRange} {R : Fin 512} (h : self.Usable R) {i : ℕ} (hi : i < self.count)

include h hi

theorem pageNumber_call : (self.call i).v_addr.pageNumber = self.first + i := by
  have hle := h.le
  have hword : (BitVec.ofNat 64 (i * PAGE_SIZE) : Word).toNat = i * PAGE_SIZE := by
    rw [BitVec.toNat_ofNat, PAGE_SIZE]; exact Nat.mod_eq_of_lt (by omega)
  have hadd : (self.call i).v_addr.addr.toNat = self.v_addr.toNat + i * PAGE_SIZE := by
    rw [call, BitVec.toNat_add, hword]
    rw [first] at hle
    simp only [PAGE_SIZE] at hle ⊢
    exact Nat.mod_eq_of_lt (by omega)
  rw [VAddr.pageNumber, hadd, first]
  simp only [PAGE_SIZE]
  omega

theorem covers_call : self.Covers (self.call i).v_addr.pageNumber := by
  rw [pageNumber_call h hi, Covers]
  omega

end

theorem pageIndex_eq_iff {a b : PageRange} {R : Fin 512} (ha : a.Usable R) (hb : b.Usable R)
    {i j : ℕ} (hi : i < a.count) (hj : j < b.count) :
    (a.call i).v_addr.pageIndex = (b.call j).v_addr.pageIndex ↔ a.first + i = b.first + j := by
  rw [VAddr.pageIndex_eq_iff (ha.canonical _ (covers_call ha hi))
    (hb.canonical _ (covers_call hb hj))]
  exact (pageNumber_call ha hi).congr_left.trans (pageNumber_call hb hj).congr_right

theorem Usable.distinct {self : PageRange} {R : Fin 512} (h : self.Usable R) :
    self.calls.Pairwise fun c d ↦ c.v_addr.pageIndex ≠ d.v_addr.pageIndex := by
  rw [calls, List.pairwise_map]
  refine List.pairwise_lt_range.imp_of_mem fun hi hj hij ↦ ?_
  rw [Ne, pageIndex_eq_iff h h (List.mem_range.mp hi) (List.mem_range.mp hj)]
  omega

/-- The page at `x` is one of the range, and is to be mapped to the page at `p`. -/
def Maps (self : PageRange) (x p : ℕ) : Prop :=
  ∃ i < self.count, x = (self.first + i) * PAGE_SIZE ∧
    p = (self.p_addr.toNat / PAGE_SIZE + i) * PAGE_SIZE

/-- The frames of a range follow each other if the physical addresses fit into an entry. -/
theorem maps_iff {self : PageRange}
    (h : ∀ i < self.count, self.p_addr.toNat + i * PAGE_SIZE < 2 ^ 52) {n p : ℕ} :
    self.Maps (n * PAGE_SIZE) p ↔ self.Covers n ∧ (self.frameOf n).addr.toNat = p := by
  have hframe : ∀ i < self.count, (self.frameOf (self.first + i)).addr.toNat =
      (self.p_addr.toNat / PAGE_SIZE + i) * PAGE_SIZE := by
    intro i hi
    have hlt := h i hi
    have hword : (BitVec.ofNat 64 (i * PAGE_SIZE) : Word).toNat = i * PAGE_SIZE := by
      rw [BitVec.toNat_ofNat]; exact Nat.mod_eq_of_lt (by omega)
    have hadd : (self.call i).p_addr.addr.toNat = self.p_addr.toNat + i * PAGE_SIZE := by
      rw [call, BitVec.toNat_add, hword]; exact Nat.mod_eq_of_lt (by omega)
    rw [frameOf, Nat.add_sub_cancel_left, PAddr.toNat_frame, hadd, Nat.mod_eq_of_lt hlt, PAGE_SIZE]
    omega
  constructor
  · rintro ⟨i, hi, hn, rfl⟩
    obtain rfl := Nat.eq_of_mul_eq_mul_right (by decide) hn
    exact ⟨⟨Nat.le_add_right _ _, Nat.add_lt_add_left hi _⟩, hframe i hi⟩
  · rintro ⟨⟨hle, hlt⟩, rfl⟩
    obtain ⟨i, rfl⟩ := Nat.exists_eq_add_of_le hle
    have hi := Nat.add_lt_add_iff_left.mp hlt
    exact ⟨i, hi, rfl, hframe i hi⟩

end PageRange

section

variable {T Ref : Type} [VirtualMapper T Ref] {mapper : T} {root : Loc} {R : Fin 512} {e : Word}
  {alloc : NewPageTable} {s s' : Tables} {ranges : List PageRange}

/-- Ranges of free pages can be mapped if no two of them have a page in common. -/
theorem mappable_ranges_iff (husable : ∀ r ∈ ranges, r.Usable R) :
    Mappable root R s (ranges.flatMap PageRange.calls) ↔
      (∀ r ∈ ranges, ∀ c ∈ r.calls, walk s.store root c.v_addr = none) ∧
        ranges.Pairwise PageRange.Disjoint := by
  constructor
  · intro h
    refine ⟨fun r hr c hc ↦ h.free c (List.mem_flatMap.mpr ⟨r, hr, hc⟩), ?_⟩
    refine (List.pairwise_flatMap.mp h.distinct).2.imp_of_mem fun {a b} ha hb hab n hna hnb ↦ ?_
    obtain ⟨i, rfl⟩ := Nat.exists_eq_add_of_le hna.1
    obtain ⟨j, hj⟩ := Nat.exists_eq_add_of_le hnb.1
    have hi : i < a.count := Nat.add_lt_add_iff_left.mp hna.2
    have hj' : j < b.count := Nat.add_lt_add_iff_left.mp (hj ▸ hnb.2)
    apply hab _ (PageRange.mem_calls.mpr ⟨i, hi, rfl⟩) _ (PageRange.mem_calls.mpr ⟨j, hj', rfl⟩)
    exact (PageRange.pageIndex_eq_iff (husable a ha) (husable b hb) hi hj').mpr hj
  · rintro ⟨hfree, hdisjoint⟩
    refine ⟨fun c hc ↦ ?_, fun c hc ↦ ?_, List.pairwise_flatMap.mpr ⟨?_, ?_⟩⟩
    · obtain ⟨r, hr, hc⟩ := List.mem_flatMap.mp hc
      obtain ⟨i, hi, rfl⟩ := PageRange.mem_calls.mp hc
      exact (husable r hr).slot_ne _ (PageRange.covers_call (husable r hr) hi)
    · obtain ⟨r, hr, hc⟩ := List.mem_flatMap.mp hc
      exact hfree r hr c hc
    · exact fun r hr ↦ (husable r hr).distinct
    · refine hdisjoint.imp_of_mem fun {a b} ha hb hab c hc d hd ↦ ?_
      obtain ⟨i, hi, rfl⟩ := PageRange.mem_calls.mp hc
      obtain ⟨j, hj, rfl⟩ := PageRange.mem_calls.mp hd
      rw [Ne, PageRange.pageIndex_eq_iff (husable a ha) (husable b hb) hi hj]
      intro hij
      apply hab _ (PageRange.covers_call (husable a ha) hi)
      rw [PageRange.pageNumber_call (husable a ha) hi, hij,
        ← PageRange.pageNumber_call (husable b hb) hj]
      exact PageRange.covers_call (husable b hb) hj

variable (hm : Lawful mapper root R e) (hs : Intact alloc root R e s)
  (husable : ∀ r ∈ ranges, r.Usable R)
  (h : mapPages mapper alloc (ranges.flatMap PageRange.calls) s = .ok () s') {u : VAddr}

include hm hs husable h

/-- An address of a range leads to the entry the range asks for. -/
theorem walk_of_covers {r : PageRange} (hr : r ∈ ranges) (hu : r.Covers u.pageNumber) :
    ∃ ws p, walk s'.store root u = some (ws, (leafEntry p r.flags).bits) ∧ ws.length = 3 ∧
      p.frame = r.frameOf u.pageNumber := by
  have hi : u.pageNumber - r.first < r.count := by
    have h₁ := hu.1
    have h₂ := hu.2
    omega
  have hmem := List.mem_flatMap.mpr ⟨r, hr, PageRange.mem_calls.mpr ⟨_, hi, rfl⟩⟩
  obtain ⟨ws, hw, hlen⟩ := (mappable_of_ok hm hs h).2 _ hmem
  have hpage : (r.call (u.pageNumber - r.first)).v_addr.path = u.path := by
    rw [VAddr.path_eq_iff, VAddr.pageIndex_eq_iff
      ((husable r hr).canonical _ (PageRange.covers_call (husable r hr) hi))
      ((husable r hr).canonical u hu)]
    exact (PageRange.pageNumber_call (husable r hr) hi).trans (Nat.add_sub_of_le hu.1)
  refine ⟨ws, _, ?_, hlen, rfl⟩
  rw [walk_eq_lookup, ← hpage, ← walk_eq_lookup, hw]
  rfl

/-- An address outside the ranges leads to where it did before. -/
theorem walk_of_not_covered (hu : u.Canonical) (hslot : u.slot 3 ≠ R)
    (hout : ∀ r ∈ ranges, ¬ r.Covers u.pageNumber) :
    walk s'.store root u = walk s.store root u := by
  apply walk_mapPages_of_ne hm hs h hslot
  intro c hc
  obtain ⟨r, hr, hc⟩ := List.mem_flatMap.mp hc
  obtain ⟨i, hi, rfl⟩ := PageRange.mem_calls.mp hc
  have hcov := PageRange.covers_call (husable r hr) hi
  rw [Ne, VAddr.pageIndex_eq_iff hu ((husable r hr).canonical _ hcov)]
  intro heq
  exact hout r hr (by rw [VAddr.pageNumber, heq]; exact hcov)

end

/-- The physical address behind an address whose walk ends in a page. -/
theorem translate_of_walk {mem : Memory} {root : Loc} {v : VAddr} {ws : List Word} {p : PAddr}
    {f : VFlags} (hw : walk mem root v = some (ws, (leafEntry p f).bits)) (hlen : ws.length = 3) :
    ∃ x, translate mem root v = some x ∧
      x.addr.toNat = p.frame.addr.toNat + v.addr.toNat % PAGE_SIZE := by
  refine ⟨_, by rw [translate, hw, Option.map_some], ?_⟩
  obtain ⟨hpage, hlt⟩ := p.isPage_frame
  have hoff : (BitVec.ofNat 64 (v.addr.toNat % leafSize 3) : Word).toNat =
      v.addr.toNat % PAGE_SIZE := by
    rw [BitVec.toNat_ofNat, show leafSize 3 = PAGE_SIZE from rfl, PAGE_SIZE]
    exact Nat.mod_eq_of_lt (by omega)
  rw [PAGE_SIZE] at hpage
  rw [hlen, leafBase_leafEntry, BitVec.toNat_add, hoff, PAGE_SIZE]
  exact Nat.mod_eq_of_lt (by omega)

end Elpytios
