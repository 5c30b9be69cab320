import Elpytios.Bootloader.Layout

/-!
# Page tables and the image in one memory

The segment loop writes the image and links page tables in turn.  As long as the firmware does
not hand out pages of the image for page tables, and no write leaves the image, neither is in the
way of the other: `setup_uefi_and_exit` does to the tables in memory what `buildTables` does, and
to the rest of memory what `copySegments` does (`setupUefiAndExit_backed`).

The zero-fill of a segment with both data and zeros is misplaced, and can leave the image.  Then
the loop does not end (`writesWithin_of_loadSegments`).
-/

namespace Elpytios

open Radix

/-- The zero-fill of a segment, which begins where the data would end a second time, ends in the
image, if there is one. -/
def ElfSegment64.FillInImage (virtual_base next_v_addr : Word) (self : ElfSegment64) : Prop :=
  self.data.length ≤ self.memory_size.toNat ∧
    (self.data.length = self.memory_size.toNat ∨
      self.virtual_address.toNat - virtual_base.toNat + self.data.length +
        self.memory_size.toNat ≤ next_v_addr.toNat - virtual_base.toNat)

instance (virtual_base next_v_addr : Word) (segment : ElfSegment64) :
    Decidable (segment.FillInImage virtual_base next_v_addr) :=
  inferInstanceAs (Decidable (_ ∧ _))

/-- The page was handed out for a page table. -/
def HandedOut (alloc : NewPageTable) (a : PAddr) : Prop := ∃ n, alloc n = some a

/-- No page that is handed out for a page table overlaps a range of addresses, as is promised of
pages that are allocated while the range is. -/
def Apart (alloc : NewPageTable) (lo hi : ℕ) : Prop :=
  ∀ n a, alloc n = some a → a.addr.toNat + PAGE_SIZE ≤ lo ∨ hi ≤ a.addr.toNat

/-- A run on memory does what a run on page tables alone does, and the rest of memory is as given
when it ends. -/
structure Backed (P : PAddr → Prop) {α : Type} (r : EStateM.Result Stop Ram α)
    (r' : EStateM.Result Stop Tables α) (mem : Bytes) : Prop where
  answer_eq : answer r = answer r'
  holds : Ram.Holds P (after r) (after r')
  rest : ∀ a, answer r = .ok a → ∀ p, ¬ Within P p → (after r).mem p = mem p

/-- No request for a page table is refused. -/
def Ram.Granted {α : Type} (alloc : NewPageTable) (x : RamM α) (m : Ram) : Prop :=
  ∀ n, m.calls ≤ n → n < (after (x m)).calls → alloc n ≠ none

theorem Ram.granted_firstPages {α : Type} {count : ℕ} {x : RamM α} {m : Ram}
    (h : (after (x m)).calls ≤ count) : Ram.Granted (firstPages count) x m := fun n _ hn ↦ by
  rw [firstPages, if_pos (hn.trans_le h)]
  exact Option.some_ne_none _

theorem Documented.isPage {alloc : NewPageTable} (halloc : Documented alloc) :
    ∀ a, HandedOut alloc a → a.IsPage := fun _ ⟨_, ha⟩ ↦ halloc.page ha

theorem apart_firstPages {count lo : ℕ} (h : count < 2 ^ 40) (hlo : (count + 1) * PAGE_SIZE ≤ lo)
    (hi : ℕ) : Apart (firstPages count) lo hi := fun n a ha ↦ by
  obtain ⟨hn, haddr⟩ := toNat_of_firstPages h ha
  simp only [PAGE_SIZE] at *
  omega

theorem Apart.not_within {alloc : NewPageTable} {lo hi : ℕ} (h : Apart alloc lo hi) {p : ℕ}
    (hlo : lo ≤ p) (hhi : p < hi) : ¬ Within (HandedOut alloc) p := by
  rintro ⟨hp, n, hn⟩
  have := h n _ hn
  rw [toNat_pageOf hp, PAGE_SIZE] at this
  omega

theorem Apart.outside {alloc : NewPageTable} {lo hi : ℕ} (h : Apart alloc lo hi) {p : ℕ}
    (hp : Within (HandedOut alloc) p) : p < lo ∨ hi ≤ p := by
  by_contra hin
  rw [not_or, Nat.not_lt, Nat.not_le] at hin
  exact h.not_within hin.1 hin.2 hp

section

variable {alloc : NewPageTable} {P : PAddr → Prop} {α β : Type} {m : Ram} {s : Tables} {mem : Bytes}

theorem Backed.granted {x : RamM α} {y : MapM α} (h : Backed P (x m) (y s) mem)
    (hcalls : m.calls = s.calls) : Ram.Granted alloc x m ↔ Granted alloc y s := by
  have hafter : (after (x m)).calls = (after (y s)).calls := h.holds.part.calls
  rw [Ram.Granted, Granted, hcalls, hafter]

/-- A run that ends is the run of the other, and the other way round. -/
theorem Backed.exists_iff {r : EStateM.Result Stop Ram α} {r' : EStateM.Result Stop Tables α}
    (h : Backed P r r' mem) {a : α} : (∃ m', r = .ok a m') ↔ ∃ s', r' = .ok a s' := by
  have hanswer := h.answer_eq
  constructor
  · rintro ⟨m', rfl⟩
    exact ⟨_, eq_ok_of_answer hanswer.symm⟩
  · rintro ⟨s', rfl⟩
    exact ⟨_, eq_ok_of_answer hanswer⟩

/-- One run follows another. -/
theorem Backed.bind {x : RamM α} {y : MapM α} (h : Backed P (x m) (y s) mem) {f : α → RamM β}
    {g : α → MapM β} {mem' : Bytes}
    (hnext : ∀ {a m₁ s₁}, y s = .ok a s₁ → Ram.Holds P m₁ s₁ →
      (∀ p, ¬ Within P p → m₁.mem p = mem p) → Backed P (f a m₁) (g a s₁) mem') :
    Backed P ((x >>= f) m) ((y >>= g) s) mem' := by
  obtain ⟨hanswer, hholds, hrest⟩ := h
  cases hx : x m with
  | ok a m₁ =>
      rw [hx, answer_ok] at hanswer
      have hy := eq_ok_of_answer hanswer.symm
      rw [hx, hy] at hholds
      rw [run_bind_ok hx, run_bind_ok hy]
      exact hnext hy hholds (by simpa [hx] using hrest)
  | error e m₁ =>
      rw [hx, answer_error] at hanswer
      have hy := eq_error_of_answer hanswer.symm
      rw [hx, hy] at hholds
      rw [run_bind_error hx, run_bind_error hy]
      exact ⟨rfl, hholds, fun a ha ↦ by simp at ha⟩

theorem Backed.congr {r : EStateM.Result Stop Ram α} {r' : EStateM.Result Stop Tables α}
    (h : Backed P r r' mem) {mem' : Bytes} (hmem : ∀ p, ¬ Within P p → mem p = mem' p) :
    Backed P r r' mem' :=
  ⟨h.answer_eq, h.holds, fun a ha p hp ↦ (h.rest a ha p hp).trans (hmem p hp)⟩

theorem Ram.Holds.backed (h : Ram.Holds P m s) (hpage : ∀ a, P a → a.IsPage)
    (hgiven : ∀ n a, alloc n = some a → P a) {x : MapM α} (hx : Framed alloc x)
    (hdef : answer (x s) ≠ .error .undefined) : Backed P (Elpytios.onTables x m) (x s) m.mem := by
  obtain ⟨hanswer, hholds, hrest⟩ := h.onTables hpage hgiven hx hdef
  exact ⟨hanswer, hholds, fun _ _ ↦ hrest⟩

end

/-! ## The writes of a segment -/

section

variable {virtual_base next_v_addr : Word} {segments : List ElfSegment64} {segment : ElfSegment64}

/-- Addresses that the build computes enclose the image. -/
theorem Linked.imageSize_eq (h : Linked virtual_base next_v_addr segments)
    (hle : virtual_base.toNat ≤ next_v_addr.toNat) :
    imageSize virtual_base next_v_addr = next_v_addr.toNat - virtual_base.toNat := by
  have hbase := h.base_aligned
  have hnext := h.next_aligned
  rw [imageSize, BitVec.toNat_udiv, BitVec.toNat_sub_of_le (BitVec.le_def.mpr hle),
    toNat_pageSizeWord]
  simp only [PAGE_SIZE] at *
  omega

/-- The writes of a segment stay in the image exactly if its zero-fill does. -/
theorem writesWithin_iff (h : Linked virtual_base next_v_addr segments)
    (hsegment : segment ∈ loads segments) :
    WritesWithin virtual_base (imageSize virtual_base next_v_addr) segment ↔
      segment.FillInImage virtual_base next_v_addr := by
  have hbase := h.base_le segment hsegment
  have hstop := h.stop_le segment hsegment
  rw [ElfSegment64.stop] at hstop
  have hnext := next_v_addr.isLt
  have hsize := segment.memory_size.isLt
  have hoffset : (segment.virtual_address - virtual_base).toNat =
      segment.virtual_address.toNat - virtual_base.toNat :=
    BitVec.toNat_sub_of_le (BitVec.le_def.mpr hbase)
  rw [WritesWithin, ElfSegment64.FillInImage, h.imageSize_eq (by omega)]
  -- where the copy stays in the image, no sum wraps
  have hsums (hlen : segment.data.length < 2 ^ 64)
      (hfit : segment.virtual_address.toNat - virtual_base.toNat + segment.data.length < 2 ^ 64) :
      (BitVec.ofNat 64 segment.data.length : Word).toNat = segment.data.length ∧
        (segment.virtual_address - virtual_base + BitVec.ofNat 64 segment.data.length).toNat =
          segment.virtual_address.toNat - virtual_base.toNat + segment.data.length := by
    have hword : (BitVec.ofNat 64 segment.data.length : Word).toNat = segment.data.length := by
      rw [BitVec.toNat_ofNat]
      exact Nat.mod_eq_of_lt hlen
    rw [BitVec.toNat_add, hoffset, hword]
    exact ⟨rfl, Nat.mod_eq_of_lt hfit⟩
  constructor
  · rintro ⟨hcopy, hfill⟩
    have hfit : segment.virtual_address.toNat - virtual_base.toNat + segment.data.length ≤
        next_v_addr.toNat - virtual_base.toNat := by
      rcases hcopy with hnil | hcopy
      · rw [hnil, List.length_nil]
        omega
      · rwa [hoffset] at hcopy
    obtain ⟨hword, hsum⟩ := hsums (by omega) (by omega)
    rcases hfill with hzero | hfill
    · replace hzero : (segment.memory_size - BitVec.ofNat 64 segment.data.length).toNat = 0 := by
        rw [hzero]
        rfl
      rw [BitVec.toNat_sub, hword] at hzero
      omega
    · rw [hsum, hword, BitVec.toNat_sub, hword] at hfill
      omega
  · rintro ⟨hle, hfill⟩
    obtain ⟨hword, hsum⟩ := hsums (by omega) (by omega)
    refine ⟨Or.inr (by rw [hoffset]; omega), ?_⟩
    rcases hfill with heq | hfill
    · refine Or.inl (BitVec.eq_of_toNat_eq ?_)
      rw [BitVec.toNat_sub, hword]
      change _ = 0
      omega
    · refine Or.inr ?_
      rw [hsum, hword, BitVec.toNat_sub_of_le (BitVec.le_def.mpr (by rwa [hword])), hword]
      omega

/-- The writes of a segment are in the image. -/
theorem copySegment_of_not_image {kernel_ptr : Word} {size p : ℕ}
    (h : WritesWithin virtual_base size segment)
    (hp : ¬ (kernel_ptr.toNat ≤ p ∧ p < kernel_ptr.toNat + size)) (mem : Bytes) :
    copySegment kernel_ptr virtual_base segment mem p = mem p := by
  obtain ⟨hcopy, hfill⟩ := h
  rw [copySegment]
  refine (Bytes.writeBytes_of_notMem _ ?_).trans (Bytes.copyFromNonoverlapping_of_notMem _ ?_)
  · rcases hfill with hzero | hfill
    · rw [hzero]
      simp
    · omega
  · rcases hcopy with hnil | hcopy
    · rw [hnil]
      simp
    · omega

end

/-- All writes of the segment loop are in the image, if those of each segment are. -/
theorem copySegments_of_not_image {kernel_ptr virtual_base : Word} {size p : ℕ}
    {segments : List ElfSegment64}
    (h : ∀ segment ∈ loads segments, WritesWithin virtual_base size segment)
    (hp : ¬ (kernel_ptr.toNat ≤ p ∧ p < kernel_ptr.toNat + size)) (mem : Bytes) :
    copySegments kernel_ptr virtual_base segments mem p = mem p := by
  rw [copySegments_eq]
  generalize loads segments = segments at h
  induction segments generalizing mem with
  | nil => rfl
  | cons segment segments ih =>
      obtain ⟨hsegment, hrest⟩ := List.forall_mem_cons.mp h
      rw [List.foldl_cons, ih _ hrest, copySegment_of_not_image hsegment hp]

/-- The pages of a segment are loaded to places in the image. -/
theorem Bootable.place_lt {segments : List ElfSegment64} {virtual_base next_v_addr : Word}
    {firmware : Firmware} (h : Bootable segments virtual_base next_v_addr firmware)
    {segment : ElfSegment64} (hsegment : segment ∈ loads segments) {x : ℕ}
    (hx : segment.OnPage (x / PAGE_SIZE)) :
    firmware.kernel_ptr.toNat + (x - virtual_base.toNat) <
      imageEnd firmware.kernel_ptr virtual_base next_v_addr := by
  have hlt := h.bounds_of_onPage hsegment hx
  have hbase := h.linked.base_le segment hsegment
  rw [imageEnd, h.linked.imageSize_eq (by omega)]
  omega

/-! ## The segment loop -/

section

variable {alloc : NewPageTable} {kernel_ptr virtual_base next_v_addr : Word}
  {segments : List ElfSegment64}

/-- Where the segment loop ends, every zero-fill has stayed in the image. -/
theorem writesWithin_of_loadSegments {virtual_map : VirtualMapBuilder} {m m' : Ram}
    (h : loadSegments virtual_map kernel_ptr virtual_base next_v_addr segments m = .ok () m') :
    ∀ segment ∈ loads segments,
      WritesWithin virtual_base (imageSize virtual_base next_v_addr) segment := by
  induction segments generalizing m with
  | nil => exact nofun
  | cons segment segments ih =>
      rw [loadSegments, List.forM_cons, ← loadSegments] at h
      obtain ⟨⟨⟩, m₁, hsegment, hrest⟩ := exists_of_run_bind_ok h
      rw [loads_cons]
      split_ifs with hload
      · rw [if_neg (not_not.mpr hload)] at hsegment
        obtain ⟨⟨⟩, m₂, hwrite, -⟩ := exists_of_run_bind_ok hsegment
        refine List.forall_mem_cons.mpr ⟨?_, ih hrest⟩
        by_contra hout
        rw [writeSegment, if_neg hout] at hwrite
        cases hwrite
      · exact ih hrest

variable {P : PAddr → Prop} (hpage : ∀ a, P a → a.IsPage) (hgiven : ∀ n a, alloc n = some a → P a)
  (happart : ∀ p, kernel_ptr.toNat ≤ p → p < imageEnd kernel_ptr virtual_base next_v_addr →
    ¬ Within P p)

include hpage hgiven happart

/-- Where every zero-fill stays in the image, the segment loop does to the tables in memory what
it does to tables alone, and writes the image. -/
theorem loadSegments_backed {m : Ram} {s : Tables} (hs : Intact alloc .own 510 0 s)
    (h : Ram.Holds P m s) (hwrites : ∀ segment ∈ loads segments,
      WritesWithin virtual_base (imageSize virtual_base next_v_addr) segment) :
    Backed P
      (loadSegments (VirtualMapBuilder.new 510 alloc) kernel_ptr virtual_base next_v_addr segments
        m)
      (mapSegments (VirtualMapBuilder.new 510 alloc) kernel_ptr virtual_base segments s)
      (copySegments kernel_ptr virtual_base segments m.mem) := by
  have hm : Lawful (VirtualMapBuilder.new 510 alloc).map .own 510 0 :=
    LocalMapper.lawful _ rfl
  induction segments generalizing m s with
  | nil => exact ⟨rfl, h, fun _ _ _ _ ↦ rfl⟩
  | cons segment segments ih =>
      rw [loadSegments, List.forM_cons, ← loadSegments, mapSegments, List.forM_cons, ← mapSegments,
        copySegments, List.foldl_cons, ← copySegments]
      rw [loads_cons] at hwrites
      by_cases hload : segment.segment_type = .Load
      · rw [if_pos hload] at hwrites
        obtain ⟨hwithin, hrest⟩ := List.forall_mem_cons.mp hwrites
        rw [if_neg (not_not.mpr hload), if_neg (not_not.mpr hload), if_neg (not_not.mpr hload)]
        let m₁ : Ram := { m with mem := copySegment kernel_ptr virtual_base segment m.mem }
        have hwrite : writeSegment kernel_ptr virtual_base next_v_addr segment m = .ok () m₁ :=
          if_pos hwithin
        have h₁ : Ram.Holds P m₁ s := h.withMem hpage fun p hp ↦
          copySegment_of_not_image hwithin (fun hin ↦ happart p hin.1 hin.2 hp) m.mem
        have hframed : Framed alloc (mapSegment (VirtualMapBuilder.new 510 alloc) kernel_ptr
            virtual_base segment) :=
          .forM fun _ ↦ ((LocalMapper.framedMapper _).map ..).unwrapOrPanic
        have hcalls : mapSegment (VirtualMapBuilder.new 510 alloc) kernel_ptr virtual_base segment =
            mapPages (VirtualMapBuilder.new 510 alloc).map alloc
              (segmentRange kernel_ptr virtual_base segment).calls := mapSegment_eq ..
        have hsegment := h₁.backed hpage hgiven hframed (by
          rw [hcalls]
          exact mapPages_defined hm hs _)
        rw [bind_assoc, run_bind_ok hwrite]
        refine hsegment.bind fun {_ m₂ s₂} hs₂ hholds hmem ↦ ?_
        have hintact := hs.mapPages hm (segmentRange kernel_ptr virtual_base segment).calls
        rw [hcalls] at hs₂
        rw [hs₂] at hintact
        exact (ih hintact hholds hrest).congr fun p hp ↦ copySegments_congr (hmem p hp)
      · rw [if_neg hload] at hwrites
        rw [if_pos hload, if_pos hload, if_pos hload, pure_bind, pure_bind]
        exact ih hs h hwrites

end

/-! ## The whole function -/

theorem framed_mapAndFinish (alloc : NewPageTable) (next_v_addr : Word) (firmware : Firmware) :
    Framed alloc (mapAndFinish (VirtualMapBuilder.new 510 alloc) next_v_addr firmware) := by
  have hmap : ∀ p v f, Framed alloc (mapOrPanic (VirtualMapBuilder.new 510 alloc) p v f) :=
    fun _ _ _ ↦ ((LocalMapper.framedMapper _).map ..).unwrapOrPanic
  have hfree : ∀ v p n f,
      Framed alloc (nextFreePage (VirtualMapBuilder.new 510 alloc) v p n f) :=
    fun _ _ _ _ ↦ (Framed.forM fun _ ↦ hmap ..).bind fun _ ↦ .pure _
  refine Framed.bind (.ite (.throw _) (hmap ..)) fun _ ↦ (hfree ..).bind fun _ ↦ ?_
  exact (hfree ..).bind fun _ ↦ (VirtualMapBuilder.framed_finish 510).unwrapOrPanic.bind fun _ ↦
    .pure _

section

variable {alloc : NewPageTable} {next_v_addr : Word} {firmware : Firmware}

theorem mapAndFinish_defined (hswitcher : firmware.switcher_addr.toNat % PAGE_SIZE = 0) {s : Tables}
    (hs : Intact alloc .own 510 0 s) :
    answer (mapAndFinish (VirtualMapBuilder.new 510 alloc) next_v_addr firmware s) ≠
      .error .undefined := by
  have hm : Lawful (VirtualMapBuilder.new 510 alloc).map .own 510 0 :=
    LocalMapper.lawful _ rfl
  have hintact := hs.mapPages hm ((restLayout next_v_addr firmware).flatMap PageRange.calls)
  rw [mapAndFinish_eq _ _ hswitcher]
  refine bind_defined (mapPages_defined hm hs _) fun hrest ↦ ?_
  rw [hrest] at hintact
  exact bind_defined (unwrapOrPanic_defined (finish_defined (by decide) hintact)) fun _ ↦ by simp

variable {segments : List ElfSegment64} {virtual_base : Word} {P : PAddr → Prop}
  (hpage : ∀ a, P a → a.IsPage) (hgiven : ∀ n a, alloc n = some a → P a)
  (happart : ∀ p, firmware.kernel_ptr.toNat ≤ p →
    p < imageEnd firmware.kernel_ptr virtual_base next_v_addr → ¬ Within P p)

include hpage hgiven happart

/-- Where every zero-fill stays in the image, `setup_uefi_and_exit` does to the tables in memory
what it does to tables alone, and writes the image. -/
theorem setupUefiAndExit_backed (halloc : Documented alloc)
    (hswitcher : firmware.switcher_addr.toNat % PAGE_SIZE = 0)
    (hwrites : ∀ segment ∈ loads segments,
      WritesWithin virtual_base (imageSize virtual_base next_v_addr) segment) (mem : Bytes) :
    Backed P (setupUefiAndExit alloc segments virtual_base next_v_addr firmware (Ram.start mem))
      (buildTables alloc segments virtual_base next_v_addr firmware VirtualMapBuilder.tables)
      (copySegments firmware.kernel_ptr virtual_base segments mem) := by
  have hs := intact_tables halloc 510
  refine (loadSegments_backed hpage hgiven happart hs (holds_start P mem) hwrites).bind
    fun {_ m₁ s₁} hs₁ hholds hmem ↦ ?_
  rw [mapSegments_eq] at hs₁
  have hintact := intact_of_mapPages (R := 510) (by decide) halloc hs₁
  exact (hholds.backed hpage hgiven (framed_mapAndFinish alloc next_v_addr firmware)
    (mapAndFinish_defined hswitcher hintact)).congr hmem

end

end Elpytios
