import Elpytios.Bootloader.Segments
import Elpytios.Lib.Loop

/-!
# The virtual bounds of the kernel

The loop of `KERNEL_VIRTUAL_ADDRESSES` round by round.  A segment that is not loaded is skipped
before the index goes on, so that the next round meets it again.
-/

namespace Elpytios

open Loop

/-- The variables of the loop of `KERNEL_VIRTUAL_ADDRESSES`. -/
structure Bounds where
  i : ℕ
  min : Word
  max : Word
deriving DecidableEq, Repr

namespace Bounds

def init : Bounds := ⟨0, BitVec.allOnes 64, 0⟩

/-- The assignments at the end of a round. -/
def widen (s : Bounds) (segment : ElfSegment64) : Bounds where
  min := if segment.virtual_address ≤ s.min then segment.virtual_address else s.min
  max :=
    let stop := segment.virtual_address + segment.memory_size
    if s.max ≤ stop then stop else s.max
  i := s.i + 1

/-- A round of the loop, which stops with nothing where the build fails. -/
def round (segments : List ElfSegment64) (s : Bounds) : Option (Word × Word) ⊕ Bounds :=
  match segments[s.i]? with
  | none => .inl none
  | some segment =>
      if segment.segment_type ≠ .Load then .inr s
      else if 2 ^ 64 ≤ segment.stop then .inl none
      else
        let s := s.widen segment
        if s.i = segments.length then .inl (some (s.min, s.max)) else .inr s

end Bounds

/-- The last lines of `KERNEL_VIRTUAL_ADDRESSES`. -/
def alignBounds (bounds : Word × Word) : Option (Word × Word) :=
  if bounds.1 % pageSizeWord ≠ 0 then none
  else if bounds.2 % pageSizeWord ≠ 0 ∧
      2 ^ 64 ≤ bounds.2.toNat - bounds.2.toNat % PAGE_SIZE + PAGE_SIZE then none
  else some (bounds.1, next_multiple_of bounds.2 pageSizeWord)

theorem kernelVirtualAddresses_eq (segments : List ElfSegment64) :
    kernelVirtualAddresses segments =
      (virtualAddressesLoop segments (BitVec.allOnes 64) 0).bind alignBounds := rfl

/-! ## Rounds -/

namespace Bounds

variable {segments : List ElfSegment64} {s : Bounds} {segment : ElfSegment64}

/-- A segment that is not loaded is met again and again. -/
theorem round_of_not_load (h : segments[s.i]? = some segment)
    (hload : segment.segment_type ≠ .Load) : round segments s = .inr s := by
  rw [round, h]
  exact if_pos hload

theorem round_of_overflow (h : segments[s.i]? = some segment)
    (hload : segment.segment_type = .Load) (hstop : 2 ^ 64 ≤ segment.stop) :
    round segments s = .inl none := by
  rw [round, h]
  exact (if_neg (not_not.mpr hload)).trans (if_pos hstop)

theorem round_of_load (h : segments[s.i]? = some segment) (hload : segment.segment_type = .Load)
    (hstop : ¬ 2 ^ 64 ≤ segment.stop) :
    round segments s =
      if s.i + 1 = segments.length then .inl (some ((s.widen segment).min, (s.widen segment).max))
      else .inr (s.widen segment) := by
  rw [round, h]
  exact (if_neg (not_not.mpr hload)).trans (if_neg hstop)

theorem virtualAddressesLoop_cons (rest : List ElfSegment64) (hload : segment.segment_type = .Load)
    (hstop : ¬ 2 ^ 64 ≤ segment.stop) :
    virtualAddressesLoop (segment :: rest) s.min s.max =
      if rest.isEmpty then some ((s.widen segment).min, (s.widen segment).max)
      else virtualAddressesLoop rest (s.widen segment).min (s.widen segment).max := by
  rw [virtualAddressesLoop, if_neg (not_not.mpr hload), if_neg hstop]
  rfl

/-- The loop stops exactly where going through the list gives a result, and with that result. -/
theorem exists_rounds_iff (pre rest : List ElfSegment64) (min max : Word) (r : Word × Word) :
    (∃ n, rounds (round (pre ++ rest)) n ⟨pre.length, min, max⟩ = .inl (some r)) ↔
      virtualAddressesLoop rest min max = some r := by
  induction rest generalizing pre min max with
  | nil =>
      have hround : round (pre ++ []) ⟨pre.length, min, max⟩ = .inl none := by
        rw [round, List.append_nil, List.getElem?_eq_none (Nat.le_refl _)]
      exact exists_rounds_of_inl hround
  | cons segment rest ih =>
      have hget : (pre ++ segment :: rest)[pre.length]? = some segment := by
        rw [List.getElem?_append_right (Nat.le_refl _), Nat.sub_self]
        rfl
      by_cases hload : segment.segment_type = .Load
      swap
      · rw [virtualAddressesLoop, if_pos hload]
        refine iff_of_false ?_ (Option.some_ne_none _).symm
        rintro ⟨n, hn⟩
        rw [rounds_of_stuck (round_of_not_load hget hload)] at hn
        cases hn
      by_cases hstop : 2 ^ 64 ≤ segment.stop
      · rw [virtualAddressesLoop, if_neg (not_not.mpr hload), if_pos hstop]
        exact exists_rounds_of_inl (round_of_overflow hget hload hstop)
      have hround := round_of_load (s := ⟨pre.length, min, max⟩) hget hload hstop
      have hlist := virtualAddressesLoop_cons (s := ⟨pre.length, min, max⟩) rest hload hstop
      rw [hlist]
      cases rest with
      | nil =>
          rw [if_pos (by simp)] at hround
          exact exists_rounds_of_inl hround
      | cons next rest =>
          rw [if_neg (by simp)] at hround
          have hrest := ih (pre ++ [segment]) (widen ⟨pre.length, min, max⟩ segment).min
            (widen ⟨pre.length, min, max⟩ segment).max
          rw [List.append_assoc, List.length_append] at hrest
          exact (exists_rounds_of_inr hround).trans hrest

end Bounds

/-! ## What the loop computes -/

/-- The bounds are reached by segments, or are the ones at the beginning. -/
theorem virtualAddressesLoop_reached {segments : List ElfSegment64} {min max min' max' : Word}
    (h : virtualAddressesLoop segments min max = some (min', max')) :
    (min' = min ∨ ∃ segment ∈ segments, segment.virtual_address = min') ∧
      (max' = max ∨ ∃ segment ∈ segments, segment.stop = max'.toNat) := by
  induction segments generalizing min max with
  | nil => cases h
  | cons segment rest ih =>
      obtain ⟨hload, hstop, hsum⟩ := of_virtualAddressesLoop_cons h
      have hwiden := Bounds.virtualAddressesLoop_cons (s := ⟨0, min, max⟩) rest hload hstop
      have hmin : (Bounds.widen ⟨0, min, max⟩ segment).min = min ∨
          (Bounds.widen ⟨0, min, max⟩ segment).min = segment.virtual_address := by
        rw [Bounds.widen]
        dsimp only
        split_ifs
        · exact Or.inr rfl
        · exact Or.inl rfl
      have hmax : (Bounds.widen ⟨0, min, max⟩ segment).max = max ∨
          (Bounds.widen ⟨0, min, max⟩ segment).max.toNat = segment.stop := by
        rw [Bounds.widen]
        dsimp only
        split_ifs
        · exact Or.inr hsum
        · exact Or.inl rfl
      rw [hwiden] at h
      generalize (Bounds.widen ⟨0, min, max⟩ segment).min = lo at h hmin
      generalize (Bounds.widen ⟨0, min, max⟩ segment).max = hi at h hmax
      have hreached : (min' = lo ∨ ∃ other ∈ rest, other.virtual_address = min') ∧
          (max' = hi ∨ ∃ other ∈ rest, other.stop = max'.toNat) := by
        split_ifs at h
        · cases h
          exact ⟨Or.inl rfl, Or.inl rfl⟩
        · exact ih h
      obtain ⟨hlo, hhi⟩ := hreached
      constructor
      · rcases hlo with rfl | ⟨other, hother, heq⟩
        · exact hmin.imp_right fun heq ↦ ⟨segment, List.mem_cons_self, heq.symm⟩
        · exact Or.inr ⟨other, .tail _ hother, heq⟩
      · rcases hhi with rfl | ⟨other, hother, heq⟩
        · exact hmax.imp_right fun heq ↦ ⟨segment, List.mem_cons_self, heq.symm⟩
        · exact Or.inr ⟨other, .tail _ hother, heq⟩

/-- The lowest address of the segments that are loaded, and the highest end of them rounded up
to a page. -/
structure IsBounds (segments : List ElfSegment64) (bounds : Word × Word) : Prop where
  min_le : ∀ segment ∈ loads segments, bounds.1.toNat ≤ segment.virtual_address.toNat
  min_mem : ∃ segment ∈ loads segments, segment.virtual_address = bounds.1
  max_eq : ∃ segment ∈ loads segments, (∀ other ∈ loads segments, other.stop ≤ segment.stop) ∧
    bounds.2.toNat = (segment.stop + (PAGE_SIZE - 1)) / PAGE_SIZE * PAGE_SIZE

/-- The loop meets one segment in each round and stops after the last one, and the constant is
what it is to be. -/
structure ComputesBounds (segments : List ElfSegment64) : Prop where
  visits : ∀ k < segments.length, ∃ s, rounds (Bounds.round segments) k .init = .inr s ∧ s.i = k
  stops : ∃ result bounds, rounds (Bounds.round segments) segments.length .init =
    .inl (some result) ∧ alignBounds result = some bounds ∧ IsBounds segments bounds

/-- A list of segments as the constant is to be computed for. -/
structure Linkable (segments : List ElfSegment64) : Prop where
  aligned : kernelSegments segments = some segments
  load : loads segments ≠ []
  lowest_aligned : ∀ segment ∈ loads segments,
    (∀ other ∈ loads segments, segment.virtual_address ≤ other.virtual_address) →
      segment.virtual_address.toNat % PAGE_SIZE = 0
  stop_lt : ∀ segment ∈ segments,
    (segment.stop + (PAGE_SIZE - 1)) / PAGE_SIZE * PAGE_SIZE < 2 ^ 64

theorem loads_eq_self {segments : List ElfSegment64}
    (h : ∀ segment ∈ segments, segment.segment_type = .Load) : loads segments = segments :=
  List.filter_eq_self.mpr fun segment hsegment ↦ decide_eq_true (h segment hsegment)

/-- The loop on segments that are all loaded. -/
theorem rounds_of_loads {segments : List ElfSegment64}
    (hload : ∀ segment ∈ segments, segment.segment_type = .Load)
    (hstop : ∀ segment ∈ segments, ¬ 2 ^ 64 ≤ segment.stop) :
    ∀ k < segments.length, ∃ s, rounds (Bounds.round segments) k .init = .inr s ∧ s.i = k := by
  intro k
  induction k with
  | zero => exact fun _ ↦ ⟨.init, rfl, rfl⟩
  | succ k ih =>
      intro hk
      obtain ⟨s, hs, hi⟩ := ih (Nat.lt_of_succ_lt hk)
      have hget : segments[s.i]? = some segments[k] := by
        rw [hi]; exact List.getElem?_eq_getElem _
      have hround := Bounds.round_of_load hget (hload _ (List.getElem_mem _))
        (hstop _ (List.getElem_mem _))
      rw [if_neg (by omega)] at hround
      refine ⟨s.widen segments[k], ?_, congrArg (· + 1) hi⟩
      rw [rounds_add hs 1, rounds_succ_of_inr hround]
      rfl

/-- The last round on segments that are all loaded. -/
theorem exists_rounds_of_loads {segments : List ElfSegment64} (hne : segments ≠ [])
    (hload : ∀ segment ∈ segments, segment.segment_type = .Load)
    (hstop : ∀ segment ∈ segments, ¬ 2 ^ 64 ≤ segment.stop) :
    ∃ min max, rounds (Bounds.round segments) segments.length .init = .inl (some (min, max)) := by
  obtain ⟨n, hn⟩ : ∃ n, segments.length = n + 1 :=
    Nat.exists_eq_add_one.mpr (List.length_pos_iff.mpr hne)
  obtain ⟨s, hs, hi⟩ := rounds_of_loads hload hstop n (by omega)
  have hlt : n < segments.length := by omega
  have hget : segments[s.i]? = some segments[n] := by
    rw [hi]; exact List.getElem?_eq_getElem _
  have hround := Bounds.round_of_load hget (hload _ (List.getElem_mem _))
    (hstop _ (List.getElem_mem _))
  rw [if_pos (by omega)] at hround
  have hrounds := rounds_add hs 1
  rw [rounds_succ_of_inl hround 0, ← hn] at hrounds
  exact ⟨_, _, hrounds⟩

theorem toNat_mod_pageSize_iff {x : Word} : x % pageSizeWord = 0 ↔ x.toNat % PAGE_SIZE = 0 := by
  rw [← BitVec.toNat_inj, BitVec.toNat_umod, toNat_pageSizeWord]
  rfl

/-- The last lines of the constant round the end up. -/
theorem alignBounds_eq {min max : Word} (hmin : min.toNat % PAGE_SIZE = 0)
    (hmax : (max.toNat + (PAGE_SIZE - 1)) / PAGE_SIZE * PAGE_SIZE < 2 ^ 64) :
    ∃ next, alignBounds (min, max) = some (min, next) ∧
      next.toNat = (max.toNat + (PAGE_SIZE - 1)) / PAGE_SIZE * PAGE_SIZE := by
  refine ⟨next_multiple_of max pageSizeWord, ?_, toNat_next_multiple_of ?_⟩
  · rw [alignBounds, if_neg (not_not.mpr (toNat_mod_pageSize_iff.mpr hmin)), if_neg]
    rintro ⟨hne, hlt⟩
    rw [Ne, toNat_mod_pageSize_iff] at hne
    simp only [PAGE_SIZE] at hmax hne hlt
    omega
  · simp only [PAGE_SIZE] at hmax ⊢
    omega

/-- What the loop computes for segments that are all loaded. -/
theorem isBounds_of_loop {segments : List ElfSegment64} (hne : segments ≠ []) {min max : Word}
    (h : virtualAddressesLoop segments (BitVec.allOnes 64) 0 = some (min, max)) :
    (∀ segment ∈ segments, min ≤ segment.virtual_address) ∧
      (∃ segment ∈ segments, segment.virtual_address = min) ∧
      ∃ segment ∈ segments, (∀ other ∈ segments, other.stop ≤ segment.stop) ∧
        segment.stop = max.toNat := by
  obtain ⟨-, -, hspec⟩ := virtualAddressesLoop_spec h
  obtain ⟨hmin, hmax⟩ := virtualAddressesLoop_reached h
  obtain ⟨first, hfirst⟩ := List.exists_mem_of_ne_nil segments hne
  refine ⟨fun segment hsegment ↦ (hspec segment hsegment).1, ?_, ?_⟩
  · rcases hmin with rfl | hreached
    · refine ⟨first, hfirst, BitVec.eq_of_toNat_eq (Nat.le_antisymm ?_ (hspec first hfirst).1)⟩
      rw [BitVec.toNat_allOnes]
      exact Nat.le_sub_one_of_lt first.virtual_address.isLt
    · exact hreached
  · rcases hmax with rfl | ⟨segment, hsegment, heq⟩
    · have hzero : ∀ segment ∈ segments, segment.stop = 0 := fun segment hsegment ↦
        Nat.le_zero.mp (hspec segment hsegment).2
      exact ⟨first, hfirst, fun other hother ↦ Nat.le_of_eq
        ((hzero other hother).trans (hzero first hfirst).symm), hzero first hfirst⟩
    · exact ⟨segment, hsegment, fun other hother ↦ heq ▸ (hspec other hother).2, heq⟩

/-- The loop of the constant stops after meeting each segment once, and with the bounds of the
segments that are loaded, exactly if all of them are. -/
theorem computesBounds_iff {segments : List ElfSegment64} (h : Linkable segments) :
    ComputesBounds segments ↔ ∀ segment ∈ segments, segment.segment_type = .Load := by
  constructor
  · rintro ⟨hvisits, result, -, hstops, -⟩ segment hsegment
    by_contra hload
    obtain ⟨k, hk, rfl⟩ := List.mem_iff_getElem.mp hsegment
    obtain ⟨s, hs, hi⟩ := hvisits k hk
    have hget : segments[s.i]? = some segments[k] := by
      rw [hi]; exact List.getElem?_eq_getElem _
    exact rounds_ne_inl_of_stuck hs (Bounds.round_of_not_load hget hload) _ _ hstops
  · intro hload
    have hself := loads_eq_self hload
    have hne : segments ≠ [] := fun hnil ↦ h.load (by rw [hself, hnil])
    have hstop : ∀ segment ∈ segments, ¬ 2 ^ 64 ≤ segment.stop := by
      intro segment hsegment hle
      have := h.stop_lt segment hsegment
      simp only [PAGE_SIZE] at this
      omega
    obtain ⟨min, max, hrounds⟩ := exists_rounds_of_loads hne hload hstop
    have hloop := (Bounds.exists_rounds_iff [] segments _ _ _).mp ⟨_, hrounds⟩
    obtain ⟨hle, ⟨lowest, hlowest, hmin⟩, highest, hhighest, htop, hmax⟩ :=
      isBounds_of_loop hne hloop
    have haligned : min.toNat % PAGE_SIZE = 0 := by
      rw [← hmin]
      rw [← hmin, ← hself] at hle
      exact h.lowest_aligned lowest (hself.symm ▸ hlowest) hle
    obtain ⟨next, hbounds, hnext⟩ := alignBounds_eq haligned (hmax ▸ h.stop_lt highest hhighest)
    refine ⟨rounds_of_loads hload hstop, _, _, hrounds, hbounds, ?_, ?_, ?_⟩
    · rw [hself]
      exact hle
    · rw [hself]
      exact ⟨lowest, hlowest, hmin⟩
    · rw [hself]
      exact ⟨highest, hhighest, htop, hmax ▸ hnext⟩

/-- A segment of two pages that is loaded, and one that is not. -/
def loadThenNote (segment_type : ElfSegmentType) : List ElfSegment64 :=
  [⟨.Load, [], ⟨5⟩, 0xFFFF800000000000, 0, 5000, 4096⟩,
    ⟨segment_type, [], ⟨4⟩, 0xFFFF800000002000, 0, 16, 4096⟩]

theorem linkable_loadThenNote {segment_type : ElfSegmentType}
    (h : segment_type = .Load ∨ segment_type = .Note) : Linkable (loadThenNote segment_type) := by
  rcases h with rfl | rfl
  · exact ⟨by decide, by decide, by decide, by decide⟩
  · exact ⟨by decide, by decide, by decide, by decide⟩

theorem computesBounds_two_loads : ComputesBounds (loadThenNote .Load) :=
  (computesBounds_iff (linkable_loadThenNote (Or.inl rfl))).mpr (by decide)

/-- The loop does not stop on a segment that is not loaded. -/
theorem bounds_loop_forever :
    Linkable (loadThenNote .Note) ∧
      (∀ n result, rounds (Bounds.round (loadThenNote .Note)) n .init ≠ .inl result) ∧
      ¬ ComputesBounds (loadThenNote .Note) := by
  have hstuck : ∀ n result, rounds (Bounds.round (loadThenNote .Note)) n .init ≠ .inl result := by
    have hfirst : rounds (Bounds.round (loadThenNote .Note)) 1 .init =
        .inr ⟨1, 0xFFFF800000000000, 0xFFFF800000001388⟩ := by decide
    exact fun n result ↦ rounds_ne_inl_of_stuck hfirst (by decide) n result
  refine ⟨linkable_loadThenNote (Or.inr rfl), hstuck, ?_⟩
  rintro ⟨-, result, -, hstops, -⟩
  exact hstuck _ _ hstops

end Elpytios
