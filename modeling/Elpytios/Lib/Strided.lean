import Elpytios.Lib.Cursor

/-!
# Cursors on the entries of a table

The entries of a table all have one size and start a stride apart, where the stride need not
be the size.  The cursor counts the entries still to come, and holds what follows the place it
has reached.  It gives an entry if the count has not run out and the rest is long enough, and
goes on by the stride if the rest is long enough for that: if not, it stays where it is.
-/

universe u

namespace Strided

open Cursor

variable {α : Type u} {size : ℕ}

/-- Where a cursor on a table stands. -/
structure Position (α : Type u) where
  /-- The entries still to come. -/
  left : ℕ
  stride : ℕ
  rest : List α

/-- Go on by the stride, or stay. -/
def advance (stride : ℕ) (rest : List α) : List α :=
  if stride ≤ rest.length then rest.drop stride else rest

/-- The next entry of a table. -/
def next (size : ℕ) (p : Position α) : Option (List α) × Position α :=
  if p.left = 0 then (none, p)
  else if size ≤ p.rest.length then
    (some (p.rest.take size), ⟨p.left - 1, p.stride, advance p.stride p.rest⟩)
  else (none, ⟨p.left - 1, p.stride, p.rest⟩)

/-- How far the cursor has come after `k` entries: no further than whole strides fit. -/
def offset (p : Position α) (k : ℕ) : ℕ := p.stride * min k (p.rest.length / p.stride)

/-! ## A single call -/

theorem next_eq_none {p : Position α} :
    (next size p).1 = none ↔ p.left = 0 ∨ p.rest.length < size := by
  by_cases hleft : p.left = 0
  · rw [next, if_pos hleft]
    exact iff_of_true rfl (Or.inl hleft)
  by_cases hsize : size ≤ p.rest.length
  · rw [next, if_neg hleft, if_pos hsize]
    exact iff_of_false (Option.some_ne_none _) (not_or.mpr ⟨hleft, Nat.not_lt.mpr hsize⟩)
  · rw [next, if_neg hleft, if_neg hsize]
    exact iff_of_true rfl (Or.inr (Nat.lt_of_not_le hsize))

theorem next_of_fits {p : Position α} (hleft : p.left ≠ 0) (hsize : size ≤ p.rest.length) :
    next size p = (some (p.rest.take size), ⟨p.left - 1, p.stride, advance p.stride p.rest⟩) := by
  rw [next, if_neg hleft, if_pos hsize]

theorem next_of_lt {p : Position α} (hleft : p.left ≠ 0) (hsize : p.rest.length < size) :
    next size p = (none, ⟨p.left - 1, p.stride, p.rest⟩) := by
  rw [next, if_neg hleft, if_neg (Nat.not_le.mpr hsize)]

theorem left_next (p : Position α) : (next size p).2.left = p.left - 1 := by
  rw [next]
  split_ifs with hleft
  · exact hleft.trans (by rw [hleft])
  · rfl
  · rfl

theorem fused : Fused (next size (α := α)) := by
  intro p h
  rw [next_eq_none] at h ⊢
  by_cases hleft : p.left = 0
  · exact Or.inl (by rw [left_next, hleft])
  · have hsize := h.resolve_left hleft
    apply Or.inr
    rw [next_of_lt hleft hsize]
    exact hsize

theorem exists_yields (size : ℕ) (p : Position α) : ∃ xs, Yields (next size) p xs := by
  refine Cursor.exists_yields Position.left (fun s x hx ↦ ?_) p
  rw [left_next]
  apply Nat.sub_one_lt
  intro h
  rw [next_eq_none.mpr (Or.inl h)] at hx
  cases hx

/-! ## The place of an entry -/

theorem offset_zero (p : Position α) : offset p 0 = 0 := by rw [offset, Nat.zero_min, Nat.mul_zero]

theorem offset_le_succ (p : Position α) (k : ℕ) : offset p k ≤ offset p (k + 1) :=
  Nat.mul_le_mul_left _ (by omega)

theorem offset_of_le {p : Position α} {k : ℕ} (h : p.stride * k ≤ p.rest.length) :
    offset p k = p.stride * k := by
  rw [offset]
  rcases Nat.eq_zero_or_pos p.stride with h0 | hpos
  · rw [h0, Nat.zero_mul, Nat.zero_mul]
  · rw [Nat.min_eq_left ((Nat.le_div_iff_mul_le hpos).mpr (by rwa [Nat.mul_comm]))]

theorem offset_le (p : Position α) (k : ℕ) : offset p k ≤ p.rest.length :=
  Nat.le_trans (Nat.mul_le_mul_left _ (Nat.min_le_right _ _)) (Nat.mul_div_le _ _)

/-- The cursor is a stride further at each entry as long as there is room for strides. -/
theorem offset_eq_iff {p : Position α} {k : ℕ} :
    offset p k = p.stride * k ↔ p.stride * k ≤ p.rest.length :=
  ⟨fun h ↦ h ▸ offset_le p k, offset_of_le⟩

/-- Where a stride does not fit, the cursor stands still. -/
theorem offset_succ_of_lt {p : Position α} {k : ℕ} (h : p.rest.length < p.stride * (k + 1)) :
    offset p (k + 1) = offset p k := by
  have hpos : 0 < p.stride := by
    rcases Nat.eq_zero_or_pos p.stride with h0 | hpos
    · rw [h0, Nat.zero_mul] at h
      exact absurd h (Nat.not_lt_zero _)
    · exact hpos
  have hlt : p.rest.length / p.stride < k + 1 := (Nat.div_lt_iff_lt_mul hpos).mpr
    (by rwa [Nat.mul_comm])
  rw [offset, offset, Nat.min_eq_right (Nat.le_of_lt hlt),
    Nat.min_eq_right (Nat.le_of_lt_succ hlt)]

/-! ## The entries of a table -/

/-- Entry number `k` is one of the table, and there is room for it at its place. -/
def Fits (size : ℕ) (p : Position α) (k : ℕ) : Prop :=
  k < p.left ∧ offset p k + size ≤ p.rest.length

instance (p : Position α) (k : ℕ) : Decidable (Fits size p k) := inferInstanceAs (Decidable (_ ∧ _))

/-- What stands at the place of entry number `k`. -/
def entry (size : ℕ) (p : Position α) (k : ℕ) : List α := (p.rest.drop (offset p k)).take size

/-- The position after an entry. -/
def Position.moved (p : Position α) : Position α :=
  ⟨p.left - 1, p.stride, advance p.stride p.rest⟩

/-- What follows the place of an entry, seen from the position after the first entry. -/
theorem drop_offset_moved (p : Position α) (k : ℕ) :
    p.moved.rest.drop (offset p.moved k) = p.rest.drop (offset p (k + 1)) := by
  obtain ⟨left, stride, rest⟩ := p
  simp only [offset, Position.moved, advance]
  split_ifs with h
  · rw [List.drop_drop]
    apply congrArg (List.drop · rest)
    rcases Nat.eq_zero_or_pos stride with rfl | hpos
    · rw [Nat.zero_mul, Nat.zero_mul]
    · obtain ⟨q, hq⟩ : ∃ q, rest.length / stride = q + 1 :=
        Nat.exists_eq_add_one.mpr (Nat.div_pos h hpos)
      have hsub : (rest.length - stride) / stride = q := by
        rw [Nat.div_eq_sub_div hpos h] at hq
        exact Nat.succ.inj hq
      rw [List.length_drop, hsub, hq, Nat.succ_min_succ, Nat.mul_succ, Nat.add_comm]
  · have hdiv : rest.length / stride = 0 := Nat.div_eq_of_lt (Nat.lt_of_not_le h)
    rw [hdiv, Nat.min_zero, Nat.min_zero]

theorem fits_moved {p : Position α} {k : ℕ} : Fits size p.moved k ↔ Fits size p (k + 1) := by
  have hlen := congrArg List.length (drop_offset_moved p k)
  have h₁ := offset_le p.moved k
  have h₂ := offset_le p (k + 1)
  have hleft : p.moved.left = p.left - 1 := rfl
  rw [List.length_drop, List.length_drop] at hlen
  rw [Fits, Fits, hleft]
  omega

theorem entry_moved (p : Position α) (k : ℕ) : entry size p.moved k = entry size p (k + 1) := by
  rw [entry, drop_offset_moved, entry]

theorem fits_zero {p : Position α} : Fits size p 0 ↔ p.left ≠ 0 ∧ size ≤ p.rest.length := by
  rw [Fits, offset_zero, Nat.zero_add, Nat.pos_iff_ne_zero]

/-- Where an entry fits, those before it fit. -/
theorem Fits.of_succ {p : Position α} {k : ℕ} (h : Fits size p (k + 1)) : Fits size p k :=
  ⟨Nat.lt_of_succ_lt h.1, Nat.le_trans (Nat.add_le_add_right (offset_le_succ p k) _) h.2⟩

theorem Fits.of_le {p : Position α} {j k : ℕ} (h : Fits size p k) (hjk : j ≤ k) :
    Fits size p j := by
  induction hjk with
  | refl => exact h
  | step _ ih => exact ih h.of_succ

/-- Before an entry that fits, the cursor stands at its place. -/
theorem rest_after {p : Position α} {k : ℕ} (h : Fits size p k) :
    (after (next size) k p).rest = p.rest.drop (offset p k) := by
  induction k generalizing p with
  | zero => rw [offset_zero, List.drop_zero]; rfl
  | succ k ih =>
      obtain ⟨hleft, hsize⟩ := fits_zero.mp (h.of_le (Nat.zero_le _))
      rw [after, next_of_fits hleft hsize, ← drop_offset_moved]
      exact ih (fits_moved.mpr h)

/-- The items are the entries that fit. -/
theorem getElem?_of_yields {p : Position α} {xs : List (List α)} (h : Yields (next size) p xs)
    (k : ℕ) : xs[k]? = if Fits size p k then some (entry size p k) else none := by
  induction k generalizing p xs with
  | zero =>
      rw [h.getElem?_eq fused]
      change (next size p).1 = _
      by_cases hfits : Fits size p 0
      · obtain ⟨hleft, hsize⟩ := fits_zero.mp hfits
        rw [next_of_fits hleft hsize, if_pos hfits, entry, offset_zero, List.drop_zero]
      · rw [if_neg hfits, next_eq_none]
        rw [fits_zero] at hfits
        omega
  | succ k ih =>
      cases h with
      | nothing h =>
          rw [if_neg]
          · rfl
          · intro hfits
            have h0 := fits_zero.mp (hfits.of_le (Nat.zero_le _))
            rw [next_eq_none] at h
            omega
      | item h hxs =>
          have hfits : p.left ≠ 0 ∧ size ≤ p.rest.length := by
            by_contra hc
            rw [next_eq_none.mpr (by omega)] at h
            cases h
          rw [next_of_fits hfits.1 hfits.2] at hxs
          apply (ih hxs).trans
          change (if Fits size p.moved k then some (entry size p.moved k) else none) = _
          simp only [fits_moved, entry_moved]

/-- The count of a table is exact unless an entry of it that starts within the rest, or at its
end, is cut off. -/
theorem exact_iff (p : Position α) : Exact (next size) Position.left p ↔
    ∀ k < p.left, p.stride * k ≤ p.rest.length → p.stride * k + size ≤ p.rest.length := by
  obtain ⟨xs, hxs⟩ := exists_yields size p
  rw [Cursor.exact_iff fused left_next hxs]
  constructor
  · intro hlen k hk hstart
    have hsome : xs[k]? ≠ none := by
      rw [Ne, List.getElem?_eq_none_iff]
      omega
    rw [getElem?_of_yields hxs] at hsome
    have hfits : Fits size p k := by
      by_contra hc
      exact hsome (if_neg hc)
    rw [← offset_of_le hstart]
    exact hfits.2
  · intro h
    have hfits : ∀ k < p.left, offset p k + size ≤ p.rest.length := by
      intro k
      -- An entry the cursor does not get to stands where the one before it stands.
      induction k with
      | zero =>
          intro hk
          have h0 := h 0 hk (Nat.zero_le _)
          rwa [Nat.mul_zero, ← offset_zero p] at h0
      | succ k ih =>
          intro hk
          by_cases hstart : p.stride * (k + 1) ≤ p.rest.length
          · rw [offset_of_le hstart]
            exact h _ hk hstart
          · rw [offset_succ_of_lt (Nat.lt_of_not_le hstart)]
            exact ih (Nat.lt_of_succ_lt hk)
    refine Nat.le_antisymm (List.getElem?_eq_none_iff.mp ?_) (Nat.le_of_not_lt fun hlt ↦ ?_)
    · rw [getElem?_of_yields hxs, if_neg (fun hc ↦ Nat.lt_irrefl _ hc.1)]
    · have hnone := getElem?_of_yields hxs xs.length
      rw [if_pos ⟨hlt, hfits _ hlt⟩, List.getElem?_eq_none (Nat.le_refl _)] at hnone
      cases hnone

/-- Each entry that is given stands in its own place unless a stride is refused after one that
is not the last. -/
theorem offset_eq_mul_iff (size : ℕ) (p : Position α) :
    (∀ k, Fits size p k → offset p k = p.stride * k) ↔
      ∀ k, k + 1 < p.left → p.stride * k + size ≤ p.rest.length →
        p.stride * (k + 1) ≤ p.rest.length := by
  constructor
  · intro h k hk hsize
    by_contra hc
    have hlt := Nat.lt_of_not_le hc
    have hk' : offset p k = p.stride * k :=
      offset_of_le (Nat.le_trans (Nat.le_add_right _ _) hsize)
    have hsucc := h (k + 1) ⟨hk, by rw [offset_succ_of_lt hlt, hk']; exact hsize⟩
    exact hc (offset_eq_iff.mp hsucc)
  · intro h k
    induction k with
    | zero => exact fun _ ↦ (offset_zero p).trans (Nat.mul_zero _).symm
    | succ k ih =>
        intro hfits
        have hk := hfits.of_succ
        rw [Fits, ih hk] at hk
        exact offset_of_le (h k hfits.1 hk.2)

/-- Where the stride is at most the size, an entry fits if there is room for it in its own
place. -/
theorem fits_iff_of_stride_le {p : Position α} (h : p.stride ≤ size) {k : ℕ} :
    Fits size p k ↔ k < p.left ∧ p.stride * k + size ≤ p.rest.length := by
  have hplace : ∀ k, Fits size p k → offset p k = p.stride * k := by
    apply (offset_eq_mul_iff size p).mpr
    intro k _ hsize
    rw [Nat.mul_succ]
    exact Nat.le_trans (Nat.add_le_add_left h _) hsize
  constructor
  · intro hfits
    exact ⟨hfits.1, hplace k hfits ▸ hfits.2⟩
  · rintro ⟨hleft, hsize⟩
    exact ⟨hleft, by rwa [offset_of_le (Nat.le_trans (Nat.le_add_right _ _) hsize)]⟩

end Strided
