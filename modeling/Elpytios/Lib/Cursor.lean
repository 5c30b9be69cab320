import Mathlib.Data.List.Basic
import Mathlib.Tactic.Common

/-!
# Cursors

A cursor is a state together with a function `next` that gives an item or nothing, and the
state after the call.  Going through a cursor collects its items up to the first call that
gives nothing.

`Yields next s xs` says that the items from state `s` on are `xs`.  A cursor is *fused* if it
gives nothing any more once it has given nothing, and a number kept in its state is *exact* if
after any number of calls it is the number of items still to come.
-/

universe u v w

namespace Cursor

variable {σ : Type u} {τ : Type u} {ι : Type v} {κ : Type w}

/-- The state after a number of calls. -/
def after (next : σ → Option ι × σ) : ℕ → σ → σ
  | 0, s => s
  | k + 1, s => after next k (next s).2

/-- The items given before the first call that gives nothing. -/
inductive Yields (next : σ → Option ι × σ) : σ → List ι → Prop where
  | nothing {s : σ} (h : (next s).1 = none) : Yields next s []
  | item {s : σ} {x : ι} {xs : List ι} (h : (next s).1 = some x)
      (hxs : Yields next (next s).2 xs) : Yields next s (x :: xs)

/-- A cursor that has given nothing gives nothing from then on. -/
def Fused (next : σ → Option ι × σ) : Prop :=
  ∀ s, (next s).1 = none → (next (next s).2).1 = none

/-- After any number of calls, `len` is the number of items still to come. -/
def Exact (next : σ → Option ι × σ) (len : σ → ℕ) (s : σ) : Prop :=
  ∀ k, ∃ xs, Yields next (after next k s) xs ∧ len (after next k s) = xs.length

variable {next : σ → Option ι × σ} {next' : τ → Option κ × τ}

/-! ## The items of a state -/

theorem Yields.unique {s : σ} {xs ys : List ι} (hx : Yields next s xs) (hy : Yields next s ys) :
    xs = ys := by
  induction hx generalizing ys with
  | nothing h =>
      cases hy with
      | nothing => rfl
      | item h' => rw [h] at h'; cases h'
  | item h _ ih =>
      cases hy with
      | nothing h' => rw [h] at h'; cases h'
      | item h' hys =>
          obtain rfl := Option.some.inj (h.symm.trans h')
          exact congrArg _ (ih hys)

/-- A cursor with a measure that goes down at each item comes to an end. -/
theorem exists_yields (measure : σ → ℕ)
    (h : ∀ s x, (next s).1 = some x → measure (next s).2 < measure s) (s : σ) :
    ∃ xs, Yields next s xs := by
  induction hn : measure s using Nat.strongRecOn generalizing s with
  | ind n ih =>
      cases hs : (next s).1 with
      | none => exact ⟨[], .nothing hs⟩
      | some x =>
          obtain ⟨xs, hxs⟩ := ih _ (hn ▸ h s x hs) _ rfl
          exact ⟨x :: xs, .item hs hxs⟩

/-- The items of at most `n` calls, up to the first call that gives nothing. -/
def collect (next : σ → Option ι × σ) : ℕ → σ → List ι
  | 0, _ => []
  | n + 1, s =>
      match next s with
      | (none, _) => []
      | (some x, s') => x :: collect next n s'

/-- A measure that goes down at each item says how many calls are enough. -/
theorem yields_collect (measure : σ → ℕ)
    (h : ∀ s x, (next s).1 = some x → measure (next s).2 < measure s) {n : ℕ} {s : σ}
    (hn : measure s ≤ n) : Yields next s (collect next n s) := by
  induction n generalizing s with
  | zero =>
      refine .nothing (Option.eq_none_iff_forall_ne_some.mpr fun x hx ↦ ?_)
      exact absurd (h s x hx) (by omega)
  | succ n ih =>
      rcases hs : next s with ⟨_ | x, s'⟩
      · rw [collect, hs]
        exact .nothing (by rw [hs])
      · have hlt := h s x (by rw [hs])
        rw [collect, hs]
        rw [hs] at hlt
        exact .item (by rw [hs]) (by rw [hs]; exact ih (by omega))

/-- A fused cursor without items has none later on. -/
theorem Fused.yields_nil (hf : Fused next) {s : σ} (h : (next s).1 = none) (k : ℕ) :
    Yields next (after next k s) [] := by
  induction k generalizing s with
  | zero => exact .nothing h
  | succ k ih => exact ih (hf s h)

/-- After `k` calls the first `k` items are gone. -/
theorem Yields.after (hf : Fused next) {s : σ} {xs : List ι} (h : Yields next s xs) (k : ℕ) :
    Yields next (after next k s) (xs.drop k) := by
  induction k generalizing s xs with
  | zero => exact h
  | succ k ih =>
      cases h with
      | nothing h => exact hf.yields_nil h (k + 1)
      | item h hxs => exact ih hxs

/-- Item number `k` is what call number `k` gives. -/
theorem Yields.getElem?_eq (hf : Fused next) {s : σ} {xs : List ι} (h : Yields next s xs)
    (k : ℕ) : xs[k]? = (next (Cursor.after next k s)).1 := by
  have hk := h.after hf k
  rw [← List.head?_drop]
  generalize xs.drop k = ys at hk
  cases hk with
  | nothing h => exact h.symm
  | item h => exact h.symm

/-! ## Exact lengths -/

/-- A count that goes down with each call is exact if it is right at the beginning. -/
theorem exact_iff (hf : Fused next) {len : σ → ℕ} (hlen : ∀ s, len (next s).2 = len s - 1)
    {s : σ} {xs : List ι} (h : Yields next s xs) : Exact next len s ↔ xs.length = len s := by
  have hafter : ∀ k s, len (Cursor.after next k s) = len s - k := by
    intro k
    induction k with
    | zero => exact fun _ ↦ rfl
    | succ k ih =>
        intro s
        apply (ih _).trans
        rw [hlen, Nat.sub_sub, Nat.add_comm]
  constructor
  · intro hexact
    obtain ⟨ys, hys, hk⟩ := hexact 0
    rw [h.unique hys]
    exact hk.symm
  · intro hxs k
    refine ⟨_, h.after hf k, ?_⟩
    rw [hafter, List.length_drop, hxs]

/-! ## Cursors that go in step -/

/-- Each call of one cursor is a call of the other, with the item of the other sent through
`f`. -/
def InStep (next : σ → Option ι × σ) (next' : τ → Option κ × τ) (f : κ → ι)
    (R : σ → τ → Prop) : Prop :=
  ∀ s t, R s t → (next s).1 = (next' t).1.map f ∧ R (next s).2 (next' t).2

variable {f : κ → ι} {R : σ → τ → Prop}

theorem InStep.after (h : InStep next next' f R) {s : σ} {t : τ} (hst : R s t) (k : ℕ) :
    R (Cursor.after next k s) (Cursor.after next' k t) := by
  induction k generalizing s t with
  | zero => exact hst
  | succ k ih => exact ih (h s t hst).2

theorem InStep.yields (h : InStep next next' f R) {s : σ} {t : τ} (hst : R s t) {ys : List κ}
    (hys : Yields next' t ys) : Yields next s (ys.map f) := by
  induction hys generalizing s with
  | nothing hnone => exact .nothing (by rw [(h s _ hst).1, hnone]; rfl)
  | item hsome _ ih => exact .item (by rw [(h s _ hst).1, hsome]; rfl) (ih (h s _ hst).2)

/-- Cursors that go in step have exact lengths together. -/
theorem InStep.exact_iff (h : InStep next next' f R) {len : σ → ℕ} {len' : τ → ℕ}
    (hlen : ∀ s t, R s t → len s = len' t) (hnext : ∀ t, ∃ ys, Yields next' t ys) {s : σ} {t : τ}
    (hst : R s t) : Exact next len s ↔ Exact next' len' t := by
  apply forall_congr'
  intro k
  have hk := h.after hst k
  rw [hlen _ _ hk]
  constructor
  · rintro ⟨xs, hxs, hxl⟩
    obtain ⟨ys, hys⟩ := hnext (Cursor.after next' k t)
    refine ⟨ys, hys, ?_⟩
    rw [hxl, hxs.unique (h.yields hk hys), List.length_map]
  · rintro ⟨ys, hys, hyl⟩
    refine ⟨_, h.yields hk hys, ?_⟩
    rw [hyl, List.length_map]

end Cursor
