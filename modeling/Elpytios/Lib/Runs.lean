import Mathlib.Data.List.Pairwise
import Mathlib.Data.List.SplitBy
import Mathlib.Data.Set.Basic
import Mathlib.Tactic.Common

/-!
# Maximal runs of intervals

Items cover half-open intervals of natural numbers, from `lo` up to `hi`.  Where one ends
and the next begins they touch.  Splitting a sorted list of items wherever two neighbours
do not touch gives the maximal runs of the set they cover (`Sorted.isRun_iff`).
-/

universe u

namespace Runs

/-- A maximal interval of a set of natural numbers. -/
structure IsRun (U : Set ℕ) (b e : ℕ) : Prop where
  lt : b < e
  mem : ∀ a, b ≤ a → a < e → a ∈ U
  left : ∀ a, a + 1 = b → a ∉ U
  right : e ∉ U

variable {α : Type u} (lo hi : α → ℕ)

/-- The numbers that some item of a list covers. -/
def covered (l : List α) : Set ℕ := { a | ∃ x ∈ l, lo x ≤ a ∧ a < hi x }

/-- The items cover nonempty intervals, in ascending order and without overlap. -/
structure Sorted (l : List α) : Prop where
  lt : ∀ x ∈ l, lo x < hi x
  le : l.Pairwise fun x y ↦ hi x ≤ lo y

/-- The items cover nonempty intervals, in ascending order and with gaps between them. -/
structure Separated (l : List α) : Prop where
  lt : ∀ x ∈ l, lo x < hi x
  gap : l.Pairwise fun x y ↦ hi x < lo y

variable {lo hi}

theorem Sorted.filter {l : List α} (h : Sorted lo hi l) (p : α → Bool) :
    Sorted lo hi (l.filter p) :=
  ⟨fun x hx ↦ h.lt x (List.mem_of_mem_filter hx), h.le.sublist List.filter_sublist⟩

theorem Separated.eq_or_lt {l : List α} (h : Separated lo hi l) {x y : α} (hx : x ∈ l)
    (hy : y ∈ l) : x = y ∨ hi x < lo y ∨ hi y < lo x := by
  have : Std.Symm fun x y ↦ hi x < lo y ∨ hi y < lo x := ⟨fun _ _ h ↦ h.symm⟩
  by_cases hxy : x = y
  · exact Or.inl hxy
  · exact Or.inr ((h.gap.imp Or.inl : l.Pairwise fun x y ↦ hi x < lo y ∨ hi y < lo x).forall
      hx hy hxy)

/-- The maximal runs of separated intervals are these intervals. -/
theorem Separated.isRun_iff {l : List α} (h : Separated lo hi l) {b e : ℕ} :
    IsRun (covered lo hi l) b e ↔ ∃ x ∈ l, b = lo x ∧ e = hi x := by
  have hend : ∀ x ∈ l, hi x ∉ covered lo hi l := by
    rintro x hx ⟨y, hy, h₁, h₂⟩
    have hltx := h.lt x hx
    have hlty := h.lt y hy
    rcases h.eq_or_lt hx hy with rfl | hgap | hgap <;> omega
  constructor
  · intro hrun
    obtain ⟨x, hx, h₁, h₂⟩ := hrun.mem b le_rfl hrun.lt
    refine ⟨x, hx, ?_, ?_⟩
    · by_contra hne
      exact hrun.left (b - 1) (by omega) ⟨x, hx, by omega, by omega⟩
    · by_contra hne
      rcases Nat.lt_or_gt_of_ne hne with hlt | hgt
      · exact hrun.right ⟨x, hx, by have := hrun.lt; omega, hlt⟩
      · exact hend x hx (hrun.mem (hi x) (by omega) hgt)
  · rintro ⟨x, hx, rfl, rfl⟩
    refine ⟨h.lt x hx, fun a h₁ h₂ ↦ ⟨x, hx, h₁, h₂⟩, ?_, hend x hx⟩
    rintro a ha ⟨y, hy, h₁, h₂⟩
    have hltx := h.lt x hx
    rcases h.eq_or_lt hx hy with rfl | hgap | hgap <;> omega

/-! ## Runs of items that touch -/

variable (lo hi) in
/-- Split a list wherever two neighbours do not touch. -/
def split (l : List α) : List (List α) := l.splitBy fun x y ↦ hi x = lo y

variable (lo) in
/-- Where a run of items begins. -/
def first (run : List α) : ℕ := (run.head?.map lo).getD 0

variable (hi) in
/-- Where a run of items ends. -/
def last (run : List α) : ℕ := (run.getLast?.map hi).getD 0

@[simp] theorem first_cons (x : α) (xs : List α) : first lo (x :: xs) = lo x := rfl

@[simp] theorem last_singleton (x : α) : last hi [x] = hi x := rfl

@[simp] theorem last_cons_cons (x y : α) (xs : List α) :
    last hi (x :: y :: xs) = last hi (y :: xs) := by
  rw [last, last, List.getLast?_cons_cons]

/-- Items that touch one another. -/
abbrev Touching (lo hi : α → ℕ) : List α → Prop := List.IsChain fun x y ↦ hi x = lo y

theorem first_lt_last {x : α} {xs : List α} (hchain : Touching lo hi (x :: xs))
    (hlt : ∀ y ∈ x :: xs, lo y < hi y) : lo x < last hi (x :: xs) := by
  induction xs generalizing x with
  | nil => exact hlt x List.mem_cons_self
  | cons y xs ih =>
      rw [Touching, List.isChain_cons_cons] at hchain
      have hx := hlt x List.mem_cons_self
      have hy := ih hchain.2 fun z hz ↦ hlt z (List.mem_cons_of_mem _ hz)
      rw [last_cons_cons]
      omega

/-- A run of items covers all from where it begins to where it ends. -/
theorem mem_covered_of_touching {x : α} {xs : List α} (hchain : Touching lo hi (x :: xs))
    (hlt : ∀ y ∈ x :: xs, lo y < hi y) {a : ℕ} :
    a ∈ covered lo hi (x :: xs) ↔ lo x ≤ a ∧ a < last hi (x :: xs) := by
  induction xs generalizing x with
  | nil => simp [covered]
  | cons y xs ih =>
      rw [Touching, List.isChain_cons_cons] at hchain
      have hx := hlt x List.mem_cons_self
      have htail := fun z hz ↦ hlt z (List.mem_cons_of_mem _ hz)
      have hy := first_lt_last hchain.2 htail
      have hrest := ih hchain.2 htail
      have hsplit : a ∈ covered lo hi (x :: y :: xs) ↔
          (lo x ≤ a ∧ a < hi x) ∨ a ∈ covered lo hi (y :: xs) := by
        simp [covered]
      rw [hsplit, hrest, last_cons_cons]
      omega

theorem first_eq {run : List α} (hne : run ≠ []) : first lo run = lo (run.head hne) := by
  rw [first, List.head?_eq_some_head hne, Option.map_some, Option.getD_some]

theorem last_eq {run : List α} (hne : run ≠ []) : last hi run = hi (run.getLast hne) := by
  rw [last, List.getLast?_eq_some_getLast hne, Option.map_some, Option.getD_some]

/-- Where neighbours do not touch there are gaps between any two runs. -/
theorem pairwise_gap {runs : List (List α)} (hlt : ∀ run ∈ runs, first lo run < last hi run)
    (hle : runs.Pairwise fun run run' ↦ ∀ x ∈ run, ∀ y ∈ run', hi x ≤ lo y)
    (hchain : runs.IsChain fun run run' ↦ ∃ h h',
      decide (hi (run.getLast h) = lo (run'.head h')) = false)
    (hne : ∀ run ∈ runs, run ≠ []) :
    runs.Pairwise fun run run' ↦ last hi run < first lo run' := by
  have hends : ∀ {run run'}, run ∈ runs → run' ∈ runs →
      (∀ x ∈ run, ∀ y ∈ run', hi x ≤ lo y) → last hi run ≤ first lo run' := by
    intro run run' hrun hrun' h
    rw [last_eq (hne run hrun), first_eq (hne run' hrun')]
    exact h _ (List.getLast_mem _) _ (List.head_mem _)
  induction runs with
  | nil => exact .nil
  | cons run runs ih =>
      have htail := ih (fun r hr ↦ hlt r (List.mem_cons_of_mem _ hr)) (List.pairwise_cons.mp hle).2
        hchain.tail (fun r hr ↦ hne r (List.mem_cons_of_mem _ hr))
        fun hr hr' ↦ hends (List.mem_cons_of_mem _ hr) (List.mem_cons_of_mem _ hr')
      refine List.pairwise_cons.mpr ⟨fun r hr ↦ ?_, htail⟩
      cases runs with
      | nil => cases hr
      | cons next runs =>
          have hnext : next ∈ run :: next :: runs := List.mem_cons_of_mem _ List.mem_cons_self
          obtain ⟨h, h', htouch⟩ := (List.isChain_cons_cons.mp hchain).1
          have hne₁ : last hi run ≠ first lo next := by
            rw [last_eq h, first_eq h']
            simpa using htouch
          have hle₁ := hends List.mem_cons_self hnext
            ((List.pairwise_cons.mp hle).1 next List.mem_cons_self)
          have hlt₁ : last hi run < first lo next := lt_of_le_of_ne hle₁ hne₁
          rcases List.mem_cons.mp hr with rfl | hr
          · exact hlt₁
          · have hle₂ := hends hnext (List.mem_cons_of_mem _ (List.mem_cons_of_mem _ hr))
              ((List.pairwise_cons.mp (List.pairwise_cons.mp hle).2).1 r hr)
            have hlt₂ := hlt next hnext
            omega

section

variable {l : List α}

variable (lo hi l) in
theorem flatten_split : (split lo hi l).flatten = l := List.flatten_splitBy _ _

theorem touching_of_mem_split {run : List α} (hrun : run ∈ split lo hi l) :
    Touching lo hi run :=
  (List.isChain_of_mem_splitBy hrun).imp fun _ _ h ↦ by simpa using h

theorem mem_of_mem_split {run : List α} (hrun : run ∈ split lo hi l) {x : α} (hx : x ∈ run) :
    x ∈ l := by
  rw [← flatten_split lo hi l]
  exact List.mem_flatten.mpr ⟨run, hrun, hx⟩

variable (h : Sorted lo hi l)

include h

theorem Sorted.covered_run {run : List α} (hrun : run ∈ split lo hi l) {a : ℕ} :
    a ∈ covered lo hi run ↔ first lo run ≤ a ∧ a < last hi run := by
  obtain ⟨x, xs, rfl⟩ := List.exists_cons_of_ne_nil (List.ne_nil_of_mem_splitBy hrun)
  exact mem_covered_of_touching (touching_of_mem_split hrun) fun y hy ↦
    h.lt y (mem_of_mem_split hrun hy)

/-- There are gaps between the runs. -/
theorem Sorted.separated_split : Separated (first lo) (last hi) (split lo hi l) := by
  have hlt : ∀ run ∈ split lo hi l, first lo run < last hi run := by
    intro run hrun
    obtain ⟨x, xs, rfl⟩ := List.exists_cons_of_ne_nil (List.ne_nil_of_mem_splitBy hrun)
    exact first_lt_last (touching_of_mem_split hrun) fun y hy ↦
      h.lt y (mem_of_mem_split hrun hy)
  have hle := h.le
  rw [← flatten_split lo hi l, List.pairwise_flatten] at hle
  exact ⟨hlt, pairwise_gap hlt hle.2
    (List.isChain_getLast_head_splitBy (fun x y ↦ decide (hi x = lo y)) l)
    fun run hrun ↦ List.ne_nil_of_mem_splitBy hrun⟩

/-- The runs of a sorted list are the maximal runs of what it covers. -/
theorem Sorted.isRun_iff {b e : ℕ} : IsRun (covered lo hi l) b e ↔
    ∃ run ∈ split lo hi l, b = first lo run ∧ e = last hi run := by
  have hcovered : covered lo hi l = covered (first lo) (last hi) (split lo hi l) := by
    ext a
    constructor
    · rintro ⟨x, hx, ha⟩
      rw [← flatten_split lo hi l] at hx
      obtain ⟨run, hrun, hx⟩ := List.mem_flatten.mp hx
      exact ⟨run, hrun, (h.covered_run hrun).mp ⟨x, hx, ha⟩⟩
    · rintro ⟨run, hrun, ha⟩
      obtain ⟨x, hx, hxa⟩ := (h.covered_run hrun).mpr ha
      exact ⟨x, mem_of_mem_split hrun hx, hxa⟩
  rw [hcovered, h.separated_split.isRun_iff]

end

end Runs
