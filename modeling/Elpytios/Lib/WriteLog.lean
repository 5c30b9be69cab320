import Mathlib.Logic.Function.Basic
import Mathlib.Tactic.Common

/-!
# Logs of writes

A log lists the places that were written and the values, the first write first.  A place holds the
last value that was written to it.  A log that writes a box of places for every entry of another
log holds in each box what the other log holds at the entry.
-/

universe u v w x

namespace WriteLog

variable {L : Type u} {V : Type v} {K : Type w} {A : Type x} [DecidableEq L]

/-- The last value written to a place. -/
def last : List (L × V) → L → Option V
  | [], _ => none
  | write :: log, l => (last log l).or (if write.1 = l then some write.2 else none)

/-- Make the writes of a log, the first one first. -/
def play (log : List (L × V)) (mem : L → V) : L → V :=
  log.foldl (fun mem write ↦ Function.update mem write.1 write.2) mem

variable {log log' : List (L × V)} {l : L} {v : V}

@[simp] theorem last_nil (l : L) : last ([] : List (L × V)) l = none := rfl

theorem last_cons (write : L × V) (log : List (L × V)) (l : L) :
    last (write :: log) l = (last log l).or (if write.1 = l then some write.2 else none) := rfl

/-- A place holds what was written to it last, or what it held before. -/
theorem play_eq (log : List (L × V)) (mem : L → V) (l : L) :
    play log mem l = (last log l).getD (mem l) := by
  induction log generalizing mem with
  | nil => rfl
  | cons write log ih =>
      have hstep : play (write :: log) mem = play log (Function.update mem write.1 write.2) := rfl
      rw [hstep, ih, last_cons]
      cases last log l with
      | some v => rfl
      | none =>
          rw [Option.none_or, Option.getD_none, Function.update_apply]
          by_cases h : write.1 = l
          · rw [if_pos h.symm, if_pos h, Option.getD_some]
          · rw [if_neg (Ne.symm h), if_neg h, Option.getD_none]

theorem last_append (log log' : List (L × V)) (l : L) :
    last (log ++ log') l = (last log' l).or (last log l) := by
  induction log with
  | nil => rw [List.nil_append, last_nil, Option.or_none]
  | cons write log ih => rw [List.cons_append, last_cons, ih, last_cons, Option.or_assoc]

/-- Nothing is written to a place that is not in the log. -/
theorem last_eq_none (h : ∀ write ∈ log, write.1 ≠ l) : last log l = none := by
  induction log with
  | nil => rfl
  | cons write log ih =>
      rw [last_cons, ih fun w hw ↦ h w (List.mem_cons_of_mem _ hw), Option.none_or,
        if_neg (h write List.mem_cons_self)]

/-- What was written last is in the log. -/
theorem mem_of_last_eq_some (h : last log l = some v) : (l, v) ∈ log := by
  induction log with
  | nil => cases h
  | cons write log ih =>
      rw [last_cons, Option.or_eq_some_iff] at h
      rcases h with h | ⟨-, h⟩
      · exact List.mem_cons_of_mem _ (ih h)
      · split_ifs at h with hl
        obtain rfl := Option.some.inj h
        obtain rfl := hl
        exact List.mem_cons_self

/-- A place to which only one value is written holds it. -/
theorem last_eq_some (hmem : (l, v) ∈ log) (h : ∀ write ∈ log, write.1 = l → write.2 = v) :
    last log l = some v := by
  induction log with
  | nil => cases hmem
  | cons write log ih =>
      have htail : ∀ w ∈ log, w.1 = l → w.2 = v := fun w hw ↦ h w (List.mem_cons_of_mem _ hw)
      rw [last_cons]
      by_cases hlog : (l, v) ∈ log
      · rw [ih hlog htail, Option.some_or]
      · have hwrite : write = (l, v) := ((List.mem_cons.mp hmem).resolve_right hlog).symm
        have hnone : last log l = none := by
          apply last_eq_none
          rintro ⟨l', v'⟩ hw rfl
          obtain rfl := htail _ hw rfl
          exact hlog hw
        rw [hnone, Option.none_or, hwrite, if_pos rfl]

/-! ## Boxes -/

variable {entries : List (K × A)} {box : K × A → List (L × V)} {k : K}

/-- A place that is in the boxes of one key only holds what the last entry with this key puts
there. -/
theorem last_flatMap [DecidableEq K] {value : A → V}
    (hself : ∀ a, last (box (k, a)) l = some (value a))
    (hother : ∀ entry : K × A, entry.1 ≠ k → last (box entry) l = none) :
    last (entries.flatMap box) l = (last entries k).map value := by
  induction entries with
  | nil => rfl
  | cons entry entries ih =>
      rw [List.flatMap_cons, last_append, ih, last_cons]
      by_cases h : entry.1 = k
      · obtain ⟨k', a⟩ := entry
        obtain rfl : k' = k := h
        rw [hself, if_pos rfl]
        cases last entries k' with
        | none => rfl
        | some a' => rfl
      · rw [hother entry h, if_neg h, Option.or_none, Option.or_none]

end WriteLog
