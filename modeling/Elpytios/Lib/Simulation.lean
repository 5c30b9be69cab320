import Mathlib.Data.List.Basic
import Mathlib.Tactic.Common

/-!
# Runs and simulations

A component answers operations.  What it does is a relation between the state before an
operation, the operation, the answer and the state after it.  A `Run` is a sequence of
such steps, with the answers that were given.

An invariant of the steps is one of the runs.  If every step of a component can be matched
by a step of another one that gives the same answer, then every run can be matched by a
run that gives the same answers (`Run.simulate`).
-/

universe u v w x

namespace Simulation

/-- What a component does: an operation is answered in a state, and leaves another. -/
abbrev Steps (State : Type u) (Op : Type v) (Answer : Type w) :=
  State → Op → Answer → State → Prop

variable {State : Type u} {Op : Type v} {Answer : Type w} {Abstract : Type x}

/-- A sequence of steps, with the operations and their answers. -/
inductive Run (step : Steps State Op Answer) : State → List (Op × Answer) → State → Prop
  | /-- No operation changes nothing. -/
    nil {s : State} : Run step s [] s
  | /-- An operation is answered first, and then the rest are. -/
    cons {s s₁ s' : State} {op : Op} {answer : Answer} {events : List (Op × Answer)}
      (h : step s op answer s₁) (hrun : Run step s₁ events s') :
      Run step s ((op, answer) :: events) s'

variable {step : Steps State Op Answer} {astep : Steps Abstract Op Answer} {s s₁ s' : State}
  {a a' : Abstract} {op : Op} {answer : Answer} {events events' : List (Op × Answer)}

theorem Run.single (h : step s op answer s') : Run step s [(op, answer)] s' := .cons h .nil

/-- Runs follow each other. -/
theorem Run.append (h : Run step s events s₁) (h' : Run step s₁ events' s') :
    Run step s (events ++ events') s' := by
  induction h with
  | nil => exact h'
  | cons hstep _ ih => exact .cons hstep (ih h')

/-- What every step keeps, a run keeps. -/
theorem Run.invariant {I : State → Prop} (h : Run step s events s')
    (hstep : ∀ {s op answer s'}, I s → step s op answer s' → I s') (hs : I s) : I s' := by
  induction h with
  | nil => exact hs
  | cons h _ ih => exact ih (hstep hs h)

/-- What every step between states with an invariant does, all events of a run show. -/
theorem Run.forall_events {I : State → Prop} {P : Op × Answer → Prop} (h : Run step s events s')
    (hstep : ∀ {s op answer s'}, I s → step s op answer s' → I s' ∧ P (op, answer)) (hs : I s) :
    ∀ event ∈ events, P event := by
  induction h with
  | nil => exact fun _ h ↦ absurd h List.not_mem_nil
  | cons h _ ih =>
      obtain ⟨hs₁, hP⟩ := hstep hs h
      exact List.forall_mem_cons.mpr ⟨hP, ih hs₁⟩

/-- If every step is matched by a step with the same answer, every run is matched by a run
with the same answers. -/
theorem Run.simulate (Rel : State → Abstract → Prop) (h : Run step s events s')
    (hstep : ∀ {s a op answer s'}, Rel s a → step s op answer s' →
      ∃ a', astep a op answer a' ∧ Rel s' a') (hs : Rel s a) :
    ∃ a', Run astep a events a' ∧ Rel s' a' := by
  induction h generalizing a with
  | nil => exact ⟨a, .nil, hs⟩
  | cons h _ ih =>
      obtain ⟨a₁, ha, hrel⟩ := hstep hs h
      obtain ⟨a', hrun, hrel'⟩ := ih hrel
      exact ⟨a', .cons ha hrun, hrel'⟩

end Simulation
