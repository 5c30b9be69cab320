import Mathlib.Data.Nat.Init
import Mathlib.Tactic.Common

/-!
# Loops

A round of a loop either stops with a result (`Sum.inl`) or gives the state for the next round
(`Sum.inr`).
-/

universe u v

namespace Loop

variable {σ : Type u} {ρ : Type v} {round : σ → ρ ⊕ σ}

/-- What a number of rounds leads to: the result, or a state if the loop is still going. -/
def rounds (round : σ → ρ ⊕ σ) : ℕ → σ → ρ ⊕ σ
  | 0, s => .inr s
  | n + 1, s =>
      match round s with
      | .inl r => .inl r
      | .inr s' => rounds round n s'

theorem rounds_succ_of_inl {s : σ} {r : ρ} (h : round s = .inl r) (n : ℕ) :
    rounds round (n + 1) s = .inl r := by
  rw [rounds, h]

theorem rounds_succ_of_inr {s s' : σ} (h : round s = .inr s') (n : ℕ) :
    rounds round (n + 1) s = rounds round n s' := by
  rw [rounds, h]

/-- A loop that stops in its first round stops with the result of that round. -/
theorem exists_rounds_of_inl {s : σ} {r r' : ρ} (h : round s = .inl r') :
    (∃ n, rounds round n s = .inl r) ↔ r' = r := by
  constructor
  · rintro ⟨n, hn⟩
    cases n with
    | zero => cases hn
    | succ n =>
        rw [rounds_succ_of_inl h] at hn
        exact Sum.inl.inj hn
  · intro hr
    exact ⟨1, (rounds_succ_of_inl h 0).trans (congrArg Sum.inl hr)⟩

/-- A loop that goes on after its first round stops as it does from there. -/
theorem exists_rounds_of_inr {s s' : σ} {r : ρ} (h : round s = .inr s') :
    (∃ n, rounds round n s = .inl r) ↔ ∃ n, rounds round n s' = .inl r := by
  constructor
  · rintro ⟨n, hn⟩
    cases n with
    | zero => cases hn
    | succ n => exact ⟨n, (rounds_succ_of_inr h n).symm.trans hn⟩
  · rintro ⟨n, hn⟩
    exact ⟨n + 1, (rounds_succ_of_inr h n).trans hn⟩

/-- A loop that is still going after `m` rounds goes on from where it is. -/
theorem rounds_add {s s' : σ} {m : ℕ} (h : rounds round m s = .inr s') (n : ℕ) :
    rounds round (m + n) s = rounds round n s' := by
  induction m generalizing s with
  | zero =>
      obtain rfl := Sum.inr.inj h
      rw [Nat.zero_add]
  | succ m ih =>
      rw [Nat.succ_add]
      cases hs : round s with
      | inl r => rw [rounds_succ_of_inl hs] at h; cases h
      | inr t =>
          rw [rounds_succ_of_inr hs] at h ⊢
          exact ih h

/-- A round that changes nothing is repeated forever. -/
theorem rounds_of_stuck {s : σ} (h : round s = .inr s) (n : ℕ) : rounds round n s = .inr s := by
  induction n with
  | zero => rfl
  | succ n ih => rw [rounds_succ_of_inr h, ih]

/-- A loop that comes to a round that changes nothing does not stop. -/
theorem rounds_ne_inl_of_stuck {s s' : σ} {m : ℕ} (h : rounds round m s = .inr s')
    (hstuck : round s' = .inr s') (n : ℕ) (r : ρ) : rounds round n s ≠ .inl r := by
  intro hr
  induction m generalizing s n with
  | zero =>
      obtain rfl := Sum.inr.inj h
      rw [rounds_of_stuck hstuck] at hr
      cases hr
  | succ m ih =>
      cases n with
      | zero => cases hr
      | succ n =>
          cases hs : round s with
          | inl r' => rw [rounds_succ_of_inl hs] at h; cases h
          | inr t =>
              rw [rounds_succ_of_inr hs] at h hr
              exact ih h n hr

end Loop
