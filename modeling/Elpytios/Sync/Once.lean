import Mathlib.Data.List.Basic
import Mathlib.Logic.Function.Basic
import Mathlib.Tactic.Common

/-!
# One-time initialization

`Once` is from `std/sys-src/sync/once/mod.rs`, for a platform without threads.  A function that is
run by `call` may use the same `Once` again, use others, panic and catch panics: it is a
`Program`.  Whatever it does, each `Once` goes through the states of its `Lifetime`
(`exec_lifetime`).
-/

namespace Elpytios

namespace Once

inductive State where
  | Incomplete
  | Poisoned
  | Running
  | Complete
deriving DecidableEq, Repr

structure OnceState where
  poisoned : Bool
  set_state_to : State
deriving DecidableEq, Repr

inductive Outcome where
  | returned
  | panicked
deriving DecidableEq, Repr

/-- What `call` does to a `Once`. -/
inductive Event where
  | /-- The function is run, and told whether the `Once` is poisoned. -/
    began (poisoned : Bool)
  | /-- The guard is dropped. -/
    ended (state : State)
deriving DecidableEq, Repr

variable {ι : Type} [DecidableEq ι]

/-- The states of all `Once`s, and what has been done to them. -/
structure World (ι : Type) where
  state : ι → State
  log : List (ι × Event)

/-- Set the state of a `Once`. -/
def World.set (w : World ι) (once : ι) (state : State) (event : Event) : World ι where
  state := Function.update w.state once state
  log := w.log ++ [(once, event)]

def is_completed (once : ι) (w : World ι) : Bool := w.state once = .Complete

/-- What a function does to the `OnceState` it is given and to the world. -/
abbrev Closure (ι : Type) := OnceState → World ι → Outcome × OnceState × World ι

/-- What the guard sets on drop. -/
def set_state_on_drop_to (outcome : Outcome) (self : OnceState) : State :=
  match outcome with
  | .returned => self.set_state_to
  | .panicked => .Poisoned

def call (once : ι) (ignore_poisoning : Bool) (f : Closure ι) (w : World ι) : Outcome × World ι :=
  let state := w.state once
  if state = .Poisoned ∧ !ignore_poisoning then (.panicked, w)
  else
    match state with
    | .Incomplete | .Poisoned =>
        let poisoned := decide (state = .Poisoned)
        let r := f ⟨poisoned, .Complete⟩ (w.set once .Running (.began poisoned))
        let state := set_state_on_drop_to r.1 r.2.1
        (r.1, r.2.2.set once state (.ended state))
    | .Running => (.panicked, w)
    | .Complete => (.returned, w)

/-- `wait` is not implementable without threads. -/
def wait (w : World ι) : Outcome × World ι := (.panicked, w)

/-- What a function may do. -/
inductive Program (ι : Type) where
  | done
  | panic
  | call (once : ι) (ignore_poisoning : Bool) (f next : Program ι)
  | wait (once : ι)
  | is_completed (once : ι) (yes no : Program ι)
  | /-- Ask the `OnceState` that was given. -/
    is_poisoned (yes no : Program ι)
  | /-- Poison the `Once` that the function is run by. -/
    poison (next : Program ι)
  | catch_unwind (body next : Program ι)

def exec : Program ι → Closure ι
  | .done, self, w => (.returned, self, w)
  | .panic, self, w => (.panicked, self, w)
  | .call once ignore_poisoning f next, self, w =>
      match Once.call once ignore_poisoning (exec f) w with
      | (.returned, w) => exec next self w
      | (.panicked, w) => (.panicked, self, w)
  | .wait _, self, w => ((Once.wait w).1, self, (Once.wait w).2)
  | .is_completed once yes no, self, w =>
      if Once.is_completed once w then exec yes self w else exec no self w
  | .is_poisoned yes no, self, w => if self.poisoned then exec yes self w else exec no self w
  | .poison next, self, w => exec next { self with set_state_to := .Poisoned } w
  | .catch_unwind body next, self, w =>
      let r := exec body self w
      exec next r.2.1 r.2.2

/-! ## Lifetimes -/

/-- What can happen to a `Once`, from a state to a state. -/
inductive Lifetime : State → List Event → State → Prop
  | nil {state : State} : Lifetime state [] state
  | /-- A function is run for the first time. -/
    first {events : List Event} {state : State} (h : Lifetime .Running events state) :
      Lifetime .Incomplete (.began false :: events) state
  | /-- A function is run after one that failed. -/
    again {events : List Event} {state : State} (h : Lifetime .Running events state) :
      Lifetime .Poisoned (.began true :: events) state
  | complete {events : List Event} {state : State} (h : Lifetime .Complete events state) :
      Lifetime .Running (.ended .Complete :: events) state
  | fail {events : List Event} {state : State} (h : Lifetime .Poisoned events state) :
      Lifetime .Running (.ended .Poisoned :: events) state

theorem Lifetime.append {s s₁ s' : State} {events events' : List Event} (h : Lifetime s events s₁)
    (h' : Lifetime s₁ events' s') : Lifetime s (events ++ events') s' := by
  induction h with
  | nil => exact h'
  | first _ ih => exact .first (ih h')
  | again _ ih => exact .again (ih h')
  | complete _ ih => exact .complete (ih h')
  | fail _ ih => exact .fail (ih h')

/-- Nothing happens to a `Once` that is complete. -/
theorem Lifetime.of_complete {events : List Event} {s' : State} (h : Lifetime .Complete events s') :
    events = [] ∧ s' = .Complete := by
  cases h
  exact ⟨rfl, rfl⟩

/-- A `Once` is completed once at most. -/
theorem Lifetime.count_le_one {s s' : State} {events : List Event} (h : Lifetime s events s') :
    events.count (.ended .Complete) ≤ 1 := by
  induction h with
  | nil => exact Nat.zero_le _
  | first _ ih => rwa [List.count_cons_of_ne (by decide)]
  | again _ ih => rwa [List.count_cons_of_ne (by decide)]
  | complete h _ => exact h.of_complete.1 ▸ Nat.le_refl 1
  | fail _ ih => rwa [List.count_cons_of_ne (by decide)]

/-- After it is completed, nothing happens to it. -/
theorem Lifetime.eq_nil_of_complete {s s' : State} {before after : List Event}
    (h : Lifetime s (before ++ .ended .Complete :: after) s') : after = [] := by
  generalize hevents : before ++ .ended .Complete :: after = events at h
  induction h generalizing before with
  | nil => exact absurd hevents (by simp)
  | first _ ih =>
      rcases before with - | ⟨event, before⟩
      · cases hevents
      · exact ih (List.cons.inj hevents).2
  | again _ ih =>
      rcases before with - | ⟨event, before⟩
      · cases hevents
      · exact ih (List.cons.inj hevents).2
  | complete h ih =>
      rcases before with - | ⟨event, before⟩
      · exact (List.cons.inj hevents).2.trans h.of_complete.1
      · exact ih (List.cons.inj hevents).2
  | fail _ ih =>
      rcases before with - | ⟨event, before⟩
      · cases hevents
      · exact ih (List.cons.inj hevents).2

/-- It is complete if it was, or if it was completed. -/
theorem Lifetime.complete_iff {s s' : State} {events : List Event} (h : Lifetime s events s') :
    s' = .Complete ↔ s = .Complete ∨ .ended .Complete ∈ events := by
  induction h with
  | nil => simp
  | first _ ih => simp [ih]
  | again _ ih => simp [ih]
  | complete h _ => simp [h.of_complete.2]
  | fail _ ih => simp [ih]

/-! ## Programs -/

def eventsOf (once : ι) (log : List (ι × Event)) : List Event :=
  (log.filter (·.1 = once)).map Prod.snd

theorem eventsOf_append (once : ι) (log log' : List (ι × Event)) :
    eventsOf once (log ++ log') = eventsOf once log ++ eventsOf once log' := by
  rw [eventsOf, List.filter_append, List.map_append]
  rfl

theorem eventsOf_self (once : ι) (event : Event) : eventsOf once [(once, event)] = [event] := by
  rw [eventsOf, List.filter_cons_of_pos (by simp)]
  rfl

theorem eventsOf_of_ne {once once' : ι} (h : once' ≠ once) (event : Event) :
    eventsOf once [(once', event)] = [] := by
  rw [eventsOf, List.filter_cons_of_neg (by simpa using h)]
  rfl

/-- What happens to a `Once` between two worlds, with what is logged.  One that is running is left
alone, and one that is not is not left running. -/
structure Follows (w w' : World ι) (log : List (ι × Event)) (once : ι) : Prop where
  lifetime : Lifetime (w.state once) (eventsOf once log) (w'.state once)
  running : w.state once = .Running → eventsOf once log = []
  idle : w.state once ≠ .Running → w'.state once ≠ .Running

/-- What happens between two worlds. -/
def Leads (w w' : World ι) : Prop :=
  ∃ log, w'.log = w.log ++ log ∧ ∀ once, Follows w w' log once

theorem Follows.state_eq {w w' : World ι} {log : List (ι × Event)} {once : ι}
    (h : Follows w w' log once) (hrunning : w.state once = .Running) : w'.state once = .Running := by
  have hlifetime := h.lifetime
  rw [h.running hrunning, hrunning] at hlifetime
  generalize w'.state once = s' at hlifetime
  cases hlifetime
  rfl

theorem Leads.refl (w : World ι) : Leads w w :=
  ⟨[], (List.append_nil _).symm, fun _ ↦ ⟨.nil, fun _ ↦ rfl, id⟩⟩

theorem Leads.trans {w w₁ w' : World ι} (h : Leads w w₁) (h' : Leads w₁ w') : Leads w w' := by
  obtain ⟨log, hlog, h⟩ := h
  obtain ⟨log', hlog', h'⟩ := h'
  refine ⟨log ++ log', by rw [hlog', hlog, List.append_assoc], fun once ↦ ⟨?_, fun hrunning ↦ ?_,
    fun hidle ↦ (h' once).idle ((h once).idle hidle)⟩⟩
  · rw [eventsOf_append]
    exact (h once).lifetime.append (h' once).lifetime
  · rw [eventsOf_append, (h once).running hrunning,
      (h' once).running ((h once).state_eq hrunning)]
    rfl

/-- What a function does that can be run by `call`. -/
structure Closure.Good (f : Closure ι) : Prop where
  leads : ∀ self w, Leads w (f self w).2.2
  set_state_to : ∀ self w,
    (f self w).2.1.set_state_to = self.set_state_to ∨ (f self w).2.1.set_state_to = .Poisoned

theorem Closure.Good.set_state_on_drop_to {f : Closure ι} (hf : f.Good) (poisoned : Bool)
    (w : World ι) :
    let r := f ⟨poisoned, .Complete⟩ w
    Once.set_state_on_drop_to r.1 r.2.1 = .Complete ∨
      Once.set_state_on_drop_to r.1 r.2.1 = .Poisoned := by
  intro r
  rcases r.1 with - | -
  · exact hf.set_state_to ⟨poisoned, .Complete⟩ w
  · exact Or.inr rfl

/-- From the beginning of a function to its end. -/
theorem leads_set {w w' : World ι} {once : ι} {poisoned : Bool} {state : State}
    (hw : poisoned = false ∧ w.state once = .Incomplete ∨ poisoned = true ∧ w.state once = .Poisoned)
    (hstate : state = .Complete ∨ state = .Poisoned)
    (h : Leads (w.set once .Running (.began poisoned)) w') :
    Leads w (w'.set once state (.ended state)) := by
  obtain ⟨log, hlog, h⟩ := h
  refine ⟨[(once, .began poisoned)] ++ log ++ [(once, .ended state)], ?_, fun other ↦ ?_⟩
  · rw [World.set, hlog, World.set, List.append_assoc, List.append_assoc, List.append_assoc]
  · have hfollows := h other
    by_cases hother : once = other
    · subst hother
      have hrunning : (w.set once .Running (.began poisoned)).state once = .Running :=
        Function.update_self ..
      have hevents : eventsOf once ([(once, Event.began poisoned)] ++ log ++ [(once, .ended state)]) =
          [.began poisoned, .ended state] := by
        rw [eventsOf_append, eventsOf_append, eventsOf_self, eventsOf_self,
          hfollows.running hrunning]
        rfl
      have hstate' : (w'.set once state (.ended state)).state once = state :=
        Function.update_self ..
      have hended : Lifetime .Running [.ended state] state := by
        rcases hstate with rfl | rfl
        · exact .complete .nil
        · exact .fail .nil
      refine ⟨?_, fun hrun ↦ ?_, fun _ ↦ ?_⟩
      · rw [hevents, hstate']
        rcases hw with ⟨rfl, hw⟩ | ⟨rfl, hw⟩
        · exact hw ▸ .first hended
        · exact hw ▸ .again hended
      · rcases hw with ⟨-, hw⟩ | ⟨-, hw⟩
        · cases hrun.symm.trans hw
        · cases hrun.symm.trans hw
      · rw [hstate']
        rcases hstate with rfl | rfl
        · decide
        · decide
    · have hbefore : (w.set once .Running (.began poisoned)).state other = w.state other :=
        Function.update_of_ne (Ne.symm hother) ..
      have hafter : (w'.set once state (.ended state)).state other = w'.state other :=
        Function.update_of_ne (Ne.symm hother) ..
      have hevents : eventsOf other
          ([(once, Event.began poisoned)] ++ log ++ [(once, .ended state)]) =
          eventsOf other log := by
        rw [eventsOf_append, eventsOf_append, eventsOf_of_ne hother, eventsOf_of_ne hother,
          List.nil_append, List.append_nil]
      obtain ⟨hlifetime, hrunning, hidle⟩ := hfollows
      rw [hbefore] at hlifetime hrunning hidle
      rw [← hevents] at hlifetime hrunning
      rw [← hafter] at hlifetime hidle
      exact ⟨hlifetime, hrunning, hidle⟩

theorem leads_call {f : Closure ι} (hf : f.Good) (once : ι) (ignore_poisoning : Bool) (w : World ι) :
    Leads w (call once ignore_poisoning f w).2 := by
  rw [call]
  split_ifs with hpoisoned
  · exact Leads.refl w
  · rcases hstate : w.state once with - | - | - | -
    · exact leads_set (Or.inl ⟨rfl, hstate⟩) (hf.set_state_on_drop_to _ _) (hf.leads _ _)
    · exact leads_set (Or.inr ⟨rfl, hstate⟩) (hf.set_state_on_drop_to _ _) (hf.leads _ _)
    · exact Leads.refl w
    · exact Leads.refl w

theorem good_exec (p : Program ι) : Closure.Good (exec p) := by
  induction p with
  | done => exact ⟨fun _ w ↦ Leads.refl w, fun _ _ ↦ Or.inl rfl⟩
  | panic => exact ⟨fun _ w ↦ Leads.refl w, fun _ _ ↦ Or.inl rfl⟩
  | call once ignore_poisoning f next ihf ihnext =>
      have hcall := leads_call ihf once ignore_poisoning
      refine ⟨fun self w ↦ ?_, fun self w ↦ ?_⟩
      · have hleads := hcall w
        rw [exec]
        rcases hr : Once.call once ignore_poisoning (exec f) w with ⟨- | -, w'⟩
        · rw [hr] at hleads
          exact hleads.trans (ihnext.leads self w')
        · rw [hr] at hleads
          exact hleads
      · rw [exec]
        rcases Once.call once ignore_poisoning (exec f) w with ⟨- | -, w'⟩
        · exact ihnext.set_state_to self w'
        · exact Or.inl rfl
  | wait once => exact ⟨fun _ w ↦ Leads.refl w, fun _ _ ↦ Or.inl rfl⟩
  | is_completed once yes no ihyes ihno =>
      refine ⟨fun self w ↦ ?_, fun self w ↦ ?_⟩
      · rw [exec]
        split_ifs
        · exact ihyes.leads self w
        · exact ihno.leads self w
      · rw [exec]
        split_ifs
        · exact ihyes.set_state_to self w
        · exact ihno.set_state_to self w
  | is_poisoned yes no ihyes ihno =>
      refine ⟨fun self w ↦ ?_, fun self w ↦ ?_⟩
      · rw [exec]
        split_ifs
        · exact ihyes.leads self w
        · exact ihno.leads self w
      · rw [exec]
        split_ifs
        · exact ihyes.set_state_to self w
        · exact ihno.set_state_to self w
  | poison next ih =>
      exact ⟨fun _ w ↦ ih.leads _ w, fun _ w ↦ Or.inr ((ih.set_state_to _ w).elim id id)⟩
  | catch_unwind body next ihbody ihnext =>
      refine ⟨fun self w ↦ (ihbody.leads self w).trans (ihnext.leads _ _), fun self w ↦ ?_⟩
      rcases ihnext.set_state_to (exec body self w).2.1 (exec body self w).2.2 with h | h
      · rcases ihbody.set_state_to self w with h' | h'
        · exact Or.inl (h.trans h')
        · exact Or.inr (h.trans h')
      · exact Or.inr h

/-! ## What programs can rely on -/

/-- A `Once` whose function returns without poisoning it is complete then. -/
theorem call_returned {f : Closure ι} {once : ι} {ignore_poisoning : Bool} {w w' : World ι}
    (hf : ∀ self w, (f self w).2.1.set_state_to = self.set_state_to)
    (h : call once ignore_poisoning f w = (.returned, w')) : w'.state once = .Complete := by
  have hran (self : OnceState) (w₀ : World ι) (hself : self.set_state_to = .Complete)
      (h : ((f self w₀).1, (f self w₀).2.2.set once
        (set_state_on_drop_to (f self w₀).1 (f self w₀).2.1)
        (.ended (set_state_on_drop_to (f self w₀).1 (f self w₀).2.1))) = (.returned, w')) :
      w'.state once = .Complete := by
    obtain ⟨hreturned, rfl⟩ := Prod.mk.inj h
    refine (Function.update_self ..).trans ?_
    rw [hreturned]
    exact (hf self w₀).trans hself
  rw [call] at h
  split_ifs at h with hpoisoned
  · cases h
  · rcases hstate : w.state once with - | - | - | -
    · rw [hstate] at h
      exact hran _ _ rfl h
    · rw [hstate] at h
      exact hran _ _ rfl h
    · rw [hstate] at h
      cases h
    · rw [hstate] at h
      cases h
      exact hstate

/-- Whatever programs do, each `Once` goes through its lifetime.  Only one that is not complete is
ever run, with the poison of the last time; it is completed once at most, after which nothing
happens to it; and none is left running. -/
theorem exec_lifetime (p : Program ι) (self : OnceState) (w : World ι)
    (hw : ∀ once, w.state once ≠ .Running) :
    ∃ log, (exec p self w).2.2.log = w.log ++ log ∧ ∀ once,
      Lifetime (w.state once) (eventsOf once log) ((exec p self w).2.2.state once) ∧
      (exec p self w).2.2.state once ≠ .Running ∧
      (eventsOf once log).count (.ended .Complete) ≤ 1 ∧
      (∀ before after, eventsOf once log = before ++ .ended .Complete :: after → after = []) ∧
      (is_completed once (exec p self w).2.2 = true ↔
        is_completed once w = true ∨ .ended .Complete ∈ eventsOf once log) := by
  obtain ⟨log, hlog, h⟩ := (good_exec p).leads self w
  refine ⟨log, hlog, fun once ↦ ?_⟩
  have hlifetime := (h once).lifetime
  refine ⟨hlifetime, (h once).idle (hw once), hlifetime.count_le_one,
    fun before after hevents ↦ ?_, ?_⟩
  · rw [hevents] at hlifetime
    exact hlifetime.eq_nil_of_complete
  · rw [is_completed, is_completed, decide_eq_true_iff, decide_eq_true_iff]
    exact hlifetime.complete_iff

/-- A function that uses its own `Once` panics, which poisons it; the next function is told. -/
theorem exec_lifetime_recursive :
    let p : Program Unit := .catch_unwind (.call () false (.call () false .done .done) .done)
      (.call () true .done .done)
    let w : World Unit := ⟨fun _ ↦ .Incomplete, []⟩
    (∀ once, w.state once ≠ .Running) ∧
    ∃ log, (exec p ⟨false, .Complete⟩ w).2.2.log = w.log ++ log ∧
      Lifetime .Incomplete (eventsOf () log) ((exec p ⟨false, .Complete⟩ w).2.2.state ()) ∧
      eventsOf () log =
        [.began false, .ended .Poisoned, .began true, .ended .Complete] := by
  intro p w
  have hw : ∀ once, w.state once ≠ .Running := fun _ ↦ State.noConfusion
  obtain ⟨log, hlog, h⟩ := exec_lifetime p ⟨false, .Complete⟩ w hw
  refine ⟨hw, log, hlog, (h ()).1, ?_⟩
  rw [← List.nil_append log, ← show w.log = [] from rfl, ← hlog]
  decide

end Once

end Elpytios
