import Elpytios.Lib.Overlay
import Mathlib.Data.List.Induction

/-!
# The environment of a command

`CommandEnv` is from `std/sys-src/process/env.rs`.  It keeps what is to be changed in the
environment of a command, which `capture` then makes to that of the process.  The process has no
environment on this platform: `env::vars_os` panics there.

Keeping the changes amounts to making them one after the other (`capture_apply`).
-/

namespace Elpytios

open Std (ExtTreeMap)

abbrev EnvKey := String
abbrev OsString := String

structure CommandEnv where
  clear : Bool
  saw_path : Bool
  vars : ExtTreeMap EnvKey (Option OsString)

namespace CommandEnv

def default : CommandEnv := ⟨false, false, ∅⟩

/-- What `env::vars_os` gives, or `none` where it panics, as on this platform. -/
abbrev VarsOs := Option (List (EnvKey × OsString))

/-- `none` is the panic of `vars_os`. -/
def capture (vars_os : VarsOs) (self : CommandEnv) : Option (ExtTreeMap EnvKey OsString) := do
  let result ←
    if self.clear then pure ∅
    else vars_os.map fun vars ↦ vars.foldl (fun result (k, v) ↦ result.insert k v) ∅
  return self.vars.foldl Overlay.change result

def is_unchanged (self : CommandEnv) : Bool := !self.clear && self.vars.isEmpty

def capture_if_changed (vars_os : VarsOs) (self : CommandEnv) :
    Option (Option (ExtTreeMap EnvKey OsString)) :=
  if self.is_unchanged then some none else (self.capture vars_os).map some

def maybe_saw_path (self : CommandEnv) (key : EnvKey) : CommandEnv :=
  if !self.saw_path && key == "PATH" then { self with saw_path := true } else self

def set (self : CommandEnv) (key : EnvKey) (value : OsString) : CommandEnv :=
  let self := self.maybe_saw_path key
  { self with vars := self.vars.insert key (some value) }

def remove (self : CommandEnv) (key : EnvKey) : CommandEnv :=
  let self := self.maybe_saw_path key
  if self.clear then { self with vars := self.vars.erase key }
  else { self with vars := self.vars.insert key none }

/-- `clear`. -/
def clearAll (self : CommandEnv) : CommandEnv := { self with clear := true, vars := ∅ }

def have_changed_path (self : CommandEnv) : Bool := self.saw_path || self.clear

/-- What can be asked for. -/
inductive Change where
  | set (key : EnvKey) (value : OsString)
  | remove (key : EnvKey)
  | clear
deriving DecidableEq, Repr

/-- Keep a change. -/
def apply (self : CommandEnv) : Change → CommandEnv
  | .set key value => self.set key value
  | .remove key => self.remove key
  | .clear => self.clearAll

/-- Make a change to an environment. -/
def Change.make (environment : EnvKey → Option OsString) : Change → EnvKey → Option OsString
  | .set key value => Function.update environment key (some value)
  | .remove key => Function.update environment key none
  | .clear => fun _ ↦ none

/-- A change that a search path may not survive. -/
def Change.ofPath : Change → Bool
  | .set key _ => key == "PATH"
  | .remove key => key == "PATH"
  | .clear => true

/-- The environment that variables make. -/
def environment (vars : List (EnvKey × OsString)) : EnvKey → Option OsString :=
  Overlay.applyAll (vars.map fun kv ↦ (kv.1, some kv.2)) fun _ ↦ none

/-- What the changes that are kept make of an environment. -/
def overlay (self : CommandEnv) (environment : EnvKey → Option OsString) :
    EnvKey → Option OsString :=
  Overlay.overlaid (Overlay.toFun self.vars) (if self.clear then fun _ ↦ none else environment)

/-! ## Changes -/

@[simp] theorem clear_maybe_saw_path (self : CommandEnv) (key : EnvKey) :
    (self.maybe_saw_path key).clear = self.clear := by
  rw [maybe_saw_path]
  split_ifs
  · rfl
  · rfl

@[simp] theorem vars_maybe_saw_path (self : CommandEnv) (key : EnvKey) :
    (self.maybe_saw_path key).vars = self.vars := by
  rw [maybe_saw_path]
  split_ifs
  · rfl
  · rfl

theorem saw_path_maybe_saw_path (self : CommandEnv) (key : EnvKey) :
    (self.maybe_saw_path key).saw_path = (self.saw_path || key == "PATH") := by
  rw [maybe_saw_path]
  rcases hsaw : self.saw_path with - | -
  · rcases hkey : key == "PATH" with - | -
    · exact hsaw
    · rfl
  · exact hsaw

/-- A change that is kept is made after those that were kept before. -/
theorem overlay_apply (self : CommandEnv) (environment : EnvKey → Option OsString)
    (change : Change) :
    (self.apply change).overlay environment = change.make (self.overlay environment) := by
  cases change with
  | set key value =>
      rw [overlay, apply, set, Overlay.toFun_insert, vars_maybe_saw_path, clear_maybe_saw_path,
        Overlay.overlaid_update]
      rfl
  | remove key =>
      rw [overlay, apply, remove, clear_maybe_saw_path, vars_maybe_saw_path]
      split_ifs with hclear
      · rw [Overlay.toFun_erase, Overlay.overlaid_forget _ rfl, Change.make, overlay, if_pos hclear]
      · rw [Overlay.toFun_insert, Overlay.overlaid_update, Change.make, overlay, if_neg hclear]
  | clear =>
      rw [overlay, apply, clearAll, Overlay.toFun_empty]
      rfl

theorem clear_apply (self : CommandEnv) (change : Change) :
    (self.apply change).clear = (self.clear || change == .clear) := by
  cases change with
  | set key value => exact (clear_maybe_saw_path self key).trans (Bool.or_false _).symm
  | remove key =>
      rw [apply, remove]
      split_ifs
      · exact (clear_maybe_saw_path self key).trans (Bool.or_false _).symm
      · exact (clear_maybe_saw_path self key).trans (Bool.or_false _).symm
  | clear => exact (Bool.or_true _).symm

theorem have_changed_path_apply (self : CommandEnv) (change : Change) :
    (self.apply change).have_changed_path = (self.have_changed_path || change.ofPath) := by
  have hkey (key : EnvKey) : (self.maybe_saw_path key).have_changed_path =
      (self.have_changed_path || key == "PATH") := by
    rw [have_changed_path, clear_maybe_saw_path, saw_path_maybe_saw_path, have_changed_path,
      Bool.or_right_comm]
  cases change with
  | set key value => exact hkey key
  | remove key =>
      rw [apply, remove]
      split_ifs
      · exact hkey key
      · exact hkey key
  | clear => exact (Bool.or_true _).trans (Bool.or_true _).symm

/-- No change leaves a `CommandEnv` that looks unchanged. -/
theorem is_unchanged_apply (self : CommandEnv) (change : Change) :
    (self.apply change).is_unchanged = false := by
  have hinsert (self : CommandEnv) (key : EnvKey) (value : Option OsString) :
      is_unchanged { self with vars := self.vars.insert key value } = false := by
    rw [is_unchanged, Std.ExtTreeMap.isEmpty_eq_false_iff.mpr Std.ExtTreeMap.insert_ne_empty,
      Bool.and_false]
  cases change with
  | set key value => exact hinsert (self.maybe_saw_path key) key (some value)
  | remove key =>
      rw [apply, remove]
      split_ifs with hclear
      · rw [is_unchanged, hclear]
        rfl
      · exact hinsert (self.maybe_saw_path key) key none
  | clear => rfl

/-! ## Runs of changes -/

theorem overlay_foldl (changes : List Change) (self : CommandEnv)
    (environment : EnvKey → Option OsString) :
    (changes.foldl apply self).overlay environment =
      changes.foldl Change.make (self.overlay environment) := by
  induction changes generalizing self with
  | nil => rfl
  | cons change changes ih => rw [List.foldl_cons, List.foldl_cons, ih, overlay_apply]

theorem clear_foldl (changes : List Change) (self : CommandEnv) :
    (changes.foldl apply self).clear = (self.clear || changes.any (· == .clear)) := by
  induction changes generalizing self with
  | nil => exact (Bool.or_false _).symm
  | cons change changes ih =>
      rw [List.foldl_cons, ih, clear_apply, Bool.or_assoc, List.any_cons]

theorem have_changed_path_foldl (changes : List Change) (self : CommandEnv) :
    (changes.foldl apply self).have_changed_path =
      (self.have_changed_path || changes.any Change.ofPath) := by
  induction changes generalizing self with
  | nil => exact (Bool.or_false _).symm
  | cons change changes ih =>
      rw [List.foldl_cons, ih, have_changed_path_apply, Bool.or_assoc, List.any_cons]

theorem is_unchanged_foldl (changes : List Change) :
    (changes.foldl apply default).is_unchanged = changes.isEmpty := by
  induction changes using List.reverseRecOn with
  | nil => rfl
  | append_singleton changes change _ =>
      rw [List.foldl_append, List.foldl_cons, List.foldl_nil, is_unchanged_apply]
      have hne : changes ++ [change] ≠ [] :=
        List.append_ne_nil_of_right_ne_nil _ (List.cons_ne_nil change [])
      exact (List.isEmpty_eq_false_iff.mpr hne).symm

/-! ## Capturing -/

theorem toFun_insertAll (vars : List (EnvKey × OsString)) (m : ExtTreeMap EnvKey OsString) :
    Overlay.toFun (vars.foldl (fun result (k, v) ↦ result.insert k v) m) =
      Overlay.applyAll (vars.map fun kv ↦ (kv.1, some kv.2)) (Overlay.toFun m) := by
  induction vars generalizing m with
  | nil => rfl
  | cons kv vars ih =>
      rw [List.foldl_cons, ih, Overlay.toFun_insert]
      rfl

/-- What is captured, unless `vars_os` is asked for and panics. -/
theorem map_capture (vars_os : VarsOs) (self : CommandEnv) :
    (self.capture vars_os).map Overlay.toFun =
      if vars_os.isNone && !self.clear then none
      else some (self.overlay (environment (vars_os.getD []))) := by
  rcases hclear : self.clear with - | -
  · rcases vars_os with - | vars
    · simp [capture, hclear]
    · simp [capture, hclear, overlay, environment, toFun_insertAll, Overlay.toFun_foldl]
  · simp [capture, hclear, overlay, Overlay.toFun_foldl]

theorem capture_if_changed_eq (vars_os : VarsOs) (self : CommandEnv) :
    self.capture_if_changed vars_os = some none ↔ self.is_unchanged = true := by
  rw [capture_if_changed]
  split_ifs with hunchanged
  · exact iff_of_true rfl hunchanged
  · refine iff_of_false (fun h ↦ ?_) hunchanged
    obtain ⟨_, -, h⟩ := Option.map_eq_some_iff.mp h
    cases h

/-- Keeping changes and capturing them later is making them one after the other to the environment
of the process; where there is none, they are captured exactly if it was cleared.  That there was
a change is noticed, and whether one concerned the search path. -/
theorem capture_apply (vars_os : VarsOs) (changes : List Change) :
    let self := changes.foldl apply default
    (self.capture vars_os).map Overlay.toFun =
      (if vars_os.isNone && !changes.any (· == .clear) then none
      else some (changes.foldl Change.make (environment (vars_os.getD [])))) ∧
    (self.capture_if_changed vars_os = some none ↔ changes = []) ∧
    self.have_changed_path = changes.any Change.ofPath := by
  refine ⟨?_, ?_, have_changed_path_foldl changes default⟩
  · rw [map_capture, clear_foldl, overlay_foldl]
    rfl
  · rw [capture_if_changed_eq, is_unchanged_foldl, List.isEmpty_iff]

end CommandEnv

end Elpytios
