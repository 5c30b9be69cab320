import Elpytios.Lib.Simulation
import Mathlib.Algebra.Order.Ring.Int

/-!
# Locks without threads

`RwLock` and `Mutex` are from `std/sys-src/sync/`, for a platform without threads.  A lock that
is taken gives a guard, and is unlocked when the guard is dropped; that is the contract of the
`unlock` functions.  The lock itself only has a number.

In every run the number counts the guards, so that the lock answers by the guards that are held
(`run_rwLock`, `run_mutex`).
-/

namespace Elpytios

open Simulation

def ISIZE_MAX : ℤ := 2 ^ 63 - 1

/-- Wrapping subtraction of `isize`. -/
def isizeSub (a b : ℤ) : ℤ := (a - b).bmod (2 ^ 64)

/-- What a function of a lock does. -/
inductive Outcome where
  | returned (result : Bool)
  | panicked
  | aborted
deriving DecidableEq, Repr

/-- What a guard is told when it asks for the lock, or gives it back. -/
inductive LockAnswer where
  | acquired
  | refused
  | released
  | panicked
  | aborted
deriving DecidableEq, Repr

/-- A lock and the guards that are held. -/
structure Locked (Lock Guard : Type) where
  lock : Lock
  guards : List Guard
deriving DecidableEq, Repr

namespace Locked

variable {Lock Guard : Type}

/-- There is a guard if the lock says so. -/
def acquire (guard : Guard) (guards : List Guard) : Outcome × Lock → LockAnswer × Locked Lock Guard
  | (.returned true, lock) => (.acquired, ⟨lock, guard :: guards⟩)
  | (.returned false, lock) => (.refused, ⟨lock, guards⟩)
  | (.panicked, lock) => (.panicked, ⟨lock, guards⟩)
  | (.aborted, lock) => (.aborted, ⟨lock, guards⟩)

/-- A guard is no more, whatever the lock says. -/
def release (guards : List Guard) : Outcome × Lock → LockAnswer × Locked Lock Guard
  | (.returned _, lock) => (.released, ⟨lock, guards⟩)
  | (.panicked, lock) => (.panicked, ⟨lock, guards⟩)
  | (.aborted, lock) => (.aborted, ⟨lock, guards⟩)

end Locked

namespace RwLock

def new : ℤ := 0

def read (mode : ℤ) : Outcome × ℤ :=
  if mode ≥ 0 then if mode = ISIZE_MAX then (.panicked, mode) else (.returned true, mode + 1)
  else (.aborted, mode)

def try_read (mode : ℤ) : Outcome × ℤ :=
  if mode ≥ 0 then if mode = ISIZE_MAX then (.returned false, mode) else (.returned true, mode + 1)
  else (.returned false, mode)

def write (mode : ℤ) : Outcome × ℤ :=
  if mode = 0 then (.returned true, -1) else (.aborted, mode)

def try_write (mode : ℤ) : Outcome × ℤ :=
  if mode = 0 then (.returned true, -1) else (.returned false, mode)

def read_unlock (mode : ℤ) : Outcome × ℤ :=
  (if mode > 0 then .returned true else .panicked, isizeSub mode 1)

def write_unlock (mode : ℤ) : Outcome × ℤ := (if mode = -1 then .returned true else .panicked, 0)

def downgrade (mode : ℤ) : Outcome × ℤ := (if mode = -1 then .returned true else .panicked, 1)

inductive Guard where
  | read
  | write
deriving DecidableEq, Repr

inductive Op where
  | read
  | try_read
  | write
  | try_write
  | unlock (guard : Guard)
  | downgrade
deriving DecidableEq, Repr

def unlock : Guard → ℤ → Outcome × ℤ
  | .read => read_unlock
  | .write => write_unlock

/-- What an operation does, if there is the guard for it. -/
def operate (w : Locked ℤ Guard) : Op → Option (LockAnswer × Locked ℤ Guard)
  | .read => some (Locked.acquire .read w.guards (read w.lock))
  | .try_read => some (Locked.acquire .read w.guards (try_read w.lock))
  | .write => some (Locked.acquire .write w.guards (write w.lock))
  | .try_write => some (Locked.acquire .write w.guards (try_write w.lock))
  | .unlock guard =>
      if guard ∈ w.guards then some (Locked.release (w.guards.erase guard) (unlock guard w.lock))
      else none
  | .downgrade =>
      if .write ∈ w.guards then
        some (Locked.release (.read :: w.guards.erase .write) (downgrade w.lock))
      else none

def operations : Steps (Locked ℤ Guard) Op LockAnswer := fun w op answer w' ↦
  operate w op = some (answer, w')

/-- What guards are told, by the guards that are held. -/
def expected (guards : List Guard) : Op → LockAnswer
  | .read =>
      if .write ∈ guards then .aborted
      else if guards.length = ISIZE_MAX then .panicked
      else .acquired
  | .try_read => if .write ∈ guards ∨ guards.length = ISIZE_MAX then .refused else .acquired
  | .write => if guards = [] then .acquired else .aborted
  | .try_write => if guards = [] then .acquired else .refused
  | .unlock _ => .released
  | .downgrade => .released

/-- The lock counts the readers, or there is one writer. -/
inductive Counts : Locked ℤ Guard → Prop
  | readers (n : ℕ) (hn : n ≤ ISIZE_MAX) : Counts ⟨n, List.replicate n .read⟩
  | writer : Counts ⟨-1, [.write]⟩

theorem notMem_replicate (n : ℕ) : Guard.write ∉ List.replicate n Guard.read := fun h ↦ by
  cases List.eq_of_mem_replicate h

theorem isizeSub_one {n : ℕ} (hn : (n + 1 : ℕ) ≤ ISIZE_MAX) : isizeSub (n + 1 : ℕ) 1 = n := by
  rw [isizeSub, Nat.cast_succ, add_sub_cancel_right]
  refine Int.bmod_eq_of_le ?_ ?_
  · omega
  · rw [ISIZE_MAX] at hn
    omega

theorem write_succ (n : ℕ) : write (n + 1 : ℕ) = (.aborted, ((n + 1 : ℕ) : ℤ)) :=
  if_neg (by omega)

theorem try_write_succ (n : ℕ) : try_write (n + 1 : ℕ) = (.returned false, ((n + 1 : ℕ) : ℤ)) :=
  if_neg (by omega)

theorem read_unlock_succ {n : ℕ} (hn : (n + 1 : ℕ) ≤ ISIZE_MAX) :
    read_unlock (n + 1 : ℕ) = (.returned true, (n : ℤ)) := by
  rw [read_unlock, if_pos (by omega), isizeSub_one hn]

/-- An operation answers by the guards, and keeps the count. -/
theorem counts_of_operations {w w' : Locked ℤ Guard} {op : Op} {answer : LockAnswer} (h : Counts w)
    (hop : operations w op answer w') : Counts w' ∧ answer = expected w.guards op := by
  rw [operations] at hop
  cases h with
  | readers n hn =>
      have hwrite := notMem_replicate n
      cases op with
      | read =>
          rw [expected, if_neg hwrite, List.length_replicate]
          dsimp only [operate] at hop
          rw [read, if_pos (Int.natCast_nonneg n)] at hop
          split_ifs at hop with hmax
          · cases hop
            exact ⟨.readers n hn, (if_pos hmax).symm⟩
          · cases hop
            exact ⟨.readers (n + 1) (by omega), (if_neg hmax).symm⟩
      | try_read =>
          rw [expected, List.length_replicate]
          dsimp only [operate] at hop
          rw [try_read, if_pos (Int.natCast_nonneg n)] at hop
          split_ifs at hop with hmax
          · cases hop
            exact ⟨.readers n hn, (if_pos (Or.inr hmax)).symm⟩
          · cases hop
            exact ⟨.readers (n + 1) (by omega), (if_neg (not_or.mpr ⟨hwrite, hmax⟩)).symm⟩
      | write =>
          rcases n with - | n
          · cases hop
            exact ⟨.writer, rfl⟩
          · dsimp only [operate] at hop
            rw [write_succ] at hop
            cases hop
            exact ⟨.readers (n + 1) hn, rfl⟩
      | try_write =>
          rcases n with - | n
          · cases hop
            exact ⟨.writer, rfl⟩
          · dsimp only [operate] at hop
            rw [try_write_succ] at hop
            cases hop
            exact ⟨.readers (n + 1) hn, rfl⟩
      | unlock guard =>
          dsimp only [operate] at hop
          split_ifs at hop with hguard
          obtain rfl := List.eq_of_mem_replicate hguard
          obtain ⟨n, rfl⟩ := Nat.exists_eq_succ_of_ne_zero (List.mem_replicate.mp hguard).1
          rw [unlock, read_unlock_succ hn, List.replicate_succ, List.erase_cons_head] at hop
          cases hop
          exact ⟨.readers n (by omega), rfl⟩
      | downgrade =>
          dsimp only [operate] at hop
          rw [if_neg hwrite] at hop
          cases hop
  | writer =>
      cases op with
      | read => cases hop; exact ⟨.writer, rfl⟩
      | try_read => cases hop; exact ⟨.writer, rfl⟩
      | write => cases hop; exact ⟨.writer, rfl⟩
      | try_write => cases hop; exact ⟨.writer, rfl⟩
      | unlock guard =>
          cases guard with
          | read => cases hop
          | write => cases hop; exact ⟨.readers 0 (by decide), rfl⟩
      | downgrade => cases hop; exact ⟨.readers 1 (by decide), rfl⟩

/-- In every run a writer is alone, the readers do not overflow the count, and who asks for the lock
or gives it back is told what follows from the guards that are held: no guard is given back in
vain, and the count goes wrong for nobody. -/
theorem run_rwLock {events : List (Op × LockAnswer)} {w : Locked ℤ Guard}
    (hrun : Run operations ⟨new, []⟩ events w) :
    (.write ∈ w.guards → w.guards = [.write]) ∧ w.guards.length ≤ ISIZE_MAX ∧
    ∀ op answer w', operations w op answer w' → answer = expected w.guards op := by
  have hcounts : Counts w :=
    hrun.invariant (fun h hop ↦ (counts_of_operations h hop).1) (.readers 0 (by decide))
  refine ⟨fun hwrite ↦ ?_, ?_, fun op answer w' hop ↦ (counts_of_operations hcounts hop).2⟩
  · cases hcounts with
    | readers n hn => exact absurd hwrite (notMem_replicate n)
    | writer => rfl
  · cases hcounts with
    | readers n hn => rwa [List.length_replicate]
    | writer => decide

/-- Two readers, and then a writer that becomes a reader. -/
theorem run_rwLock_downgrade :
    ∃ w, Run operations ⟨new, []⟩
      [(.read, .acquired), (.try_read, .acquired), (.try_write, .refused), (.unlock .read, .released),
        (.unlock .read, .released), (.write, .acquired), (.downgrade, .released)] w ∧
      w.guards = [.read] ∧
      ∀ answer w', operations w .try_write answer w' → answer = .refused :=
  have hrun : Run operations ⟨new, []⟩
      [(.read, .acquired), (.try_read, .acquired), (.try_write, .refused), (.unlock .read, .released),
        (.unlock .read, .released), (.write, .acquired), (.downgrade, .released)] ⟨1, [.read]⟩ :=
    .cons rfl (.cons rfl (.cons rfl (.cons rfl (.cons rfl (.cons rfl (.cons rfl .nil))))))
  ⟨_, hrun, rfl, (run_rwLock hrun).2.2 .try_write⟩

end RwLock

namespace Mutex

def new : Bool := false

def lock (locked : Bool) : Outcome × Bool :=
  (if locked = false then .returned true else .panicked, true)

def unlock (_ : Bool) : Outcome × Bool := (.returned true, false)

def try_lock (locked : Bool) : Outcome × Bool := (.returned (!locked), true)

inductive Op where
  | lock
  | try_lock
  | unlock
deriving DecidableEq, Repr

def operate (w : Locked Bool Unit) : Op → Option (LockAnswer × Locked Bool Unit)
  | .lock => some (Locked.acquire () w.guards (lock w.lock))
  | .try_lock => some (Locked.acquire () w.guards (try_lock w.lock))
  | .unlock =>
      if () ∈ w.guards then some (Locked.release (w.guards.erase ()) (unlock w.lock)) else none

def operations : Steps (Locked Bool Unit) Op LockAnswer := fun w op answer w' ↦
  operate w op = some (answer, w')

def expected (guards : List Unit) : Op → LockAnswer
  | .lock => if guards = [] then .acquired else .panicked
  | .try_lock => if guards = [] then .acquired else .refused
  | .unlock => .released

/-- There is one guard if the mutex is locked. -/
inductive Counts : Locked Bool Unit → Prop
  | unlocked : Counts ⟨false, []⟩
  | locked : Counts ⟨true, [()]⟩

theorem counts_of_operations {w w' : Locked Bool Unit} {op : Op} {answer : LockAnswer}
    (h : Counts w) (hop : operations w op answer w') :
    Counts w' ∧ answer = expected w.guards op := by
  rw [operations] at hop
  cases h with
  | unlocked =>
      cases op with
      | lock => cases hop; exact ⟨.locked, rfl⟩
      | try_lock => cases hop; exact ⟨.locked, rfl⟩
      | unlock => cases hop
  | locked =>
      cases op with
      | lock => cases hop; exact ⟨.locked, rfl⟩
      | try_lock => cases hop; exact ⟨.locked, rfl⟩
      | unlock => cases hop; exact ⟨.unlocked, rfl⟩

/-- In every run there is one guard at most, and the mutex answers by it. -/
theorem run_mutex {events : List (Op × LockAnswer)} {w : Locked Bool Unit}
    (hrun : Run operations ⟨new, []⟩ events w) :
    w.guards.length ≤ 1 ∧
    ∀ op answer w', operations w op answer w' → answer = expected w.guards op := by
  have hcounts : Counts w := hrun.invariant (fun h hop ↦ (counts_of_operations h hop).1) .unlocked
  refine ⟨?_, fun op answer w' hop ↦ (counts_of_operations hcounts hop).2⟩
  cases hcounts with
  | unlocked => decide
  | locked => decide

end Mutex

end Elpytios
