import Elpytios.Lib.Ownership
import Elpytios.Lib.Simulation

/-!
# Thread-local values that are made on first use

`LazyStorage` is from `std/sys-src/thread_local/mod.rs`, for a platform without threads.  The
initializer of a value and its destructor are not the storage's own code: they may use the
storage again, and they may panic.  So an activation of `initialize` waits on a stack while they
run, and what comes next is a `Move` of theirs.

Whatever they do, no value is lost, dropped twice or used after it was dropped
(`run_lazyStorage`).
-/

namespace Elpytios

open Simulation

namespace LazyStorage

inductive State where
  | Initial
  | Alive
  | Destroying
deriving DecidableEq, Repr

/-- Where an activation of `initialize` waits for code that is not its own. -/
inductive Frame (T : Type) where
  | /-- The initializer runs. -/
    init
  | /-- The old value is dropped, before the new one is stored. -/
    destroy (value : T)
  | /-- The new value is dropped, while a panic unwinds. -/
    unwind (value : T)
deriving DecidableEq, Repr

/-- The storage and the activations that wait, the last first, with the values that were handed
to them and those whose destructor was run. -/
structure World (T : Type) where
  state : State
  value : Option T
  frames : List (Frame T)
  made : List T
  dropped : List T
deriving DecidableEq, Repr

/-- What a move leads to. -/
inductive Answer (T : Type) where
  | /-- An initializer or a destructor is run. -/
    running
  | /-- A call of `get` returns a pointer, to what is stored. -/
    pointer (value : Option T)
  | /-- A call of `get` unwinds. -/
    panicked
deriving DecidableEq, Repr

variable {T : Type}

def new : World T := ⟨.Initial, none, [], [], []⟩

/-- `initialize` after the old value is destroyed. -/
def write (value : T) (w : World T) : Answer T × World T :=
  if w.state = .Destroying then
    (.running, { w with frames := .unwind value :: w.frames, dropped := value :: w.dropped })
  else (.pointer (some value), { w with value := some value, state := .Alive })

/-- `initialize` after `i.and_then(Option::take).unwrap_or_else(f)`. -/
def initializeWith (value : T) (w : World T) : Answer T × World T :=
  let w := { w with made := value :: w.made }
  if w.state = .Alive then
    (.running, { w with
      state := .Destroying
      frames := .destroy value :: w.frames
      dropped := w.value.toList ++ w.dropped })
  else write value w

/-- `initialize`. -/
def lazyInitialize (i : Option (Option T)) (w : World T) : Answer T × World T :=
  match i.join with
  | some value => initializeWith value w
  | none => (.running, { w with frames := .init :: w.frames })

def get (i : Option (Option T)) (w : World T) : Answer T × World T :=
  if w.state = .Alive then (.pointer w.value, w) else lazyInitialize i w

/-- What code outside the storage does next. -/
inductive Move (T : Type) where
  | get (i : Option (Option T))
  | /-- The initializer returns. -/
    make (value : T)
  | /-- A destructor returns. -/
    done
  | panic
deriving DecidableEq, Repr

section

variable [DecidableEq T]

/-- What a move does, if the code that runs can make it.  A value that is handed over is a new
one.  A panic in a destructor that is run while a panic unwinds aborts. -/
def move (w : World T) : Move T → Option (Answer T × World T)
  | .get i => if ∀ value ∈ i.join, value ∉ w.made then some (get i w) else none
  | .make value =>
      match w.frames with
      | .init :: frames =>
          if value ∈ w.made then none else some (initializeWith value { w with frames })
      | _ => none
  | .done =>
      match w.frames with
      | .destroy value :: frames => some (write value { w with frames, state := .Initial })
      | .unwind _ :: frames => some (.panicked, { w with frames })
      | _ => none
  | .panic =>
      match w.frames with
      | .init :: frames => some (.panicked, { w with frames })
      | .destroy value :: frames =>
          some (.running,
            { w with frames := .unwind value :: frames, dropped := value :: w.dropped })
      | _ => none

/-- The moves that can be made. -/
def moves : Steps (World T) (Move T) (Answer T) := fun w m answer w' ↦
  move w m = some (answer, w')

end

/-! ## Where the values are -/

/-- The value in the storage. -/
def World.live (w : World T) : List T := if w.state = .Alive then w.value.toList else []

def Frame.held : Frame T → List T
  | .destroy value => [value]
  | _ => []

/-- The values that wait to be stored. -/
def World.held (w : World T) : List T := w.frames.flatMap Frame.held

/-- Every value is accounted for, and a value waits only while another is destroyed. -/
structure World.Good (w : World T) : Prop where
  owned : Owned w.made (w.live ++ w.held) w.dropped
  stored : w.state = .Alive → w.value.isSome
  waits : w.held = [] ∨ w.state = .Destroying ∧ w.held.length = 1

/-- What a call does to a storage, and which pointer it returns. -/
structure Sound (r : Answer T × World T) : Prop where
  good : r.2.Good
  pointer : ∀ p, r.1 = .pointer p → ∃ value, p = some value ∧ r.2.live = [value]

theorem good_new : (new : World T).Good := ⟨.nil, State.noConfusion, Or.inl rfl⟩

theorem World.Good.held_eq_nil {w : World T} (h : w.Good) (hstate : w.state ≠ .Destroying) :
    w.held = [] :=
  h.waits.resolve_right fun hwaits ↦ hstate hwaits.1

theorem World.live_eq_nil {w : World T} (h : w.state ≠ .Alive) : w.live = [] := if_neg h

theorem World.live_eq {w : World T} (h : w.state = .Alive) : w.live = w.value.toList := if_pos h

/-- While an old value is destroyed, only the new one is kept. -/
theorem World.Good.destroy {w : World T} {new : T} {frames : List (Frame T)} (h : w.Good)
    (hframes : w.frames = .destroy new :: frames) :
    w.state = .Destroying ∧ frames.flatMap Frame.held = [] ∧ Owned w.made [new] w.dropped := by
  have hheld : w.held = new :: frames.flatMap Frame.held := by
    rw [World.held, hframes]
    rfl
  obtain ⟨hstate, hlength⟩ := h.waits.resolve_left fun hnil ↦ by cases hheld.symm.trans hnil
  have hrest : frames.flatMap Frame.held = [] := by
    rw [hheld] at hlength
    exact List.length_eq_zero_iff.mp (Nat.succ.inj hlength)
  have howned := h.owned
  rw [World.live_eq_nil (hstate ▸ State.noConfusion), hheld, hrest] at howned
  exact ⟨hstate, hrest, howned⟩

/-- A new value is stored or, if the storage is in use by a destructor, dropped. -/
theorem sound_write {value : T} {w : World T} (hstate : w.state ≠ .Alive)
    (howned : Owned w.made (value :: w.held) w.dropped)
    (hwaits : w.held = [] ∨ w.state = .Destroying ∧ w.held.length = 1) :
    Sound (write value w) := by
  rw [write]
  split_ifs with hdestroying
  · have hlive : World.live { w with
        frames := .unwind value :: w.frames, dropped := value :: w.dropped } = [] :=
      World.live_eq_nil hstate
    exact ⟨⟨by rw [hlive]; exact howned.drop, fun h ↦ absurd h hstate, hwaits⟩, nofun⟩
  · have hheld : w.held = [] := hwaits.resolve_right fun h ↦ hdestroying h.1
    refine ⟨⟨howned, fun _ ↦ rfl, Or.inl hheld⟩, fun p hp ↦ ⟨value, ?_, rfl⟩⟩
    cases hp
    rfl

theorem sound_initializeWith {value : T} {w : World T} (h : w.Good) (hvalue : value ∉ w.made) :
    Sound (initializeWith value w) := by
  have howned := h.owned.make hvalue
  rw [initializeWith]
  split_ifs with halive
  · have hheld : w.held = [] := h.held_eq_nil fun hstate ↦ by cases hstate.symm.trans halive
    obtain ⟨old, hold⟩ := Option.isSome_iff_exists.mp (h.stored halive)
    have howned' : Owned (value :: w.made) ([value] ++ w.held) (w.value.toList ++ w.dropped) := by
      rw [World.live_eq (w := w) halive, hold, hheld] at howned
      rw [hold, hheld]
      exact (howned.move (List.Perm.swap old value [])).drop
    exact ⟨⟨howned', State.noConfusion,
        Or.inr ⟨rfl, congrArg (List.length ∘ ([value] ++ ·)) hheld⟩⟩,
      nofun⟩
  · rw [World.live_eq_nil (w := w) halive] at howned
    exact sound_write halive howned h.waits

theorem sound_get {i : Option (Option T)} {w : World T} (h : w.Good)
    (hi : ∀ value ∈ i.join, value ∉ w.made) : Sound (get i w) := by
  rw [get]
  split_ifs with halive
  · refine ⟨h, fun p hp ↦ ?_⟩
    obtain ⟨value, hvalue⟩ := Option.isSome_iff_exists.mp (h.stored halive)
    cases hp
    exact ⟨value, hvalue, by rw [World.live_eq halive, hvalue]; rfl⟩
  · rw [lazyInitialize]
    rcases hjoin : i.join with - | value
    · exact ⟨⟨h.owned, h.stored, h.waits⟩, nofun⟩
    · exact sound_initializeWith h (hi value hjoin)

section

variable [DecidableEq T]

/-- A move keeps every value accounted for. -/
theorem sound_of_moves {w w' : World T} {m : Move T} {answer : Answer T} (h : w.Good)
    (hmove : moves w m answer w') : Sound (answer, w') := by
  obtain ⟨state, value, frames, made, dropped⟩ := w
  cases m with
  | get i =>
      simp only [moves, move] at hmove
      split_ifs at hmove with hi
      exact Option.some.inj hmove ▸ sound_get h hi
  | make new =>
      rcases frames with - | ⟨- | new' | new', frames⟩
      · cases hmove
      · simp only [moves, move] at hmove
        split_ifs at hmove with hnew
        exact Option.some.inj hmove ▸ sound_initializeWith ⟨h.owned, h.stored, h.waits⟩ hnew
      · cases hmove
      · cases hmove
  | done =>
      rcases frames with - | ⟨- | new | old, frames⟩
      · cases hmove
      · cases hmove
      · obtain ⟨-, hheld, howned⟩ := h.destroy rfl
        refine Option.some.inj hmove ▸ sound_write State.noConfusion ?_ (Or.inl hheld)
        exact (congrArg (fun held ↦ Owned made (new :: held) dropped) hheld).mpr howned
      · cases hmove
        exact ⟨⟨h.owned, h.stored, h.waits⟩, nofun⟩
  | panic =>
      rcases frames with - | ⟨- | new | old, frames⟩
      · cases hmove
      · cases hmove
        exact ⟨⟨h.owned, h.stored, h.waits⟩, nofun⟩
      · obtain ⟨hstate, hheld, howned⟩ := h.destroy rfl
        cases hmove
        obtain rfl := hstate
        refine ⟨⟨?_, State.noConfusion, Or.inl hheld⟩, nofun⟩
        exact (congrArg (fun held ↦ Owned made held (new :: dropped)) hheld).mpr howned.drop
      · cases hmove

/-! ## Runs -/

theorem good_of_run {w w' : World T} {events : List (Move T × Answer T)} (h : w.Good)
    (hrun : Run moves w events w') : w'.Good :=
  hrun.invariant (fun h hmove ↦ (sound_of_moves h hmove).good) h

/-- The storage of a value whose destructor panicked (`stuck_of_panic`). -/
structure World.Stuck (w : World T) : Prop where
  state : w.state = .Destroying
  held : w.held = []

/-- A panic in the destructor of the old value drops the new one, and leaves the storage as it
is. -/
theorem stuck_of_panic {w w' : World T} {value : T} {frames : List (Frame T)} {answer : Answer T}
    (h : w.Good) (hframes : w.frames = .destroy value :: frames)
    (hmove : moves w .panic answer w') : w'.Stuck := by
  obtain ⟨hstate, hheld, -⟩ := h.destroy hframes
  rw [moves, move, hframes] at hmove
  obtain ⟨-, rfl⟩ := Prod.mk.inj (Option.some.inj hmove)
  exact ⟨hstate, hheld⟩

/-- Such a storage is not used again: who asks for a value gets a panic. -/
theorem stuck_of_moves {w w' : World T} {m : Move T} {answer : Answer T} (h : w.Stuck)
    (hmove : moves w m answer w') : w'.Stuck ∧ ∀ p, answer ≠ .pointer p := by
  obtain ⟨state, value, frames, made, dropped⟩ := w
  obtain ⟨rfl, hheld⟩ := h
  cases m with
  | get i =>
      simp only [moves, move] at hmove
      split_ifs at hmove with hi
      rw [get, if_neg State.noConfusion, lazyInitialize] at hmove
      rcases hjoin : i.join with - | new
      · rw [hjoin] at hmove
        cases hmove
        exact ⟨⟨rfl, hheld⟩, nofun⟩
      · rw [hjoin] at hmove
        cases hmove
        exact ⟨⟨rfl, hheld⟩, nofun⟩
  | make new =>
      rcases frames with - | ⟨- | new' | new', frames⟩
      · cases hmove
      · simp only [moves, move] at hmove
        split_ifs at hmove with hnew
        cases hmove
        exact ⟨⟨rfl, hheld⟩, nofun⟩
      · cases hmove
      · cases hmove
  | done =>
      rcases frames with - | ⟨- | new | old, frames⟩
      · cases hmove
      · cases hmove
      · cases hheld
      · cases hmove
        exact ⟨⟨rfl, hheld⟩, nofun⟩
  | panic =>
      rcases frames with - | ⟨- | new | old, frames⟩
      · cases hmove
      · cases hmove
        exact ⟨⟨rfl, hheld⟩, nofun⟩
      · cases hheld
      · cases hmove

/-- Nothing happens to a value that code outside of all initializers and destructors can see. -/
theorem eq_of_moves {w w' : World T} {m : Move T} {answer : Answer T} (hstate : w.state = .Alive)
    (hframes : w.frames = []) (hmove : moves w m answer w') : w' = w := by
  obtain ⟨state, value, frames, made, dropped⟩ := w
  obtain rfl := hstate
  obtain rfl := hframes
  cases m with
  | get i =>
      simp only [moves, move] at hmove
      split_ifs at hmove with hi
      cases hmove
      rfl
  | make new => cases hmove
  | done => cases hmove
  | panic => cases hmove

/-- Whatever initializers and destructors do, every value that is handed to the storage is stored,
waits to be, or was dropped, and only one of these; a pointer that is returned is to the value
that is stored then.  It stays there for ever if no initializer and no destructor is running.
And once the destructor of an old value panics, no pointer is returned and nothing is stored any
more. -/
theorem run_lazyStorage {events : List (Move T × Answer T)} {w : World T}
    (hrun : Run moves new events w) :
    Owned w.made (w.live ++ w.held) w.dropped ∧ w.held.length ≤ 1 ∧
    (∀ m p w', moves w m (.pointer p) w' → ∃ value, p = some value ∧ w'.live = [value]) ∧
    (w.live ≠ [] → w.frames = [] → ∀ events' w', Run moves w events' w' → w' = w) ∧
    (∀ value frames answer w₁, w.frames = .destroy value :: frames → moves w .panic answer w₁ →
      ∀ events' w', Run moves w₁ events' w' →
        w'.live = [] ∧ ∀ event ∈ events', ∀ p, event.2 ≠ .pointer p) := by
  have hgood := good_of_run good_new hrun
  refine ⟨hgood.owned, ?_, fun m p w' hmove ↦ ?_, fun hlive hframes events' w' hrun' ↦ ?_,
    fun value frames answer w₁ hframes hmove events' w' hrun' ↦ ?_⟩
  · rcases hgood.waits with hnil | ⟨-, hlength⟩
    · exact hnil ▸ Nat.zero_le 1
    · exact Nat.le_of_eq hlength
  · exact (sound_of_moves hgood hmove).pointer p rfl
  · have hstate : w.state = .Alive := by
      by_contra h
      exact hlive (World.live_eq_nil h)
    exact hrun'.invariant (I := (· = w))
      (fun h hmove ↦ by subst h; exact eq_of_moves hstate hframes hmove) rfl
  · have hstuck := stuck_of_panic hgood hframes hmove
    have hstuck' := hrun'.invariant (fun h hmove ↦ (stuck_of_moves h hmove).1) hstuck
    refine ⟨World.live_eq_nil (hstuck'.state ▸ State.noConfusion), ?_⟩
    exact hrun'.forall_events (fun h hmove ↦ stuck_of_moves h hmove) hstuck

/-- An initializer asks for the value it is to make.  The one that is made for it is dropped when
the initializer returns, which replaces it, unless the destructor panics. -/
theorem run_lazyStorage_recursive :
    ∃ w w₁ w₂ : World ℕ, Run moves new
      [(.get none, .running), (.get none, .running), (.make 1, .pointer (some 1)),
        (.make 2, .running)] w ∧ w.dropped = [1] ∧ Owned w.made (w.live ++ w.held) w.dropped ∧
      moves w .done (.pointer (some 2)) w₁ ∧ w₁.live = [2] ∧
      moves w .panic .running w₂ ∧ w₂.dropped = [2, 1] ∧
      ∀ events' w', Run moves w₂ events' w' →
        w'.live = [] ∧ ∀ event ∈ events', ∀ p, event.2 ≠ .pointer p :=
  have hrun : Run moves new
      [(.get none, .running), (.get none, .running), (.make 1, .pointer (some 1)),
        (.make 2, .running)] ⟨.Destroying, some 1, [.destroy 2], [2, 1], [1]⟩ :=
    .cons rfl (.cons rfl (.cons rfl (.cons rfl .nil)))
  have h := run_lazyStorage hrun
  ⟨_, ⟨.Alive, some 2, [], [2, 1], [1]⟩, ⟨.Destroying, some 1, [.unwind 2], [2, 1], [2, 1]⟩, hrun,
    rfl, h.1, rfl, rfl, rfl, rfl, h.2.2.2.2 2 [] _ _ rfl rfl⟩

/-- Who asks for the value after that gets a panic. -/
example : ∃ w : World ℕ, Run moves ⟨.Destroying, some 1, [.unwind 2], [2, 1], [2, 1]⟩
    [(.done, .panicked), (.get (some (some 3)), .running), (.done, .panicked)] w :=
  ⟨_, .cons rfl (.cons rfl (.cons rfl .nil))⟩

end

end LazyStorage

end Elpytios
