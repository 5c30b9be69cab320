import Elpytios.Lib.Ownership
import Elpytios.Lib.Simulation

/-!
# A box that is made once

`OnceBox` is from `std/sys-src/sync/once_box.rs`.  Any number of calls of `get_or_init` run at the
same time; each goes from one access to `ptr` to the next, and a `Move` is one such step of one of
them.  They race to store a box of their own, and the losers drop theirs.

Under every schedule all calls return the same pointer, and no box is lost or dropped while it
can be seen (`run_onceBox`).
-/

namespace Elpytios

open Simulation

namespace OnceBox

/-- A call of `get_or_init` that has found no box. -/
inductive Call (T : Type) where
  | /-- `f` runs. -/
    init
  | /-- The next step is `compare_exchange`. -/
    exchange (new_ptr : T)
  | /-- It has failed, and the box is dropped next. -/
    lost (new_ptr ptr : T)
deriving DecidableEq, Repr

/-- A `OnceBox` and the calls that run, with all boxes that were made, the ones that were taken out
and the ones that were dropped. -/
structure World (T : Type) where
  ptr : Option T
  calls : List (Call T)
  made : List T
  taken : List T
  dropped : List T
deriving DecidableEq, Repr

/-- What a move leads to. -/
inductive Answer (T : Type) where
  | running
  | returned (ptr : T)
  | panicked
  | taken (ptr : Option T)
deriving DecidableEq, Repr

inductive Move (T : Type) where
  | get_unchecked
  | /-- A call is started, and loads `ptr`. -/
    get_or_init
  | /-- `f` returns, in one of the calls. -/
    make (call : ℕ) (new_ptr : T)
  | /-- `f` panics. -/
    panic (call : ℕ)
  | compare_exchange (call : ℕ)
  | /-- The box of a call is dropped, which may panic. -/
    drop (call : ℕ) (panics : Bool)
  | take
deriving DecidableEq, Repr

variable {T : Type}

def new : World T := ⟨none, [], [], [], []⟩

/-- The other calls. -/
def World.others (w : World T) (call : ℕ) : World T := { w with calls := w.calls.eraseIdx call }

/-- A call goes on. -/
def World.resume (w : World T) (call : Call T) : World T := { w with calls := call :: w.calls }

def get_or_init (w : World T) : Answer T × World T :=
  match w.ptr with
  | some ptr => (.returned ptr, w)
  | none => (.running, w.resume .init)

def compare_exchange (new_ptr : T) (w : World T) : Answer T × World T :=
  match w.ptr with
  | none => (.returned new_ptr, { w with ptr := some new_ptr })
  | some ptr => (.running, w.resume (.lost new_ptr ptr))

def drop (panics : Bool) (new_ptr ptr : T) (w : World T) : Answer T × World T :=
  (if panics then .panicked else .returned ptr, { w with dropped := new_ptr :: w.dropped })

def take (w : World T) : Answer T × World T :=
  (.taken w.ptr, { w with ptr := none, taken := w.ptr.toList ++ w.taken })

section

variable [DecidableEq T]

/-- What a move does, if it can be made.  The contract of `get_unchecked` is that there is a box,
and `take` has the `OnceBox` to itself. -/
def move (w : World T) : Move T → Option (Answer T × World T)
  | .get_unchecked => w.ptr.map fun ptr ↦ (.returned ptr, w)
  | .get_or_init => some (get_or_init w)
  | .make call new_ptr =>
      match w.calls[call]? with
      | some .init =>
          if new_ptr ∈ w.made then none
          else some (.running,
            { (w.others call).resume (.exchange new_ptr) with made := new_ptr :: w.made })
      | _ => none
  | .panic call =>
      match w.calls[call]? with
      | some .init => some (.panicked, w.others call)
      | _ => none
  | .compare_exchange call =>
      match w.calls[call]? with
      | some (.exchange new_ptr) => some (compare_exchange new_ptr (w.others call))
      | _ => none
  | .drop call panics =>
      match w.calls[call]? with
      | some (.lost new_ptr ptr) => some (drop panics new_ptr ptr (w.others call))
      | _ => none
  | .take => if w.calls = [] then some (take w) else none

def moves : Steps (World T) (Move T) (Answer T) := fun w m answer w' ↦
  move w m = some (answer, w')

end

/-! ## Where the boxes are -/

def Call.held : Call T → List T
  | .init => []
  | .exchange new_ptr => [new_ptr]
  | .lost new_ptr _ => [new_ptr]

/-- The boxes that are kept, by the `OnceBox`, by calls and by those who took them. -/
def World.kept (w : World T) : List T := w.ptr.toList ++ (w.calls.flatMap Call.held ++ w.taken)

/-- Every box is accounted for, and calls that have lost know the box that won. -/
structure World.Good (w : World T) : Prop where
  owned : Owned w.made w.kept w.dropped
  lost : ∀ new_ptr ptr, .lost new_ptr ptr ∈ w.calls → w.ptr = some ptr

theorem good_new : (new : World T).Good := ⟨.nil, nofun⟩

/-- A call can be seen apart from the others. -/
theorem World.kept_perm {w : World T} {i : ℕ} {call : Call T} (h : w.calls[i]? = some call) :
    w.kept.Perm (call.held ++ (w.others i).kept) := by
  obtain ⟨hi, rfl⟩ := List.getElem?_eq_some_iff.mp h
  have hcalls : (w.calls.flatMap Call.held).Perm
      (w.calls[i].held ++ (w.calls.eraseIdx i).flatMap Call.held) :=
    (List.Perm.flatMap_right Call.held (List.getElem_cons_eraseIdx_perm hi)).symm
  refine ((hcalls.append_right w.taken).append_left w.ptr.toList).trans ?_
  rw [List.append_assoc]
  exact List.perm_append_comm_assoc ..

theorem World.kept_resume (w : World T) (call : Call T) :
    (w.resume call).kept.Perm (call.held ++ w.kept) := by
  rw [World.kept, World.resume, List.flatMap_cons, List.append_assoc]
  exact List.perm_append_comm_assoc ..

/-- What is known of a call and of the others. -/
theorem World.Good.others {w : World T} {i : ℕ} {call : Call T} (h : w.Good)
    (hcall : w.calls[i]? = some call) :
    Owned w.made (call.held ++ (w.others i).kept) w.dropped ∧
      ∀ new_ptr ptr, .lost new_ptr ptr ∈ (w.others i).calls → w.ptr = some ptr :=
  ⟨h.owned.move (World.kept_perm hcall),
    fun new_ptr ptr hlost ↦ h.lost new_ptr ptr (List.mem_of_mem_eraseIdx hlost)⟩

/-- What a move does: boxes stay accounted for, a pointer that is returned is to the box that is
stored, and that one stays until it is taken. -/
structure Sound (w : World T) (m : Move T) (r : Answer T × World T) : Prop where
  good : r.2.Good
  returned : ∀ ptr, r.1 = .returned ptr → r.2.ptr = some ptr
  stays : m ≠ .take → ∀ ptr, w.ptr = some ptr → r.2.ptr = some ptr

theorem sound_get_or_init {w : World T} (h : w.Good) : Sound w .get_or_init (get_or_init w) := by
  rw [get_or_init]
  rcases hptr : w.ptr with - | ptr
  · refine ⟨⟨h.owned, fun new_ptr ptr hlost ↦ ?_⟩, nofun, fun _ _ ↦ id⟩
    exact h.lost new_ptr ptr ((List.mem_cons.mp hlost).resolve_left nofun)
  · exact ⟨h, fun _ hr ↦ Answer.returned.inj hr ▸ hptr, fun _ _ ↦ id⟩

theorem sound_compare_exchange {w : World T} {i : ℕ} {new_ptr : T} (h : w.Good)
    (hcall : w.calls[i]? = some (.exchange new_ptr)) :
    Sound w (.compare_exchange i) (compare_exchange new_ptr (w.others i)) := by
  obtain ⟨howned, hlost⟩ := h.others hcall
  rw [compare_exchange]
  rcases hptr : (w.others i).ptr with - | ptr
  · have hkept : (w.others i).kept = (w.others i).calls.flatMap Call.held ++ w.taken := by
      rw [World.kept, hptr]
      rfl
    rw [hkept] at howned
    refine ⟨⟨howned, fun new_ptr' ptr' hmem ↦ ?_⟩, fun _ hr ↦ congrArg some (Answer.returned.inj hr),
      fun _ ptr' hptr' ↦ ?_⟩
    · cases hptr.symm.trans (hlost new_ptr' ptr' hmem)
    · cases hptr.symm.trans hptr'
  · refine ⟨⟨howned.move ?_, fun new_ptr' ptr' hmem ↦ ?_⟩, nofun, fun _ _ ↦ id⟩
    · exact ((w.others i).kept_resume (.lost new_ptr ptr)).symm
    · rcases List.mem_cons.mp hmem with heq | hmem
      · cases heq
        exact hptr
      · exact hlost new_ptr' ptr' hmem

theorem sound_drop {w : World T} {i : ℕ} {new_ptr ptr : T} (panics : Bool) (h : w.Good)
    (hcall : w.calls[i]? = some (.lost new_ptr ptr)) :
    Sound w (.drop i panics) (drop panics new_ptr ptr (w.others i)) := by
  obtain ⟨howned, hlost⟩ := h.others hcall
  refine ⟨⟨howned.drop, hlost⟩, fun ptr' hr ↦ ?_, fun _ _ ↦ id⟩
  rw [drop] at hr
  split_ifs at hr
  cases hr
  exact h.lost new_ptr ptr (List.mem_of_getElem? hcall)

theorem sound_take {w : World T} (h : w.Good) (hcalls : w.calls = []) : Sound w .take (take w) := by
  refine ⟨⟨h.owned.move ?_, fun new_ptr ptr hlost ↦ ?_⟩, nofun, fun hne ↦ absurd rfl hne⟩
  · rw [World.kept, World.kept, take, hcalls]
    exact .refl _
  · rw [take, hcalls] at hlost
    cases hlost

section

variable [DecidableEq T]

theorem sound_of_moves {w w' : World T} {m : Move T} {answer : Answer T} (h : w.Good)
    (hmove : moves w m answer w') : Sound w m (answer, w') := by
  rw [moves] at hmove
  cases m with
  | get_unchecked =>
      obtain ⟨ptr, hptr, hr⟩ := Option.map_eq_some_iff.mp hmove
      cases hr
      exact ⟨h, fun _ hr ↦ Answer.returned.inj hr ▸ hptr, fun _ _ ↦ id⟩
  | get_or_init => exact Option.some.inj hmove ▸ sound_get_or_init h
  | make i new_ptr =>
      rw [move] at hmove
      split at hmove
      · rename_i hcall
        split_ifs at hmove with hnew
        cases hmove
        obtain ⟨howned, hlost⟩ := h.others hcall
        have hkept := ((w.others i).kept_resume (.exchange new_ptr)).symm
        refine ⟨⟨(howned.make hnew).move hkept, fun new_ptr' ptr' hmem ↦ ?_⟩, nofun,
          fun _ _ ↦ id⟩
        exact hlost new_ptr' ptr' ((List.mem_cons.mp hmem).resolve_left nofun)
      · cases hmove
  | panic i =>
      rw [move] at hmove
      split at hmove
      · rename_i hcall
        cases hmove
        obtain ⟨howned, hlost⟩ := h.others hcall
        exact ⟨⟨howned, hlost⟩, nofun, fun _ _ ↦ id⟩
      · cases hmove
  | compare_exchange i =>
      rw [move] at hmove
      split at hmove
      · rename_i new_ptr hcall
        exact Option.some.inj hmove ▸ sound_compare_exchange h hcall
      · cases hmove
  | drop i panics =>
      rw [move] at hmove
      split at hmove
      · rename_i new_ptr ptr hcall
        exact Option.some.inj hmove ▸ sound_drop panics h hcall
      · cases hmove
  | take =>
      rw [move] at hmove
      split_ifs at hmove with hcalls
      exact Option.some.inj hmove ▸ sound_take h hcalls

/-! ## Runs -/

theorem good_of_run {w w' : World T} {events : List (Move T × Answer T)} (h : w.Good)
    (hrun : Run moves w events w') : w'.Good :=
  hrun.invariant (fun h hmove ↦ (sound_of_moves h hmove).good) h

/-- Until it is taken, the box that is stored stays, and is what calls return. -/
theorem ptr_of_run {w w' : World T} {events : List (Move T × Answer T)} (h : w.Good)
    (hrun : Run moves w events w') (htake : ∀ event ∈ events, event.1 ≠ .take) :
    (∀ ptr, w.ptr = some ptr → w'.ptr = some ptr) ∧
      ∀ event ∈ events, ∀ ptr, event.2 = .returned ptr → w'.ptr = some ptr := by
  induction hrun with
  | nil => exact ⟨fun _ ↦ id, fun _ hevent ↦ absurd hevent List.not_mem_nil⟩
  | cons hmove _ ih =>
      obtain ⟨hhead, htail⟩ := List.forall_mem_cons.mp htake
      have hsound := sound_of_moves h hmove
      obtain ⟨hstays, hreturned⟩ := ih hsound.good htail
      refine ⟨fun ptr hptr ↦ hstays ptr (hsound.stays hhead ptr hptr), ?_⟩
      exact List.forall_mem_cons.mpr
        ⟨fun ptr hr ↦ hstays ptr (hsound.returned ptr hr), hreturned⟩

/-- Under every schedule, every box that was made is stored, held by a call that runs, taken out or
dropped, and only one of these.  Until the stored one is taken, all calls that return give the
same pointer, to the box that is stored, which is not dropped. -/
theorem run_onceBox {events : List (Move T × Answer T)} {w : World T}
    (hrun : Run moves new events w) :
    Owned w.made (w.ptr.toList ++ (w.calls.flatMap Call.held ++ w.taken)) w.dropped ∧
    ∀ events' w', Run moves w events' w' → (∀ event ∈ events', event.1 ≠ .take) →
      ∀ event ∈ events', ∀ ptr, event.2 = .returned ptr →
        w'.ptr = some ptr ∧ ptr ∈ w'.made ∧ ptr ∉ w'.dropped := by
  have hgood := good_of_run good_new hrun
  refine ⟨hgood.owned, fun events' w' hrun' htake event hevent ptr hr ↦ ?_⟩
  have howned := (good_of_run hgood hrun').owned
  have hptr := (ptr_of_run hgood hrun' htake).2 event hevent ptr hr
  have hkept : ptr ∈ w'.kept := List.mem_append_left _ (Option.mem_toList.mpr hptr)
  exact ⟨hptr, howned.perm.mem_iff.mpr (List.mem_append_left _ hkept), howned.notMem_dropped hkept⟩

/-- Two calls that both find no box. -/
theorem run_onceBox_race :
    ∃ w : World ℕ, Run moves new
      [(.get_or_init, .running), (.get_or_init, .running), (.make 0 1, .running),
        (.make 1 2, .running)] w ∧
      ∃ w', Run moves w [(.compare_exchange 0, .returned 2), (.compare_exchange 0, .running),
        (.drop 0 false, .returned 2)] w' ∧
      Owned w.made (w.ptr.toList ++ (w.calls.flatMap Call.held ++ w.taken)) w.dropped ∧
      w'.ptr = some 2 ∧ w'.dropped = [1] := by
  have hrun : Run moves (new : World ℕ)
      [(.get_or_init, .running), (.get_or_init, .running), (.make 0 1, .running),
        (.make 1 2, .running)] ⟨none, [.exchange 2, .exchange 1], [2, 1], [], []⟩ :=
    .cons rfl (.cons rfl (.cons rfl (.cons rfl .nil)))
  have hrun' : Run moves (⟨none, [.exchange 2, .exchange 1], [2, 1], [], []⟩ : World ℕ)
      [(.compare_exchange 0, .returned 2), (.compare_exchange 0, .running),
        (.drop 0 false, .returned 2)] ⟨some 2, [], [2, 1], [], [1]⟩ :=
    .cons rfl (.cons rfl (.cons rfl .nil))
  obtain ⟨howned, h⟩ := run_onceBox hrun
  exact ⟨_, hrun, _, hrun', howned, (h _ _ hrun' (by decide) _ (List.mem_cons_self ..) 2 rfl).1, rfl⟩

end

end OnceBox

end Elpytios
