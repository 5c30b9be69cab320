import Elpytios.Paging.Map

/-!
# Calls of `map` step by step

The safety contract of `VirtualMap::map` allows concurrent calls for different pages.
Here a call is a sequence of atomic steps on the shared tables: at each level it tests
the entry, and if that is absent it requests a page table and then links it; in the page
table itself it tests the entry and then fills it.  A schedule says which of two calls
takes the next step.

The steps are those of `VirtualMap.map`, cut up: `complete` finishes a call from any point
on, a step does not change what that comes to (`complete_step`), and a call that runs
alone does what `VirtualMap.map` does (`alone_eq_map`).
-/

namespace Elpytios

open Radix

/-- Where a call of `map` is.  Levels count from the page up: the page table is at level 0
and the PML4 at level 3. -/
inductive Pc (Ref : Type) where
  | /-- About to test the entry of the table at a level. -/
    test (level : ℕ)
  | /-- Found an entry absent, one level above; about to call `new_page_table` for it. -/
    request (level : ℕ) (table : Ref) (i : Fin 512)
  | /-- About to store the entry for the new page table. -/
    link (level : ℕ) (table : Ref) (i : Fin 512) (a : PAddr)
  | /-- Found the entry of the page absent; about to store it. -/
    fill (table : Ref) (i : Fin 512)
deriving DecidableEq

/-- A call that is running or has returned. -/
inductive Thread (Ref : Type) where
  | running (pc : Pc Ref)
  | returned (r : Except Stop Unit)
deriving DecidableEq

section

variable {T Ref : Type} [VirtualMapper T Ref] (mapper : T) (new_page_table : NewPageTable)

/-- One step of a call.  It ends with the point it gets to, or with nothing once the entry
of the page is stored. -/
def step (c : Call) : Pc Ref → MapM (Option (Pc Ref))
  | .test 0 => do
      let table ← accessor mapper c.v_addr.info 3
      let i ← index (tableIndex c.v_addr.info 0)
      match ptArm (← readEntry mapper table i) with
      | .leaf existing => throw (Stop.error (.AlreadyMapped c.p_addr c.v_addr existing))
      | _ => return some (.fill table i)
  | .test (level + 1) => do
      let table ← accessor mapper c.v_addr.info (2 - level)
      let i ← index (tableIndex c.v_addr.info (level + 1))
      match arm (2 - level) (← readEntry mapper table i) with
      | .absent => return some (.request level table i)
      | .leaf existing => throw (Stop.error (.AlreadyMapped c.p_addr c.v_addr existing))
      | .node => return some (.test level)
  | .request level table i => do
      let a ← newPageTable new_page_table
      return some (.link level table i a)
  | .link level table i a => do
      writeEntry mapper table i (NodeEntry.new Entry.WRITABLE a).bits
      return some (.test level)
  | .fill table i => do
      writeEntry mapper table i (leafEntry c.p_addr c.flags).bits
      return none

/-- Finish a call from some point on. -/
def complete (c : Call) : Pc Ref → MapM Unit
  | .test level => mapFrom mapper new_page_table c.p_addr c.v_addr c.flags level
  | .request level table i => do
      let a ← newPageTable new_page_table
      writeEntry mapper table i (NodeEntry.new Entry.WRITABLE a).bits
      mapFrom mapper new_page_table c.p_addr c.v_addr c.flags level
  | .link level table i a => do
      writeEntry mapper table i (NodeEntry.new Entry.WRITABLE a).bits
      mapFrom mapper new_page_table c.p_addr c.v_addr c.flags level
  | .fill table i => writeEntry mapper table i (leafEntry c.p_addr c.flags).bits

/-- A call at its beginning. -/
def Thread.start (c : Call) : Thread Ref :=
  if VirtualMapper.reserved mapper c.v_addr then
    .returned (.error (.error (.Reserved c.p_addr c.v_addr)))
  else .running (.test 3)

/-- Where a step brings a call. -/
def Thread.next : EStateM.Result Stop Tables (Option (Pc Ref)) → Thread Ref × Tables
  | .ok (some pc) s => (.running pc, s)
  | .ok none s => (.returned (.ok ()), s)
  | .error e s => (.returned (.error e), s)

/-- Let a call take a step, if it has not returned. -/
def Thread.advance (c : Call) : Thread Ref × Tables → Thread Ref × Tables
  | (.running pc, s) => Thread.next (step mapper new_page_table c pc s)
  | (.returned r, s) => (.returned r, s)

/-- Two calls and the tables they share. -/
structure Conf (Ref : Type) where
  tables : Tables
  left : Thread Ref
  right : Thread Ref

/-- Let one of two calls take a step. -/
def Conf.advance (c₁ c₂ : Call) (conf : Conf Ref) : Bool → Conf Ref
  | true =>
      let r := Thread.advance mapper new_page_table c₁ (conf.left, conf.tables)
      { conf with left := r.1, tables := r.2 }
  | false =>
      let r := Thread.advance mapper new_page_table c₂ (conf.right, conf.tables)
      { conf with right := r.1, tables := r.2 }

/-- Two calls that have not taken a step yet. -/
def Conf.start (c₁ c₂ : Call) (s : Tables) : Conf Ref where
  tables := s
  left := .start mapper c₁
  right := .start mapper c₂

/-- Run two calls by a schedule, which says whether the first call takes the next step. -/
def interleave (c₁ c₂ : Call) (schedule : List Bool) (conf : Conf Ref) : Conf Ref :=
  schedule.foldl (Conf.advance mapper new_page_table c₁ c₂) conf

/-! ## The steps make up `map` -/

theorem throw_bind {α β : Type} (e : Stop) (f : α → MapM β) :
    ((throw e : MapM α) >>= f) = throw e := rfl

/-- A step does not change what a call comes to. -/
theorem complete_step (c : Call) (pc : Pc Ref) :
    complete mapper new_page_table c pc = step mapper new_page_table c pc >>= fun
      | none => pure ()
      | some pc' => complete mapper new_page_table c pc' := by
  cases pc with
  | test level =>
      cases level with
      | zero =>
          simp only [complete, step, mapFrom, matchLeaf, bind_assoc]
          refine bind_congr fun table ↦ bind_congr fun i ↦ bind_congr fun x ↦ ?_
          cases ptArm x <;> simp [throw_bind]
      | succ level =>
          simp only [complete, step, mapFrom, matchNode, bind_assoc]
          refine bind_congr fun table ↦ bind_congr fun i ↦ bind_congr fun x ↦ ?_
          cases arm (2 - level) x <;> simp [throw_bind]
  | request level table i => simp [complete, step]
  | link level table i a => simp [complete, step]
  | fill table i => simp [complete, step]

/-- The steps a call still has to take, at most. -/
def Pc.remaining : Pc Ref → ℕ
  | .test level => 3 * level + 2
  | .request level _ _ => 3 * level + 4
  | .link level _ _ _ => 3 * level + 3
  | .fill _ _ => 1

/-- A call takes finitely many steps. -/
theorem remaining_step (c : Call) {pc pc' : Pc Ref} {s s' : Tables}
    (h : step mapper new_page_table c pc s = .ok (some pc') s') :
    pc'.remaining < pc.remaining := by
  cases pc with
  | test level =>
      cases level with
      | zero =>
          obtain ⟨table, s₁, -, h⟩ := exists_of_run_bind_ok h
          obtain ⟨i, s₂, -, h⟩ := exists_of_run_bind_ok h
          obtain ⟨x, s₃, -, h⟩ := exists_of_run_bind_ok h
          cases hx : ptArm x with
          | leaf => simp [hx] at h
          | absent | node =>
              obtain ⟨rfl, -⟩ : .fill table i = pc' ∧ s₃ = s' := by simpa [hx] using h
              exact Nat.lt_succ_self 1
      | succ level =>
          obtain ⟨table, s₁, -, h⟩ := exists_of_run_bind_ok h
          obtain ⟨i, s₂, -, h⟩ := exists_of_run_bind_ok h
          obtain ⟨x, s₃, -, h⟩ := exists_of_run_bind_ok h
          cases hx : arm (2 - level) x with
          | leaf => simp [hx] at h
          | absent =>
              obtain ⟨rfl, -⟩ : .request level table i = pc' ∧ s₃ = s' := by simpa [hx] using h
              simp only [Pc.remaining]; omega
          | node =>
              obtain ⟨rfl, -⟩ : .test level = pc' ∧ s₃ = s' := by simpa [hx] using h
              simp only [Pc.remaining]; omega
  | request level table i =>
      obtain ⟨a, s₁, -, h⟩ := exists_of_run_bind_ok h
      obtain ⟨rfl, -⟩ : .link level table i a = pc' ∧ s₁ = s' := by simpa using h
      exact Nat.lt_succ_self _
  | link level table i a =>
      obtain ⟨-, s₁, -, h⟩ := exists_of_run_bind_ok h
      obtain ⟨rfl, -⟩ : .test level = pc' ∧ s₁ = s' := by simpa using h
      exact Nat.lt_succ_self _
  | fill table i =>
      obtain ⟨-, s₁, -, h⟩ := exists_of_run_bind_ok h
      simp at h

/-- From any point on, a call that runs alone does the rest of the call. -/
theorem alone_eq_complete (c : Call) (pc : Pc Ref) (s : Tables) :
    ∃ n, (Thread.advance mapper new_page_table c)^[n] (.running pc, s) =
      (.returned (answer (complete mapper new_page_table c pc s)),
        after (complete mapper new_page_table c pc s)) := by
  induction hn : pc.remaining using Nat.strong_induction_on generalizing pc s with
  | _ n ih =>
      rw [complete_step]
      cases hstep : step mapper new_page_table c pc s with
      | error e s' =>
          refine ⟨1, ?_⟩
          rw [run_bind_error hstep, Function.iterate_one, Thread.advance, hstep]
          rfl
      | ok o s' =>
          cases o with
          | none =>
              refine ⟨1, ?_⟩
              rw [run_bind_ok hstep, Function.iterate_one, Thread.advance, hstep]
              rfl
          | some pc' =>
              have hlt := remaining_step mapper new_page_table c hstep
              obtain ⟨m, hm⟩ := ih _ (hn ▸ hlt) pc' s' rfl
              refine ⟨m + 1, ?_⟩
              rw [run_bind_ok hstep, Function.iterate_succ_apply, Thread.advance, hstep]
              exact hm

/-- A call that runs alone does what `VirtualMap.map` does. -/
theorem alone_eq_map (c : Call) (s : Tables) :
    ∃ n, (Thread.advance mapper new_page_table c)^[n] (.start mapper c, s) =
      (.returned (answer (VirtualMap.map mapper new_page_table c.p_addr c.v_addr c.flags s)),
        after (VirtualMap.map mapper new_page_table c.p_addr c.v_addr c.flags s)) := by
  rw [map_eq_mapFrom, Thread.start]
  split_ifs with hres
  · exact ⟨0, rfl⟩
  · exact alone_eq_complete mapper new_page_table c (.test 3) s

end

end Elpytios
