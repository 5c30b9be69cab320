import Elpytios.Paging.AddressSpace
import Elpytios.Paging.Race
import Mathlib.Data.Fin.VecNotation
import Mathlib.Order.Interval.Finset.Nat

/-!
# Any number of calls at once

Calls of `map` for different pages that share no free slot above the page tables take their steps
in any order.  Each of them is answered as if it had been made on the address space in a single
step, the one it returns in (`answered_step`), and after eleven steps of its own it has returned,
whatever the others do (`count_lt_of_running`).

So under every schedule there is an order of the calls that have returned in which the address
space gives the answers they got, and what the processor sees is the address space after them
(`concurrent_maps_linearizable`).  Only the page tables do not fit in: those left may be spread
over the calls so that none has enough, where the first call of any order would have had them.
What is certain is that each request that is refused costs one call.
-/

namespace Elpytios

open Radix Simulation

variable {mem mem' : Memory} {root : Loc} {R : Fin 512} {e : Word} {space : AddressSpace}

/-! ## Changes an address space does not show -/

theorem Represents.congr {root' : Loc} (h : Represents mem root R space)
    (hwalk : ∀ u : VAddr, u.slot 3 ≠ R → walk mem' root' u = walk mem root u) :
    Represents mem' root' R space := fun u hu ↦ by
  rw [hwalk u hu, h u hu]

/-- A table that nothing links to is not seen. -/
theorem Represents.put (h : Represents mem root R space) {a : Loc}
    (ha : Unreached x86 mem root (Domain.avoiding R) a) (t : PageTable) :
    Represents (mem.put a t) root R space := by
  refine h.congr fun u hu ↦ ?_
  have htable : ∀ π, π <+: u.path → tableAt x86 (mem.put a t) root π = tableAt x86 mem root π := by
    intro π hπ
    have hmem := (Domain.avoiding R).mem_of_isPrefix (path_mem_avoiding.mpr hu) hπ
    rw [tableAt, tableAt, follow_put ha t hmem]
    cases hl : follow x86 mem 0 root π with
    | none => rfl
    | some l => exact Store.put_of_ne (ha hmem hl)
  rw [walk_eq_lookup, walk_eq_lookup]
  exact lookup_congr fun π hπ ↦ htable π hπ

/-- A blank table that is linked from a free slot is not seen. -/
theorem Represents.attach (h : Represents mem root R space) (hmem : TableTree mem root R e)
    {π : List (Fin 512)} {i : Fin 512} {l : Loc} {a : PAddr} (hlen : π.length < 3)
    (hslot : FreeSlot x86 mem root (Domain.avoiding R) π i l) (ha : Holds root R a mem) :
    Represents (mem.attach x86 l i (.page a)) root R space := by
  have hπ := (Domain.avoiding R).mem_of_snoc hslot.mem
  refine h.congr fun u hu ↦ ?_
  have hu' : u.path ∈ Domain.avoiding R := path_mem_avoiding.mpr hu
  rw [walk_eq_lookup, walk_eq_lookup]
  by_cases hp : π ++ [i] <+: u.path
  · rw [hslot.lookup_eq_none hp, lookup_attach_of_isPrefix hmem.tree hπ hslot.follow ha.unreached
      (ha.decode_link hlen) hu' hp]
  · exact (Extends.attach hslot hmem.tree ha.unreached (ha.decode_link hlen)).lookup_eq hu' hp

/-- A walk that gets to a leaf ends there. -/
theorem walk_of_leaf {v : VAddr} {k j : ℕ} (hkj : k + j = 3) {l : Loc} {t : PageTable}
    (hl : follow x86 mem 0 root (v.path.take k) = some l) (ht : mem l = some t)
    (hd : decode k (t (v.slot j)) = .leaf) :
    ∃ ws, walk mem root v = some (ws, t (v.slot j)) ∧ ws.length = k := by
  have hlen := v.length_take_path (show k ≤ 4 by omega)
  have htable : tableAt x86 mem root ([] ++ v.path.take k) = some t :=
    (tableAt_of_follow hl).trans ht
  obtain ⟨τ, hτ⟩ := v.take_path hkj ▸ List.take_prefix (k + 1) v.path
  have hpath : v.path = v.path.take k ++ v.slot j :: τ := by
    rw [← List.singleton_append, ← List.append_assoc, hτ]
  refine ⟨trail (tableAt x86 mem root) [] (v.path.take k), ?_, ?_⟩
  · rw [walk_eq_lookup]
    conv_lhs => rw [hpath]
    rw [lookup_append htable, lookup_isSome_of_leaf htable (by rwa [List.nil_append, hlen])]
    simp
  · rw [length_trail htable, hlen]

/-! ## A step on the address space -/

/-- A call of `map` that happens at once.  A page table may be refused to it. -/
inductive AddressSpace.Step (R : Fin 512) : Steps AddressSpace Call (Except VirtualMapError Unit)
  | /-- The address is in the slot kept for the recursive mapping. -/
    reserved {space : AddressSpace} {c : Call} (hv : c.v_addr.slot 3 = R) :
      Step R space c (.error (.Reserved c.p_addr c.v_addr)) space
  | /-- The page is mapped already. -/
    taken {space : AddressSpace} {c : Call} {m : Mapping} (hv : c.v_addr.slot 3 ≠ R)
      (h : space c.v_addr.pageIndex = some m) :
      Step R space c (.error (.AlreadyMapped c.p_addr c.v_addr m.frame)) space
  | /-- The page is not mapped, and is not mapped now. -/
    noTable {space : AddressSpace} {c : Call} (hv : c.v_addr.slot 3 ≠ R)
      (h : space c.v_addr.pageIndex = none) :
      Step R space c (.error .PageTable) space
  | /-- The page is mapped. -/
    ok {space : AddressSpace} {c : Call} (hv : c.v_addr.slot 3 ≠ R)
      (h : space c.v_addr.pageIndex = none) :
      Step R space c (.ok ()) (Function.update space c.v_addr.pageIndex (some c.mapping))

/-- A call on a counted space is one on its pages. -/
theorem CountedSpace.step_map (R : Fin 512) (alloc : NewPageTable) (c : Call) (a : CountedSpace) :
    AddressSpace.Step R a.pages c (a.map R alloc c).1 (a.map R alloc c).2.pages := by
  rw [CountedSpace.map]
  split_ifs with hv
  · exact .reserved hv
  · split
    · next m hm => exact .taken hv hm
    · next hm =>
        split
        · exact .ok hv hm
        · exact .noTable hv hm

/-- The number of requests refused, from one on and before another. -/
def refusals (alloc : NewPageTable) (n n' : ℕ) : ℕ :=
  ((Finset.Ico n n').filter fun k ↦ alloc k = none).card

@[simp] theorem refusals_self (alloc : NewPageTable) (n : ℕ) : refusals alloc n n = 0 := by
  rw [refusals, Finset.Ico_self]
  rfl

theorem refusals_add (alloc : NewPageTable) {n m n' : ℕ} (h : n ≤ m) (h' : m ≤ n') :
    refusals alloc n m + refusals alloc m n' = refusals alloc n n' := by
  rw [refusals, refusals, refusals, ← Finset.Ico_union_Ico_eq_Ico h h', Finset.filter_union,
    Finset.card_union_of_disjoint]
  exact (Finset.Ico_disjoint_Ico_consecutive n m n').mono (Finset.filter_subset ..)
    (Finset.filter_subset ..)

theorem refusals_succ (alloc : NewPageTable) (n : ℕ) :
    refusals alloc n (n + 1) = if alloc n = none then 1 else 0 := by
  rw [refusals, Nat.Ico_succ_singleton, Finset.filter_singleton]
  split_ifs <;> rfl

/-- A call that has returned, with an answer of the source's type. -/
def Thread.answered {Ref : Type} (r : Except VirtualMapError Unit) : Thread Ref :=
  .returned (r.mapError Stop.error)

/-- What the address space sees of a step of a call that runs: nothing, or the call as a whole.
A request that is refused ends the call. -/
inductive Answered {Ref : Type} (root : Loc) (R : Fin 512) (alloc : NewPageTable) (c : Call)
    (space : AddressSpace) (s : Tables) (r : Thread Ref × Tables) : Prop
  | /-- The call goes on. -/
    running {pc : Pc Ref} (ht : r.1 = .running pc) (h : Represents r.2.store root R space)
      (hle : s.calls ≤ r.2.calls) (hrefused : refusals alloc s.calls r.2.calls = 0)
  | /-- The call returns. -/
    returned {answer : Except VirtualMapError Unit} {space' : AddressSpace}
      (ht : r.1 = .answered answer) (hstep : AddressSpace.Step R space c answer space')
      (h : Represents r.2.store root R space') (hle : s.calls ≤ r.2.calls)
      (hrefused : refusals alloc s.calls r.2.calls = if answer = .error .PageTable then 1 else 0)

section

variable {T Ref : Type} [VirtualMapper T Ref] {mapper : T} {alloc : NewPageTable} {c : Call}
  {s : Tables}

section

variable (hm : Lawful mapper root R e) (hs : Intact alloc root R e s) (hv : c.v_addr.slot 3 ≠ R)
  (h : Represents s.store root R space)

include hm hs hv

/-- In the page table, a test goes by whether the page is mapped. -/
theorem step_test_zero_eq {l : Loc} {t : PageTable}
    (hl : follow x86 s.store 0 root (c.v_addr.path.take 3) = some l) (ht : s.store l = some t) :
    ∃ table, step mapper alloc c (.test 0) s = if decode 3 (t (c.v_addr.slot 0)) = .leaf then
        .error (.error (.AlreadyMapped c.p_addr c.v_addr (leafBase 3 (t (c.v_addr.slot 0))))) s
      else .ok (some (.fill table (c.v_addr.slot 0))) s := by
  obtain ⟨table, hacc, hr⟩ := hm.access (by decide) hs.table hl
  have hread := readEntry_eq (hr hs.table hl) ht (c.v_addr.slot 0)
  have harm : ptArm (t (c.v_addr.slot 0)) = _ := hs.table.arm_eq hv (k := 3) (j := 0) rfl hl ht
  refine ⟨table, ?_⟩
  rw [step, run_bind_ok hacc, index_eq (toNat_tableIndex c.v_addr (by decide)),
    run_bind_ok (run_pure _ s), run_bind_ok hread, harm]
  cases hd : decode 3 (t (c.v_addr.slot 0)) with
  | empty => rfl
  | leaf => rfl
  | node => exact absurd (decode_eq_node hd).1 (by decide)

include h

theorem answered_test {level : ℕ} (ok : (Pc.test level).Ok mapper root R e c.v_addr s.store) :
    Answered root R alloc c space s
      (Thread.next (step mapper alloc c (.test level) s)) := by
  obtain ⟨hlevel, l, hl⟩ := ok
  obtain ⟨t, ht⟩ := hs.table.tree.exists_table (take_mem_avoiding hv _) hl
  -- a walk that ends in a leaf ends in a page table
  have hleaf (hd : decode (3 - level) (t (c.v_addr.slot level)) = .leaf) : ∃ m,
      space c.v_addr.pageIndex = some m ∧ level = 0 ∧
        t (c.v_addr.slot level) = (leafEntry m.frame m.flags).bits := by
    obtain ⟨ws, hw, hlen⟩ := walk_of_leaf (by omega) hl ht hd
    have hrep := h _ hv
    rw [hw, Option.map_some, eq_comm, Option.map_eq_some_iff] at hrep
    obtain ⟨m, hmem, hx⟩ := hrep
    obtain ⟨hk, hx⟩ := Prod.mk.inj hx
    exact ⟨m, hmem, by rw [hlen] at hk; omega, hx.symm⟩
  rcases level with _ | level
  · obtain ⟨table, hstep⟩ := step_test_zero_eq hm hs hv hl ht
    rw [hstep]
    split_ifs with hd
    · obtain ⟨m, hmem, -, hx⟩ := hleaf hd
      rw [hx, leafBase_leafEntry, PAddr.frame_eq_self m.isPage]
      exact .returned rfl (.taken hv hmem) h le_rfl (refusals_self ..)
    · exact .running rfl h le_rfl (refusals_self ..)
  · have hk : 3 - (level + 1) = 2 - level := by omega
    rw [hk] at hleaf hl
    obtain ⟨table, hr, hstep⟩ := step_test_succ hm hs hv (by omega) hl ht
    rw [hstep]
    cases hd : decode (2 - level) (t (c.v_addr.slot (level + 1))) with
    | empty => exact .running rfl h le_rfl (refusals_self ..)
    | leaf =>
        obtain ⟨m, -, hzero, -⟩ := hleaf hd
        cases hzero
    | node child => exact .running rfl h le_rfl (refusals_self ..)

omit hm in
theorem answered_request {level : ℕ} {table : Ref} {i : Fin 512}
    (ok : (Pc.request level table i).Ok mapper root R e c.v_addr s.store) :
    Answered root R alloc c space s
      (Thread.next (step mapper alloc c (.request level table i) s)) := by
  rw [step]
  cases ha : alloc s.calls with
  | none =>
      obtain ⟨l, hslot, -⟩ := ok.exists_slot
      have hfree : space c.v_addr.pageIndex = none := (h.walk_eq_none hv).mp
        ((walk_eq_lookup _ _ _).trans (hslot.lookup_eq_none ok.isPrefix))
      rw [run_bind_error (newPageTable_of_none ha)]
      exact .returned (show _ = Thread.answered (.error .PageTable) from rfl)
        (.noTable hv hfree) h (Nat.le_succ _)
        ((refusals_succ alloc s.calls).trans ((if_pos ha).trans (if_pos rfl).symm))
  | some a =>
      rw [run_bind_ok (newPageTable_of_some ha)]
      exact .running rfl (h.put (hs.unreached ha) _) (Nat.le_succ _)
        ((refusals_succ alloc s.calls).trans (if_neg (ha ▸ Option.some_ne_none a)))

omit hm hv in
theorem answered_link {level : ℕ} {table : Ref} {i : Fin 512} {a : PAddr}
    (ok : (Pc.link level table i a).Ok mapper root R e c.v_addr s.store) :
    Answered root R alloc c space s
      (Thread.next (step mapper alloc c (.link level table i a) s)) := by
  obtain ⟨haims, hholds⟩ := ok
  have hlevel := haims.level
  obtain ⟨l, hslot, hr⟩ := haims.exists_slot
  obtain ⟨t, ht, -⟩ := hslot.free
  have hlen := c.v_addr.length_take_path (show 3 - (level + 1) ≤ 4 by omega)
  have hattach := h.attach hs.table (by omega) hslot hholds
  rw [Store.attach_eq_write hholds.blank] at hattach
  rw [step, run_bind_ok (writeEntry_eq (hr hs.table hslot.follow) ht i _)]
  exact .running rfl hattach le_rfl (refusals_self ..)

omit hm in
theorem answered_fill {table : Ref} {i : Fin 512}
    (ok : (Pc.fill table i).Ok mapper root R e c.v_addr s.store) :
    Answered root R alloc c space s
      (Thread.next (step mapper alloc c (.fill table i) s)) := by
  obtain ⟨l, hslot, hr⟩ := ok.exists_slot
  obtain ⟨t, ht, he⟩ := hslot.free
  have hlen : (c.v_addr.path.take (3 - 0)).length = 3 := c.v_addr.length_take_path (by decide)
  have hpath : c.v_addr.path.take (3 - 0) ++ [i] = c.v_addr.path := by rw [ok.slot_eq]; rfl
  have hfree : space c.v_addr.pageIndex = none := (h.walk_eq_none hv).mp
    ((walk_eq_lookup _ _ _).trans (hslot.lookup_eq_none ok.isPrefix))
  have hfill : Fill x86 root (Domain.avoiding R) (leafEntry c.p_addr c.flags).bits
      (c.v_addr.path.take (3 - 0) ++ [i]) s (s.fill l i (leafEntry c.p_addr c.flags).bits) :=
    .intro hslot.mem hlen hslot.follow ht he
  obtain ⟨ws, hw, hws⟩ := hfill.lookup_self hs.table.tree (decode_leafEntry _ _)
  rw [hpath] at hw hfill
  rw [step, run_bind_ok (writeEntry_eq (hr hs.table hslot.follow) ht i _)]
  refine .returned (show _ = Thread.answered (.ok ()) from rfl) (.ok hv hfree) (fun u hu ↦ ?_)
    le_rfl (refusals_self ..)
  by_cases hpage : u.pageIndex = c.v_addr.pageIndex
  · have hwalk : walk (s.fill l i (leafEntry c.p_addr c.flags).bits).store root u =
        some (ws, (leafEntry c.p_addr c.flags).bits) := by
      rw [walk_eq_lookup, VAddr.path_eq_iff.mpr hpage, hw]
    change (walk (s.fill l i (leafEntry c.p_addr c.flags).bits).store root u).map leafOf = _
    rw [hwalk, hpage, Function.update_self, Option.map_some, Option.map_some, Call.mapping,
      leafEntry_frame, leafOf, hws]
    rfl
  · have hwalk : walk (s.fill l i (leafEntry c.p_addr c.flags).bits).store root u =
        walk s.store root u := by
      rw [walk_eq_lookup, walk_eq_lookup]
      refine (hfill.extends hs.table.tree).lookup_eq (path_mem_avoiding.mpr hu) fun hp ↦ hpage ?_
      exact (VAddr.path_eq_iff.mp (VAddr.path_eq_of_isPrefix hp)).symm
    change (walk (s.fill l i (leafEntry c.p_addr c.flags).bits).store root u).map leafOf = _
    rw [hwalk, Function.update_of_ne hpage, h u hu]

/-- A step of a call that runs is nothing to the address space, or the call as a whole. -/
theorem answered_step {pc : Pc Ref} (ok : pc.Ok mapper root R e c.v_addr s.store) :
    Answered root R alloc c space s
      (Thread.advance mapper alloc c (.running pc, s)) := by
  cases pc with
  | test level => exact answered_test hm hs hv h ok
  | request level table i => exact answered_request hs hv h ok
  | link level table i a => exact answered_link hs h ok
  | fill table i => exact answered_fill hs hv h ok

end

end

/-! ## Many calls -/

/-- Calls that run or have returned, and the tables they share. -/
structure Crowd (ι Ref : Type) where
  tables : Tables
  threads : ι → Thread Ref

section

variable {T Ref ι : Type} [VirtualMapper T Ref] [DecidableEq ι] (mapper : T) (alloc : NewPageTable)
  (calls : ι → Call)

/-- Calls that have not taken a step yet. -/
def Crowd.start (s : Tables) : Crowd ι Ref := ⟨s, fun i ↦ .start mapper (calls i)⟩

/-- Let one of the calls take a step. -/
def Crowd.advance (crowd : Crowd ι Ref) (i : ι) : Crowd ι Ref :=
  let r := Thread.advance mapper alloc (calls i) (crowd.threads i, crowd.tables)
  ⟨r.2, Function.update crowd.threads i r.1⟩

/-- Run the calls by a schedule, which says whose step is next. -/
def Crowd.run (schedule : List ι) (crowd : Crowd ι Ref) : Crowd ι Ref :=
  schedule.foldl (Crowd.advance mapper alloc calls) crowd

variable {mapper alloc calls} {s₀ : Tables} {crowd : Crowd ι Ref} {i : ι}

/-- What holds between the steps of calls that started on the tables `s₀`. -/
structure Crowd.Ok (mapper : T) (alloc : NewPageTable) (root : Loc) (R : Fin 512) (e : Word)
    (s₀ : Tables) (calls : ι → Call) (crowd : Crowd ι Ref) : Prop where
  intact : Intact alloc root R e crowd.tables
  kept : Kept s₀.store crowd.tables.store
  ok : ∀ i, (crowd.threads i).Ok mapper root R e (calls i) crowd.tables.store
  apart : ∀ i j, i ≠ j → ∀ a, (crowd.threads i).held = some a → (crowd.threads j).held ≠ some a

/-- The order in which calls have returned, and what the address space makes of it. -/
structure Crowd.Linear (alloc : NewPageTable) (root : Loc) (R : Fin 512) (s₀ : Tables)
    (space₀ : AddressSpace) (calls : ι → Call) (crowd : Crowd ι Ref) (order : List ι)
    (answers : ι → Except VirtualMapError Unit) (space : AddressSpace) : Prop where
  nodup : order.Nodup
  answered : ∀ i ∈ order, crowd.threads i = .answered (answers i)
  running : ∀ i ∉ order, ∃ pc, crowd.threads i = .running pc
  run : Run (AddressSpace.Step R) space₀ (order.map fun i ↦ (calls i, answers i)) space
  represents : Represents crowd.tables.store root R space
  calls_le : s₀.calls ≤ crowd.tables.calls
  refused : order.countP (answers · = .error .PageTable) =
    refusals alloc s₀.calls crowd.tables.calls

section

variable (hm : Lawful mapper root R e) (h₀ : TableTree s₀.store root R e)
  (hv : ∀ i, (calls i).v_addr.slot 3 ≠ R)
  (hd : ∀ i j, i ≠ j → Disjoint root R s₀ (calls i) (calls j))

include hm h₀ hv hd

/-- A step of one of the calls leaves what is known of the others. -/
theorem Crowd.Ok.advance (h : crowd.Ok mapper alloc root R e s₀ calls) (i : ι) :
    (crowd.advance mapper alloc calls i).Ok mapper alloc root R e s₀ calls := by
  have hstep : Stepped mapper alloc root R e (calls i) _ _ _ :=
    stepped hm h.intact (hv i) (h.ok i)
  have hkept := hstep.change.kept h.intact
  have hself : (crowd.advance mapper alloc calls i).threads i = _ := Function.update_self ..
  have hother {j : ι} (hj : j ≠ i) :
      (crowd.advance mapper alloc calls i).threads j = crowd.threads j :=
    Function.update_of_ne hj ..
  refine ⟨hstep.change.intact h.intact, h.kept.trans hkept, fun j ↦ ?_, fun j k hjk a ha hk ↦ ?_⟩
  · rcases eq_or_ne j i with rfl | hj
    · rw [hself]
      exact hstep.ok
    · have hpair := hd i j hj.symm
      have hpath : (calls i).v_addr.path ≠ (calls j).v_addr.path := fun hc ↦
        hpair.page_ne (VAddr.path_eq_iff.mp hc)
      have hspares := hstep.change.spares h.intact fun {π i l} hslot hp ↦
        FreeSlot.not_shared hpair.not_shared h.kept h₀ hpath hslot hp
      rw [hother hj]
      exact (h.ok j).spares (hv j) hkept hspares fun a ha ↦
        hstep.change.holds h.intact ((h.ok j).holds ha) fun hc ↦ h.apart i j hj.symm a hc ha
  · -- a page table that was just obtained is held by no other call
    have hfresh {j : ι} (hj : j ≠ i) (hi : ((crowd.advance mapper alloc calls i).threads i).held =
        some a) (hheld : (crowd.threads j).held = some a) : False := by
      rw [hself] at hi
      have hnone := hstep.fresh a hi
      rw [((h.ok j).holds hheld).blank] at hnone
      cases hnone
    rcases eq_or_ne j i with rfl | hj
    · rw [hother hjk.symm] at hk
      exact hfresh hjk.symm ha hk
    · rw [hother hj] at ha
      rcases eq_or_ne k i with rfl | hki
      · exact hfresh hj hk ha
      · rw [hother hki] at hk
        exact h.apart j k hjk a ha hk

omit h₀ hd in
/-- A step of one of the calls is nothing to the address space, or the call as a whole. -/
theorem Crowd.Linear.advance {order : List ι} {answers : ι → Except VirtualMapError Unit}
    {space₀ space : AddressSpace} (hok : crowd.Ok mapper alloc root R e s₀ calls)
    (h : crowd.Linear alloc root R s₀ space₀ calls order answers space) (i : ι) :
    ∃ order' answers' space', (crowd.advance mapper alloc calls i).Linear alloc root R s₀ space₀
      calls order' answers' space' := by
  have hself : (crowd.advance mapper alloc calls i).threads i = _ := Function.update_self ..
  have hother {j : ι} (hj : j ≠ i) :
      (crowd.advance mapper alloc calls i).threads j = crowd.threads j :=
    Function.update_of_ne hj ..
  by_cases hi : i ∈ order
  · -- a call that has returned does nothing more
    have hsame : crowd.advance mapper alloc calls i = crowd := by
      rw [Crowd.advance, h.answered i hi, Thread.answered, Thread.advance]
      exact congrArg (Crowd.mk _) (Function.update_eq_self_iff.mpr (h.answered i hi).symm)
    exact ⟨order, answers, space, hsame.symm ▸ h⟩
  · obtain ⟨pc, hpc⟩ := h.running i hi
    have hstep := answered_step hm hok.intact (hv i) h.represents (hpc ▸ hok.ok i)
    rw [← hpc] at hstep
    rcases hstep with ⟨ht, hrep, hle, hrefused⟩ | @⟨answer, space', ht, hstep, hrep, hle, hrefused⟩
    · refine ⟨order, answers, space, h.nodup, fun j hj ↦ ?_, fun j hj ↦ ?_, h.run, hrep,
        h.calls_le.trans hle, ?_⟩
      · rw [hother (ne_of_mem_of_not_mem hj hi)]
        exact h.answered j hj
      · rcases eq_or_ne j i with rfl | hji
        · exact ⟨_, hself.trans ht⟩
        · exact (hother hji).symm ▸ h.running j hj
      · change _ = refusals alloc s₀.calls (Thread.advance mapper alloc (calls i) _).2.calls
        rw [← refusals_add alloc h.calls_le hle, hrefused, Nat.add_zero, h.refused]
    · have hanswers {j : ι} (hj : j ∈ order) : Function.update answers i answer j = answers j :=
        Function.update_of_ne (ne_of_mem_of_not_mem hj hi) ..
      refine ⟨order ++ [i], Function.update answers i answer, space',
        List.nodup_append.mpr ⟨h.nodup, List.nodup_singleton i, ?_⟩, fun j hj ↦ ?_, fun j hj ↦ ?_,
        ?_, hrep, h.calls_le.trans hle, ?_⟩
      · rintro j hj _ hk rfl
        exact hi (List.mem_singleton.mp hk ▸ hj)
      · rcases eq_or_ne j i with rfl | hji
        · rw [Function.update_self]
          exact hself.trans ht
        · rw [hother hji, Function.update_of_ne hji]
          exact h.answered j ((List.mem_append.mp hj).resolve_right fun hc ↦
            hji (List.mem_singleton.mp hc))
      · have hji : j ≠ i := fun hc ↦ hj (List.mem_append_right _ (List.mem_singleton.mpr hc))
        rw [hother hji]
        exact h.running j fun hc ↦ hj (List.mem_append_left _ hc)
      · have hmap : order.map (fun j ↦ (calls j, Function.update answers i answer j)) =
            order.map fun j ↦ (calls j, answers j) :=
          List.map_congr_left fun j hj ↦ by rw [hanswers hj]
        rw [List.map_append, hmap, List.map_singleton, Function.update_self]
        exact h.run.append (.single hstep)
      · have hcount : order.countP (Function.update answers i answer · = .error .PageTable) =
            order.countP (answers · = .error .PageTable) :=
          List.countP_congr fun j hj ↦ by rw [hanswers hj]
        change _ = refusals alloc s₀.calls (Thread.advance mapper alloc (calls i) _).2.calls
        rw [← refusals_add alloc h.calls_le hle, hrefused, ← h.refused, List.countP_append, hcount,
          List.countP_singleton, Function.update_self]
        simp

omit h₀ in
/-- Under every schedule what is known of the calls holds, and those that have returned did so in
some order. -/
theorem Crowd.linear_run {space₀ : AddressSpace} (hs : Intact alloc root R e s₀)
    (h : Represents s₀.store root R space₀) (schedule : List ι) :
    ((Crowd.start mapper calls s₀).run mapper alloc calls schedule).Ok mapper alloc root R e s₀
        calls ∧
      ∃ order answers space, ((Crowd.start mapper calls s₀).run mapper alloc calls schedule).Linear
        alloc root R s₀ space₀ calls order answers space := by
  have hstart (i : ι) : (Crowd.start mapper calls s₀).threads i = .running (.test 3) :=
    thread_start hm (hv i)
  induction schedule using List.reverseRecOn with
  | nil =>
      refine ⟨⟨hs, .refl _, fun i ↦ ?_, fun i j _ a ha ↦ ?_⟩, [], fun _ ↦ .ok (), space₀,
        ⟨List.nodup_nil, fun i hi ↦ absurd hi List.not_mem_nil, fun i _ ↦ ⟨_, hstart i⟩, .nil, h,
          le_rfl, (refusals_self ..).symm⟩⟩
      · change ((Crowd.start mapper calls s₀).threads i).Ok mapper root R e (calls i) s₀.store
        rw [hstart i]
        exact ⟨le_rfl, root, rfl⟩
      · change ((Crowd.start mapper calls s₀).threads i).held = _ at ha
        rw [hstart i] at ha
        cases ha
  | append_singleton schedule i ih =>
      obtain ⟨hok, order, answers, space, hlin⟩ := ih
      rw [Crowd.run, List.foldl_append]
      exact ⟨hok.advance hm hs.table hv hd i, hlin.advance hm hv hok i⟩

end

/-- A call that runs has taken less than eleven steps. -/
theorem Crowd.count_lt_of_running (s : Tables) (schedule : List ι) {i : ι} {pc : Pc Ref}
    (h : ((Crowd.start mapper calls s).run mapper alloc calls schedule).threads i = .running pc) :
    pc.remaining + schedule.count i ≤ 11 := by
  induction schedule using List.reverseRecOn generalizing pc with
  | nil =>
      change Thread.start mapper (calls i) = _ at h
      rw [Thread.start] at h
      split_ifs at h
      obtain rfl := Thread.running.inj h
      exact le_rfl
  | append_singleton schedule j ih =>
      rw [Crowd.run, List.foldl_append, List.foldl_cons, List.foldl_nil, ← Crowd.run,
        Crowd.advance] at h
      rw [List.count_append]
      rcases eq_or_ne i j with rfl | hij
      · rw [List.count_singleton_self]
        change Function.update _ i _ i = _ at h
        rw [Function.update_self] at h
        cases ht : ((Crowd.start mapper calls s).run mapper alloc calls schedule).threads i with
        | returned r =>
            rw [ht] at h
            cases h
        | running pc₀ =>
            rw [ht, Thread.advance] at h
            have hcount := ih ht
            cases hstep : step mapper alloc (calls i) pc₀
                ((Crowd.start mapper calls s).run mapper alloc calls schedule).tables with
            | error err s' =>
                rw [hstep] at h
                cases h
            | ok o s' =>
                rcases o with _ | pc₁
                · rw [hstep] at h
                  cases h
                · rw [hstep] at h
                  obtain rfl := Thread.running.inj h
                  have hlt := remaining_step mapper alloc (calls i) hstep
                  omega
      · change Function.update _ j _ i = _ at h
        rw [Function.update_of_ne hij] at h
        have hzero : [j].count i = 0 :=
          List.count_eq_zero.mpr fun hc ↦ hij (List.mem_singleton.mp hc)
        rw [hzero, Nat.add_zero]
        exact ih h

/-- What the calls of a crowd have come to under a schedule.  Those that have returned did so in
an order in which the address space gives their answers, as many of them without a page table as
requests were refused, and whoever took eleven steps is among them. -/
def Linearizable (mapper : T) (alloc : NewPageTable) (root : Loc) (R : Fin 512)
    (space : AddressSpace) (calls : ι → Call) (s : Tables) : Prop :=
  ∀ schedule : List ι, let crowd := (Crowd.start mapper calls s).run mapper alloc calls schedule
    ∃ (order : List ι) (answers : ι → Except VirtualMapError Unit) (space' : AddressSpace),
      order.Nodup ∧
      (∀ i ∈ order, crowd.threads i = .answered (answers i)) ∧
      (∀ i ∉ order, (∃ pc, crowd.threads i = .running pc) ∧ schedule.count i < 11) ∧
      Run (AddressSpace.Step R) space (order.map fun i ↦ (calls i, answers i)) space' ∧
      order.countP (answers · = .error .PageTable) =
        refusals alloc s.calls crowd.tables.calls ∧
      Shows crowd.tables.store root R space'

theorem linearizable_of_lawful {s : Tables} (hm : Lawful mapper root R e)
    (hs : Intact alloc root R e s) (h : Represents s.store root R space)
    (hv : ∀ i, (calls i).v_addr.slot 3 ≠ R)
    (hd : ∀ i j, i ≠ j → Disjoint root R s (calls i) (calls j)) :
    Linearizable mapper alloc root R space calls s := by
  intro schedule crowd
  obtain ⟨-, order, answers, space', hlin⟩ :=
    Crowd.linear_run hm hv hd hs h schedule
  refine ⟨order, answers, space', hlin.nodup, hlin.answered, fun i hi ↦ ?_, hlin.run,
    hlin.refused, hlin.represents.shows⟩
  obtain ⟨pc, hpc⟩ := hlin.running i hi
  have hcount := Crowd.count_lt_of_running s schedule hpc
  have hpos : 0 < pc.remaining := by cases pc <;> simp [Pc.remaining]
  exact ⟨⟨pc, hpc⟩, by omega⟩

end

theorem represents_finished (count : ℕ) (h : 0 < count) (h' : count < 2 ^ 40) :
    Represents (VirtualMapBuilder.finished VirtualMapBuilder.tables 510 ⟨0x1000⟩).store
      (.page ⟨0x1000⟩) 510 .empty := by
  have hR : (510 : Word).toNat < 512 := by decide
  have hs := intact_tables (documented_firstPages h') ⟨(510 : Word).toNat, hR⟩
  have ha : firstPages count VirtualMapBuilder.tables.calls = some ⟨0x1000⟩ := if_pos h
  obtain ⟨-, -, -, -, -, hwalk⟩ :=
    VirtualMapBuilder.finish_spec hR hs (VirtualMapBuilder.finish_of_some hR hs ha)
  exact (represents_tables ⟨_, hR⟩).congr fun _ hu ↦ hwalk hu

end Elpytios
