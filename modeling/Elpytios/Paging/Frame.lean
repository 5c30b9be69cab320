import Elpytios.Paging.Pages

/-!
# Computations on a part of the tables

The tables of one tree are a part of memory.  A computation that is defined on them answers the
same and does the same to them in a larger memory, and it leaves the rest of that memory alone
(`Framed`).  The computations of `virt.rs` are all of this kind: they read and write entries of
tables that they have been given or have found a link to.
-/

namespace Elpytios

open Radix

/-- Some tables as a part of more of them. -/
structure Part (s t : Tables) : Prop where
  own : t.store .own = s.store .own
  page : ∀ {a x}, s.store (.page a) = some x → t.store (.page a) = some x
  calls : t.calls = s.calls

/-- A run on all of the tables in `t` is like one on the part of them in `s`. -/
structure Follows (alloc : NewPageTable) {α : Type} (s t : Tables)
    (r r' : EStateM.Result Stop Tables α) : Prop where
  answer_eq : answer r' = answer r
  part : Part (after r) (after r')
  /-- What is not in the part in the end never was, and is as before. -/
  kept : ∀ a, (after r).store (.page a) = none →
    s.store (.page a) = none ∧ (after r').store (.page a) = t.store (.page a)
  /-- The part grows by pages that are handed out. -/
  provided : ∀ a, (after r).store (.page a) ≠ none →
    s.store (.page a) ≠ none ∨ ∃ n, alloc n = some a

/-- A computation that is defined on some tables goes the same way on more of them, and leaves
the others alone. -/
structure Framed (alloc : NewPageTable) {α : Type} (x : MapM α) : Prop where
  follows : ∀ {s t : Tables}, Part s t → answer (x s) ≠ .error .undefined →
    Follows alloc s t (x s) (x t)

section

variable {s t : Tables}

theorem Part.some_of_some (h : Part s t) {l : Loc} {x : PageTable} (hx : s.store l = some x) :
    t.store l = some x := by
  cases l with
  | own => exact h.own.trans hx
  | page a => exact h.page hx

/-- The walks through a tree are the same among more tables, whatever they find. -/
theorem Part.walk_of_tree (h : Part s t) {root : Loc} {R : Fin 512} {e : Word}
    (htree : TableTree s.store root R e) {v : VAddr} (hv : v.slot 3 ≠ R) :
    walk t.store root v = walk s.store root v := by
  rw [walk_eq_lookup, walk_eq_lookup, lookup_eq_descend (follow_nil 0 root),
    lookup_eq_descend (follow_nil 0 root)]
  refine descend_congr fun π l hπ hl ↦ ?_
  have hmem := (Domain.avoiding R).mem_of_isPrefix (path_mem_avoiding.mpr hv) hπ
  obtain ⟨x, hx⟩ := htree.tree.exists_table hmem hl
  exact (h.some_of_some hx).trans hx.symm

variable {alloc : NewPageTable} {α β : Type}

/-- A run that changes nothing. -/
theorem Follows.same (h : Part s t) {r r' : EStateM.Result Stop Tables α}
    (hanswer : answer r' = answer r) (hs : after r = s) (ht : after r' = t) :
    Follows alloc s t r r' where
  answer_eq := hanswer
  part := by rwa [hs, ht]
  kept _ ha := by rw [hs] at ha; exact ⟨ha, by rw [ht]⟩
  provided _ ha := by rw [hs] at ha; exact Or.inl ha

/-! ## Sequences -/

theorem Framed.pure (a : α) : Framed alloc (pure a : MapM α) := ⟨fun h _ ↦ .same h rfl rfl rfl⟩

theorem Framed.throw (e : Stop) : Framed alloc (throw e : MapM α) :=
  ⟨fun h _ ↦ .same h rfl rfl rfl⟩

/-- What follows a run on the tables that a run has left. -/
theorem Follows.trans {s₁ t₁ : Tables} {a : α} {r r' : EStateM.Result Stop Tables β}
    (h : Follows alloc s t (.ok a s₁ : EStateM.Result Stop Tables α) (.ok a t₁))
    (h' : Follows alloc s₁ t₁ r r') : Follows alloc s t r r' where
  answer_eq := h'.answer_eq
  part := h'.part
  kept a hnone := by
    obtain ⟨hnone₁, heq⟩ := h'.kept a hnone
    obtain ⟨hnone₀, heq₁⟩ := h.kept a hnone₁
    exact ⟨hnone₀, heq.trans heq₁⟩
  provided a hsome := by
    rcases h'.provided a hsome with hsome₁ | hn
    · exact h.provided a hsome₁
    · exact Or.inr hn

theorem bind_follows {x : MapM α} {f : α → MapM β}
    (hx : answer (x s) ≠ .error .undefined → Follows alloc s t (x s) (x t))
    (hf : ∀ a, Framed alloc (f a)) (hdef : answer ((x >>= f) s) ≠ .error .undefined) :
    Follows alloc s t ((x >>= f) s) ((x >>= f) t) := by
  cases hs : x s with
  | ok a s₁ =>
      have hfollows := hx (by simp [hs])
      rw [hs] at hfollows
      have ht := eq_ok_of_answer (hfollows.answer_eq.trans (answer_ok a s₁))
      rw [ht] at hfollows
      rw [run_bind_ok hs] at hdef ⊢
      rw [run_bind_ok ht]
      exact hfollows.trans ((hf a).follows hfollows.part hdef)
  | error e s₁ =>
      rw [run_bind_error hs] at hdef ⊢
      have hfollows := hx (by simpa [hs] using hdef)
      rw [hs] at hfollows
      have ht := eq_error_of_answer (hfollows.answer_eq.trans (answer_error e s₁))
      rw [ht] at hfollows
      rw [run_bind_error ht]
      exact ⟨rfl, hfollows.part, hfollows.kept, hfollows.provided⟩

theorem Framed.bind {x : MapM α} {f : α → MapM β} (hx : Framed alloc x)
    (hf : ∀ a, Framed alloc (f a)) : Framed alloc (x >>= f) :=
  ⟨fun h ↦ bind_follows (hx.follows h) hf⟩

theorem Framed.ite {p : Prop} [Decidable p] {x y : MapM α} (hx : Framed alloc x)
    (hy : Framed alloc y) : Framed alloc (if p then x else y) := by
  split
  · exact hx
  · exact hy

theorem Framed.forM {calls : List β} {f : β → MapM Unit} (hf : ∀ c, Framed alloc (f c)) :
    Framed alloc (forM calls f) := by
  induction calls with
  | nil => exact Framed.pure ()
  | cons c calls ih => exact (hf c).bind fun _ ↦ ih

/-- What is left of a stop when a result is unwrapped. -/
def Stop.unwrapped : Stop → Stop
  | .error _ => .panic
  | e => e

theorem answer_unwrapOrPanic (x : MapM α) (s : Tables) :
    answer (unwrapOrPanic x s) = (answer (x s)).mapError Stop.unwrapped := by
  rw [unwrapOrPanic]
  cases x s with
  | ok => rfl
  | error e => cases e <;> rfl

theorem Framed.unwrapOrPanic {x : MapM α} (hx : Framed alloc x) :
    Framed alloc (unwrapOrPanic x) := by
  refine ⟨fun {s t} h hdef ↦ ?_⟩
  have hdef' : answer (x s) ≠ .error .undefined := by
    intro hx
    rw [Elpytios.unwrapOrPanic, eq_error_of_answer hx] at hdef
    exact hdef rfl
  have hfollows := hx.follows h hdef'
  refine ⟨by rw [answer_unwrapOrPanic, answer_unwrapOrPanic, hfollows.answer_eq], ?_, ?_, ?_⟩
  · simpa only [after_unwrapOrPanic] using hfollows.part
  · simpa only [after_unwrapOrPanic] using hfollows.kept
  · simpa only [after_unwrapOrPanic] using hfollows.provided

/-! ## Tables -/

theorem Framed.index (i : Word) : Framed alloc (index i) := by
  rw [Elpytios.index]
  split
  · exact Framed.pure _
  · exact Framed.throw _

theorem Framed.indexUnchecked (i : Word) : Framed alloc (indexUnchecked i) := by
  rw [Elpytios.indexUnchecked]
  split
  · exact Framed.pure _
  · exact Framed.throw _

/-- What is read of the part is read of the whole. -/
theorem follows_readAt (h : Part s t) {l l' : Option Loc} (hl : ∀ m, l = some m → l' = some m)
    (i : Fin 512) (hdef : answer (readAt l i s) ≠ .error .undefined) :
    Follows alloc s t (readAt l i s) (readAt l' i t) := by
  cases hbind : l.bind s.store with
  | none => simp [readAt, hbind] at hdef
  | some x =>
      obtain ⟨m, hm, hx⟩ := Option.bind_eq_some_iff.mp hbind
      have hbind' : l'.bind t.store = some x := by
        rw [hl m hm, Option.bind_some, h.some_of_some hx]
      rw [readAt, readAt, hbind, hbind']
      exact .same h rfl rfl rfl

/-- What is written to the part is written to the whole. -/
theorem follows_writeAt (h : Part s t) {l l' : Option Loc} (hl : ∀ m, l = some m → l' = some m)
    (i : Fin 512) (e : Word) (hdef : answer (writeAt l i e s) ≠ .error .undefined) :
    Follows alloc s t (writeAt l i e s) (writeAt l' i e t) := by
  cases l with
  | none => simp [writeAt] at hdef
  | some m =>
      cases hm : s.store m with
      | none => simp [writeAt, hm] at hdef
      | some x =>
          have hx := h.some_of_some hm
          have hs : writeAt (some m) i e s = .ok () (s.fill m i e) := by simp [writeAt, hm]
          have ht : writeAt l' i e t = .ok () (t.fill m i e) := by simp [writeAt, hl m rfl, hx]
          rw [hs, ht]
          refine ⟨rfl, ⟨?_, fun {a y} hy ↦ ?_, h.calls⟩, fun a ha ↦ ?_, fun a ha ↦ ?_⟩
          · change t.store.write m i e .own = s.store.write m i e .own
            rw [Store.write, Store.write, h.own]
          · change s.store.write m i e (.page a) = some y at hy
            change t.store.write m i e (.page a) = some y
            by_cases ham : .page a = m
            · subst ham
              rw [Store.write_self hm] at hy
              rwa [Store.write_self hx]
            · rw [Store.write_of_ne ham] at hy ⊢
              exact h.page hy
          · change s.store.write m i e (.page a) = none at ha
            change _ ∧ t.store.write m i e (.page a) = _
            have ham : .page a ≠ m := by
              rintro rfl
              simp [Store.write_self hm] at ha
            rw [Store.write_of_ne ham] at ha ⊢
            exact ⟨ha, rfl⟩
          · refine Or.inl fun hnone ↦ ha ?_
            change s.store.write m i e (.page a) = none
            rw [← Option.not_isSome_iff_eq_none, Store.isSome_write,
              Option.not_isSome_iff_eq_none]
            exact hnone

theorem Framed.readAt (l : Option Loc) (i : Fin 512) : Framed alloc (readAt l i) :=
  ⟨fun h hdef ↦ follows_readAt h (fun _ hm ↦ hm) i hdef⟩

theorem Framed.writeAt (l : Option Loc) (i : Fin 512) (e : Word) : Framed alloc (writeAt l i e) :=
  ⟨fun h hdef ↦ follows_writeAt h (fun _ hm ↦ hm) i e hdef⟩

theorem Framed.newPageTable : Framed alloc (newPageTable alloc) := by
  refine ⟨fun {s t} h _ ↦ ?_⟩
  cases ha : alloc s.calls with
  | none =>
      have hs : Elpytios.newPageTable alloc s = .error (.error .PageTable) s.refuse := by
        simp [Elpytios.newPageTable, ha]
      have ht : Elpytios.newPageTable alloc t = .error (.error .PageTable) t.refuse := by
        simp [Elpytios.newPageTable, h.calls, ha]
      rw [hs, ht]
      exact ⟨rfl, ⟨h.own, h.page, congrArg (· + 1) h.calls⟩, fun _ hnone ↦ ⟨hnone, rfl⟩,
        fun _ ↦ Or.inl⟩
  | some b =>
      have hs : Elpytios.newPageTable alloc s = .ok b
          { store := s.store.put (.page b) PageTable.zeroed, calls := s.calls + 1 } := by
        simp [Elpytios.newPageTable, ha]
      have ht : Elpytios.newPageTable alloc t = .ok b
          { store := t.store.put (.page b) PageTable.zeroed, calls := t.calls + 1 } := by
        simp [Elpytios.newPageTable, h.calls, ha]
      rw [hs, ht]
      refine ⟨rfl, ⟨?_, fun {a y} hy ↦ ?_, congrArg (· + 1) h.calls⟩, fun a hnone ↦ ?_,
        fun a hsome ↦ ?_⟩
      · change t.store.put (.page b) PageTable.zeroed .own =
          s.store.put (.page b) PageTable.zeroed .own
        rw [Store.put, Store.put, h.own]
      · change s.store.put (.page b) PageTable.zeroed (.page a) = some y at hy
        change t.store.put (.page b) PageTable.zeroed (.page a) = some y
        rw [Store.put] at hy ⊢
        split_ifs with hab
        · rwa [if_pos hab] at hy
        · rw [if_neg hab] at hy
          exact h.page hy
      · change s.store.put (.page b) PageTable.zeroed (.page a) = none at hnone
        change _ ∧ t.store.put (.page b) PageTable.zeroed (.page a) = _
        have hab : Loc.page a ≠ .page b := fun hab ↦ by simp [hab] at hnone
        rw [Store.put_of_ne hab] at hnone ⊢
        exact ⟨hnone, rfl⟩
      · change s.store.put (.page b) PageTable.zeroed (.page a) ≠ none at hsome
        by_cases hab : a = b
        · exact Or.inr ⟨s.calls, hab ▸ ha⟩
        · rw [Store.put_of_ne fun h ↦ hab (Loc.page.inj h)] at hsome
          exact Or.inl hsome

/-! ## Mappers -/

/-- A mapper that finds the tables of the part in the whole. -/
structure FramedMapper (alloc : NewPageTable) {T Ref : Type} [VirtualMapper T Ref] (mapper : T) :
    Prop where
  pml4 : Framed alloc (VirtualMapper.pml4 mapper)
  pdpt : ∀ i, Framed alloc (VirtualMapper.pdpt mapper i)
  pd : ∀ i j, Framed alloc (VirtualMapper.pd mapper i j)
  pt : ∀ i j k, Framed alloc (VirtualMapper.pt mapper i j k)
  deref : ∀ {s t : Tables} {table : Ref} {l}, Part s t →
    VirtualMapper.deref mapper table s.store = some l →
    VirtualMapper.deref mapper table t.store = some l

namespace LocalMapper

theorem framed_pdpt (mapper : LocalMapper) (i : Word) : Framed alloc (mapper.pdpt i) :=
  (Framed.indexUnchecked i).bind fun _ ↦ (Framed.readAt _ _).bind fun _ ↦ .pure _

theorem framed_pd (mapper : LocalMapper) (i j : Word) : Framed alloc (mapper.pd i j) := by
  refine (mapper.framed_pdpt i).bind fun _ ↦ (Framed.indexUnchecked j).bind fun _ ↦
    (Framed.readAt _ _).bind fun e ↦ ?_
  split
  · exact .pure _
  · exact .throw _

theorem framed_pt (mapper : LocalMapper) (i j k : Word) : Framed alloc (mapper.pt i j k) := by
  refine (mapper.framed_pd i j).bind fun _ ↦ (Framed.indexUnchecked k).bind fun _ ↦
    (Framed.readAt _ _).bind fun e ↦ ?_
  split
  · exact .pure _
  · exact .throw _

theorem framedMapper (mapper : LocalMapper) : FramedMapper alloc mapper where
  pml4 := .pure _
  pdpt := mapper.framed_pdpt
  pd := mapper.framed_pd
  pt := mapper.framed_pt
  deref _ h := h

end LocalMapper

theorem RecursiveMapper.framedMapper (mapper : RecursiveMapper) : FramedMapper alloc mapper where
  pml4 := .pure _
  pdpt _ := .pure _
  pd _ _ := .pure _
  pt _ _ _ := .pure _
  deref {s t v l} h hl := by
    change RecursiveMapper.deref mapper v s.store = some l at hl
    change RecursiveMapper.deref mapper v t.store = some l
    rw [RecursiveMapper.deref] at hl ⊢
    split_ifs at hl ⊢
    obtain ⟨x, hx, rfl⟩ := Option.map_eq_some_iff.mp hl
    obtain ⟨w, hw, rfl⟩ := Option.map_eq_some_iff.mp hx
    rw [translate, walk_of_le (fun _ _ ↦ h.some_of_some) hw]
    rfl

section

variable {T Ref : Type} [VirtualMapper T Ref] {mapper : T} (hm : FramedMapper alloc mapper)

include hm

theorem FramedMapper.readEntry (table : Ref) (i : Fin 512) :
    Framed alloc (readEntry mapper table i) :=
  ⟨fun h hdef ↦ follows_readAt h (fun _ hl ↦ hm.deref h hl) i hdef⟩

theorem FramedMapper.writeEntry (table : Ref) (i : Fin 512) (e : Word) :
    Framed alloc (writeEntry mapper table i e) :=
  ⟨fun h hdef ↦ follows_writeAt h (fun _ hl ↦ hm.deref h hl) i e hdef⟩

theorem FramedMapper.matchNode (p_addr : PAddr) (v_addr : VAddr) (arm : Word → Arm) (table : Ref)
    (i : Word) : Framed alloc (matchNode mapper alloc p_addr v_addr arm table i) := by
  refine (Framed.index i).bind fun i ↦ (hm.readEntry table i).bind fun e ↦ ?_
  cases arm e with
  | absent => exact Framed.newPageTable.bind fun _ ↦ hm.writeEntry table i _
  | leaf => exact .throw _
  | node => exact .pure _

theorem FramedMapper.matchLeaf (p_addr : PAddr) (v_addr : VAddr) (flags : VFlags) (table : Ref)
    (i : Word) : Framed alloc (matchLeaf mapper p_addr v_addr flags table i) := by
  refine (Framed.index i).bind fun i ↦ (hm.readEntry table i).bind fun e ↦ ?_
  split
  · exact .throw _
  · exact hm.writeEntry table i _

/-- `VirtualMap::map` keeps to the tables it is given. -/
theorem FramedMapper.map (p_addr : PAddr) (v_addr : VAddr) (flags : VFlags) :
    Framed alloc (VirtualMap.map mapper alloc p_addr v_addr flags) := by
  refine .ite (.throw _) (hm.pml4.bind fun _ ↦ (hm.matchNode ..).bind fun _ ↦ ?_)
  refine (hm.pdpt _).bind fun _ ↦ (hm.matchNode ..).bind fun _ ↦ ?_
  refine (hm.pd _ _).bind fun _ ↦ (hm.matchNode ..).bind fun _ ↦ ?_
  exact (hm.pt _ _ _).bind fun _ ↦ hm.matchLeaf ..

theorem FramedMapper.mapPages (calls : List Call) : Framed alloc (mapPages mapper alloc calls) :=
  .forM fun c ↦ (hm.map c.p_addr c.v_addr c.flags).unwrapOrPanic

end

/-! ## `VirtualMapBuilder` -/

/-- The builder's own table is moved into a page of the part. -/
theorem follows_intoPage (h : Part s t) {x : PageTable} (hown : s.store .own = some x) {a : PAddr}
    (hdef : answer (VirtualMapBuilder.intoPage a s) ≠ .error .undefined) :
    Follows alloc s t (VirtualMapBuilder.intoPage a s) (VirtualMapBuilder.intoPage a t) := by
  cases ha : s.store (.page a) with
  | none => simp [VirtualMapBuilder.intoPage, ha] at hdef
  | some y =>
      have hown' := h.some_of_some hown
      simp only [VirtualMapBuilder.intoPage, ha, h.page ha]
      refine ⟨rfl, ⟨rfl, fun {b z} hz ↦ ?_, h.calls⟩, fun b hnone ↦ ?_, fun b hsome ↦ ?_⟩
      · simp only [after_ok, reduceCtorEq, if_false, hown, hown'] at hz ⊢
        split_ifs at hz ⊢
        · exact hz
        · exact h.page hz
      · simp only [after_ok, reduceCtorEq, if_false, hown] at hnone ⊢
        split_ifs at hnone ⊢
        exact ⟨hnone, rfl⟩
      · simp only [after_ok, reduceCtorEq, if_false, Loc.page.injEq] at hsome
        by_cases hb : b = a
        · exact Or.inl (by simp [hb, ha])
        · exact Or.inl (by rwa [if_neg hb] at hsome)

/-- The last steps of `finish`.  The builder's own table is there, since an entry of it was
written. -/
theorem VirtualMapBuilder.framed_moveOwn (i : Fin 512) (e : Word) (pml4 : PAddr) (a : α) :
    Framed alloc (writeAt (some .own) i e >>= fun _ ↦ intoPage pml4 >>= fun _ ↦ pure a) := by
  refine ⟨fun {s t} h hdef ↦ ?_⟩
  cases hown : s.store .own with
  | none =>
      have hs : writeAt (some .own) i e s = .error .undefined s := by simp [writeAt, hown]
      rw [run_bind_error hs] at hdef
      exact absurd rfl hdef
  | some x =>
      have hs : writeAt (some .own) i e s = .ok () (s.fill .own i e) := by simp [writeAt, hown]
      have ht : writeAt (some .own) i e t = .ok () (t.fill .own i e) := by
        simp [writeAt, h.some_of_some hown]
      have hwrite : Framed alloc (writeAt (some .own) i e) := .writeAt _ i e
      have hfollows := hwrite.follows h (by simp [hs])
      rw [hs, ht] at hfollows
      rw [run_bind_ok hs] at hdef ⊢
      rw [run_bind_ok ht]
      exact hfollows.trans (bind_follows (follows_intoPage hfollows.part (Store.write_self hown))
        (fun _ ↦ .pure a) hdef)

theorem VirtualMapBuilder.framed_finish (R : Word) :
    Framed alloc (VirtualMapBuilder.new R alloc).finish := by
  refine Framed.newPageTable.bind fun pml4 ↦ (Framed.index _).bind fun i ↦
    (Framed.readAt _ _).bind fun e ↦ .ite (.throw _) ?_
  exact VirtualMapBuilder.framed_moveOwn i _ pml4 _

end

end Elpytios
