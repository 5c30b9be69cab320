import Elpytios.Paging.Recursive

/-!
# The error paths of `VirtualMap::map`

`ErrorPaths` says when a call fails, with what error, and what it leaves behind.  It holds
for both mappers, on every tree of page tables (`error_paths`).

A call that fails halfway has linked new page tables, which no address outside slot `R`
can show (`Shielded`).  Addresses in slot `R` are another matter once the slot points
back to the PML4: they are there to show the page tables themselves
(`failed_call_visible_in_slot`).
-/

namespace Elpytios

open Radix

/-- An address whose walk does not show the page tables themselves: it is outside slot `R`,
or the slot is free. -/
def Shielded (R : Fin 512) (e : Word) (u : VAddr) : Prop := u.slot 3 ≠ R ∨ present e = false

/-- What is left by a call that failed for want of a page table. -/
structure Abandoned {T Ref : Type} [VirtualMapper T Ref] (mapper : T) (alloc : NewPageTable)
    (root : Loc) (R : Fin 512) (e : Word) (p : PAddr) (v : VAddr) (f : VFlags) (s s' : Tables) :
    Prop where
  /-- No translation has changed. -/
  translate_eq : ∀ {u}, Shielded R e u → translate s'.store root u = translate s.store root u
  /-- The tables still form a tree. -/
  intact : Intact alloc root R e s'
  /-- Every page table obtained before the failure is linked on the way to the page, and
  holds nothing but at most the links to others of them. -/
  linked : ∀ {n}, s.calls ≤ n → n + 1 < s'.calls →
    ∃ a π t, alloc n = some a ∧ π <+: v.path ∧ follow x86 s'.store 0 root π = some (.page a) ∧
      s'.store (.page a) = some t ∧ ∀ j, t j = 0 ∨
        ∃ m b, s.calls ≤ m ∧ m + 1 < s'.calls ∧ alloc m = some b ∧
          t j = (NodeEntry.new Entry.WRITABLE b).bits
  /-- With enough page tables the same call succeeds, and all is as if it had succeeded
  in the first place. -/
  retry : ∀ {alloc₂}, Intact alloc₂ root R e s' →
    (∀ n, s'.calls ≤ n → n < s'.calls + missing x86 s'.store root v.path → alloc₂ n ≠ none) →
    ∃ s₂, VirtualMap.map mapper alloc₂ p v f s' = .ok () s₂ ∧
      ∀ {alloc₃ s₃}, Intact alloc₃ root R e s → VirtualMap.map mapper alloc₃ p v f s = .ok () s₃ →
        ∀ {u}, Shielded R e u → translate s₂.store root u = translate s₃.store root u

/-- The error paths of a call of `map`. -/
structure ErrorPaths {T Ref : Type} [VirtualMapper T Ref] (mapper : T) (alloc : NewPageTable)
    (root : Loc) (R : Fin 512) (e : Word) (p : PAddr) (v : VAddr) (f : VFlags) (s : Tables) :
    Prop where
  /-- The call returns `Ok` or one of the errors. -/
  returns : answer (VirtualMap.map mapper alloc p v f s) = .ok () ∨
    ∃ err, answer (VirtualMap.map mapper alloc p v f s) = .error (.error err)
  /-- It returns `Reserved` for the addresses of slot `R`. -/
  reserved : answer (VirtualMap.map mapper alloc p v f s) = .error (.error (.Reserved p v)) ↔
    v.slot 3 = R
  /-- It returns `AlreadyMapped` for the pages mapped already, with the base of the leaf
  that covers them. -/
  alreadyMapped : v.slot 3 ≠ R → ∀ a,
    (answer (VirtualMap.map mapper alloc p v f s) = .error (.error (.AlreadyMapped p v a)) ↔
      ∃ w, walk s.store root v = some w ∧ a = leafBase w.1.length w.2)
  /-- In these cases it does nothing: no page table is asked for and no entry changes. -/
  untouched : v.slot 3 = R ∨ walk s.store root v ≠ none →
    after (VirtualMap.map mapper alloc p v f s) = s
  /-- Otherwise it returns `PageTable` if one of the tables missing on the way is refused. -/
  pageTable : answer (VirtualMap.map mapper alloc p v f s) = .error (.error .PageTable) ↔
    v.slot 3 ≠ R ∧ walk s.store root v = none ∧
      ∃ n, s.calls ≤ n ∧ n < s.calls + missing x86 s.store root v.path ∧ alloc n = none
  abandoned : answer (VirtualMap.map mapper alloc p v f s) = .error (.error .PageTable) →
    Abandoned mapper alloc root R e p v f s (after (VirtualMap.map mapper alloc p v f s))

section

variable {T Ref : Type} [VirtualMapper T Ref] {mapper : T} {root : Loc} {R : Fin 512} {e : Word}
  {alloc alloc' : NewPageTable} {s s' s₁ s₂ : Tables} {p : PAddr} {v u : VAddr} {f : VFlags}

/-- Translation reads the leaf and how many entries stand above it. -/
theorem translate_congr {mem mem' : Memory} {root' : Loc}
    (h : (walk mem root u).map (fun w ↦ (w.1.length, w.2)) =
      (walk mem' root' u).map fun w ↦ (w.1.length, w.2)) :
    translate mem root u = translate mem' root' u := by
  rw [translate, translate]
  cases hw : walk mem root u <;> cases hw' : walk mem' root' u <;> simp_all

/-- Two states agree on the addresses that are shielded if their walks agree outside slot
`R`. -/
theorem translate_of_shielded (hs : TableTree s.store root R e) (hs' : TableTree s'.store root R e)
    (hu : Shielded R e u)
    (h : u.slot 3 ≠ R → (walk s'.store root u).map (fun w ↦ (w.1.length, w.2)) =
      (walk s.store root u).map fun w ↦ (w.1.length, w.2)) :
    translate s'.store root u = translate s.store root u := by
  by_cases hv : u.slot 3 = R
  · have he : present e = false := hu.resolve_left (absurd hv)
    rw [translate, translate, hs.walk_of_free he hv, hs'.walk_of_free he hv]
  · exact translate_congr (h hv)

/-- Two successful calls for the same page from states with the same walks agree on what
they leave. -/
theorem leaf_eq_of_ok (hm : Lawful mapper root R e) (hs : Intact alloc root R e s)
    (hs' : Intact alloc' root R e s') (hwalk : walk s'.store root u = walk s.store root u)
    (hu : u.slot 3 ≠ R) (hok : VirtualMap.map mapper alloc p v f s = .ok () s₁)
    (hok' : VirtualMap.map mapper alloc' p v f s' = .ok () s₂) :
    (walk s₂.store root u).map (fun w ↦ (w.1.length, w.2)) =
      (walk s₁.store root u).map fun w ↦ (w.1.length, w.2) := by
  by_cases hpage : u.pageIndex = v.pageIndex
  · obtain ⟨-, ws, hw, hlen⟩ := walk_of_ok hm hs hok
    obtain ⟨-, ws', hw', hlen'⟩ := walk_of_ok hm hs' hok'
    rw [walk_eq_lookup, ← VAddr.path_eq_iff.mpr hpage, ← walk_eq_lookup] at hw hw'
    rw [hw, hw']
    simp [hlen, hlen']
  · rw [walk_of_ne hm hs hok hu hpage, walk_of_ne hm hs' hok' hu hpage, hwalk]

variable (hm : Lawful mapper root R e) (hs : Intact alloc root R e s)

include hm hs

/-- What a call that was refused a page table leaves. -/
theorem abandoned_of_noTable (hv : v.slot 3 ≠ R)
    (hins : Inserted x86 (supply alloc) root (Domain.avoiding R) (leafEntry p f).bits v.path s
      (.error .noTable) s') : Abandoned mapper alloc root R e p v f s s' := by
  have hs' := hs.inserted hins
  have hwalk : ∀ {u : VAddr}, u.slot 3 ≠ R → walk s'.store root u = walk s.store root u :=
    fun hu ↦ by
      rw [walk_eq_lookup, walk_eq_lookup]
      exact hins.lookup_of_error hs.good (path_mem_avoiding.mpr hu)
  refine ⟨fun hu ↦ ?_, hs', fun {n} hn hn' ↦ ?_, fun {alloc₂} h₂ hall ↦ ?_⟩
  · exact translate_of_shielded hs.table hs'.table hu fun hu ↦ by rw [hwalk hu]
  · cases hins with
    | @noTable s₁ _ hg _ _ =>
        obtain ⟨l, π, t, hl, hπ, -, hfl, ht, hslots⟩ :=
          GrowAlong.granted hg hs.good hn (Nat.lt_of_succ_lt_succ hn')
        obtain ⟨a, ha, rfl⟩ := supply_eq_some.mp hl
        refine ⟨a, π, t, ha, hπ, hfl, ht, fun j ↦ ?_⟩
        rcases hslots j with h | ⟨-, m, l, hm, hm', hl, h⟩
        · exact Or.inl h
        · obtain ⟨b, hb, rfl⟩ := supply_eq_some.mp hl
          exact Or.inr ⟨m, b, hm, Nat.succ_lt_succ hm', hb, h⟩
  · obtain ⟨o, s₂, hmap, hins₂⟩ := map_spec hm h₂ hv p f
    have hfree : lookup x86 (s'.table x86 root) [] v.path = none := by
      rw [hins.lookup_of_error hs.good (path_mem_avoiding.mpr hv)]
      cases hins with
      | noTable h _ _ _ => exact h
    obtain rfl := hins₂.eq_ok h₂.good (path_mem_avoiding.mpr hv) (bottom_lt_path v) hfree
      fun n hn hn' ↦ by simpa [supply_eq_none] using hall n hn hn'
    refine ⟨s₂, hmap, fun {alloc₃ s₃} h₃ hok₃ u hu ↦ ?_⟩
    obtain ⟨-, hins₃⟩ := inserted_of_ok hm h₃ hok₃
    exact translate_of_shielded (h₃.inserted hins₃).table (h₂.inserted hins₂).table hu fun hu ↦
      leaf_eq_of_ok hm h₃ h₂ (hwalk hu) hu hok₃ hmap

/-- The error paths outside slot `R`, by the outcome of the insertion. -/
theorem errorPaths_of_inserted (hv : v.slot 3 ≠ R) {o : Except (Refusal Word) Unit}
    (hmap : VirtualMap.map mapper alloc p v f s = outcome p v o s')
    (hins : Inserted x86 (supply alloc) root (Domain.avoiding R) (leafEntry p f).bits v.path s
      o s') : ErrorPaths mapper alloc root R e p v f s := by
  have hreturns := map_returns hm hs p v f
  have hD := path_mem_avoiding.mpr hv
  have hlen := bottom_lt_path v
  have hanswer : answer (VirtualMap.map mapper alloc p v f s) =
      o.mapError fun r ↦ .error (refused p v r) := by rw [hmap, answer_outcome]
  have hafter : after (VirtualMap.map mapper alloc p v f s) = s' := by rw [hmap, after_outcome]
  cases o with
  | ok =>
      have hfree : walk s.store root v = none := (walk_of_ok hm hs hmap).1
      have huntouched : v.slot 3 = R ∨ walk s.store root v ≠ none →
          after (VirtualMap.map mapper alloc p v f s) = s :=
        fun h ↦ h.elim (absurd · hv) (absurd hfree)
      refine ⟨hreturns, ?_, fun _ a ↦ ?_, huntouched, ?_, ?_⟩ <;> rw [hanswer]
      · simp [Except.mapError, hv]
      · simp [Except.mapError, hfree]
      · refine ⟨fun h ↦ by simp [Except.mapError] at h, ?_⟩
        rintro ⟨-, -, n, hn, hn', hnone⟩
        exact absurd (supply_eq_none.mpr hnone) (hins.granted_of_ok hs.good hlen hn hn')
      · simp [Except.mapError]
  | error r =>
      cases hins with
      | @occupied ws x h =>
          have hw : walk s.store root v = some (ws, x) := (walk_eq_lookup _ _ _).trans h
          refine ⟨hreturns, ?_, fun _ a ↦ ?_, fun _ ↦ hafter, ?_, ?_⟩ <;> rw [hanswer]
          · simp [Except.mapError, refused, hv]
          · simp [Except.mapError, refused, hw, eq_comm]
          · simp [Except.mapError, refused, hw]
          · simp [Except.mapError, refused]
      | @noTable s₁ h hg hmiss hr =>
          have hfree : walk s.store root v = none := (walk_eq_lookup _ _ _).trans h
          have hrefused := Inserted.noTable (x := (leafEntry p f).bits) h hg hmiss hr
          refine ⟨hreturns, ?_, fun _ a ↦ ?_, fun h ↦ h.elim (absurd · hv) (absurd hfree), ?_,
            fun _ ↦ ?_⟩
          · rw [hanswer]; simp [Except.mapError, refused, hv]
          · rw [hanswer]; simp [Except.mapError, refused, hfree]
          · rw [hanswer]
            refine ⟨fun _ ↦ ⟨hv, hfree, ?_⟩, fun _ ↦ rfl⟩
            obtain ⟨n, hn, hn', hnone⟩ := hrefused.exists_refused hs.good hD hlen
            exact ⟨n, hn, hn', supply_eq_none.mp hnone⟩
          · rw [hafter]
            exact abandoned_of_noTable hm hs hv hrefused

/-- The error paths with any lawful mapper. -/
theorem errorPaths_of_lawful (p : PAddr) (v : VAddr) (f : VFlags) :
    ErrorPaths mapper alloc root R e p v f s := by
  by_cases hv : v.slot 3 = R
  · have hmap : VirtualMap.map mapper alloc p v f s = .error (.error (.Reserved p v)) s :=
      map_of_reserved hm hv
    refine ⟨map_returns hm hs p v f, ?_, fun h ↦ absurd hv h, fun _ ↦ ?_, ?_, ?_⟩ <;> rw [hmap]
    · simp [hv]
    · rfl
    · simp [hv]
    · simp
  · obtain ⟨o, s', hmap, hins⟩ := map_spec hm hs hv p f
    exact errorPaths_of_inserted hm hs hv hmap hins

end

/-- The error paths of both mappers: `LocalMapper` on any tree, and `RecursiveMapper` on a
tree whose slot `R` points back to the PML4. -/
theorem error_paths :
    (∀ (self : LocalMapper) (alloc : NewPageTable) (R : Fin 512) (e : Word) (s : Tables),
      self.recursion_index.toNat = R → Intact alloc self.table R e s →
        ∀ p v f, ErrorPaths self alloc self.table R e p v f s) ∧
    ∀ (self : RecursiveMapper) (alloc : NewPageTable) (R : Fin 512) (e : Word) (s : Tables),
      self.recursion_index.toNat = R → RecursiveMapper.SelfLink self.cr3 e →
        Intact alloc (.page self.cr3) R e s →
          ∀ p v f, ErrorPaths self alloc (.page self.cr3) R e p v f s :=
  ⟨fun self _ _ _ _ hR hs ↦ errorPaths_of_lawful (self.lawful hR) hs,
    fun self _ _ _ _ hR hself hs ↦ errorPaths_of_lawful (self.lawful hself hR) hs⟩

/-- The empty tables of a finished builder. -/
theorem intact_finished {count : ℕ} (h : 0 < count) (h' : count < 2 ^ 40) :
    Intact (firstPages count) (.page ⟨0x1000⟩) 510 (NodeEntry.new Entry.WRITABLE ⟨0x1000⟩).bits
      (VirtualMapBuilder.finished VirtualMapBuilder.tables 510 ⟨0x1000⟩) := by
  have hR : (510 : Word).toNat < 512 := by decide
  have hs := intact_tables (documented_firstPages h') ⟨(510 : Word).toNat, hR⟩
  have ha : firstPages count VirtualMapBuilder.tables.calls = some ⟨0x1000⟩ := if_pos h
  exact (VirtualMapBuilder.finish_spec hR hs (VirtualMapBuilder.finish_of_some hR hs ha)).2.2.1

/-- Both mappers, on empty tables and with one page table to be had. -/
theorem error_paths_empty :
    ErrorPaths (LocalMapper.mk .own 510) (firstPages 1) .own 510 0 ⟨0x5000⟩ ⟨0x400000⟩ VFlags.empty
        VirtualMapBuilder.tables ∧
      ErrorPaths (RecursiveMapper.mk 510 ⟨0x1000⟩) (firstPages 2) (.page ⟨0x1000⟩) 510
        (NodeEntry.new Entry.WRITABLE ⟨0x1000⟩).bits ⟨0x5000⟩ ⟨0x400000⟩ VFlags.empty
        (VirtualMapBuilder.finished VirtualMapBuilder.tables 510 ⟨0x1000⟩) :=
  ⟨error_paths.1 (LocalMapper.mk .own 510) _ _ _ _ rfl
      (intact_tables (documented_firstPages (by omega)) _) _ _ _,
    error_paths.2 (RecursiveMapper.mk 510 ⟨0x1000⟩) _ _ _ _ rfl
      (.of_new (by decide)) (intact_finished (by omega) (by omega)) _ _ _⟩

/-- A call that fails after it linked one page table: the address at which slot `R` shows
the first entry of the PML4 translates to nothing before the call and to that page table
after it. -/
theorem failed_call_visible_in_slot :
    let m : RecursiveMapper := ⟨510, ⟨0x1000⟩⟩
    let s := VirtualMapBuilder.finished VirtualMapBuilder.tables 510 ⟨0x1000⟩
    let r := VirtualMap.map m (firstPages 2) ⟨0x5000⟩ ⟨0x400000⟩ VFlags.empty s
    Intact (firstPages 2) (.page ⟨0x1000⟩) 510 (NodeEntry.new Entry.WRITABLE ⟨0x1000⟩).bits s ∧
      RecursiveMapper.SelfLink ⟨0x1000⟩ (NodeEntry.new Entry.WRITABLE ⟨0x1000⟩).bits ∧
      answer r = .error (.error .PageTable) ∧
      translate s.store (.page ⟨0x1000⟩) (m.pdpt 0) = none ∧
      translate (after r).store (.page ⟨0x1000⟩) (m.pdpt 0) = some ⟨0x2000⟩ := by
  intro m s r
  have hanswer : answer r = .error (.error .PageTable) := by decide +kernel
  have hbefore : translate s.store (.page ⟨0x1000⟩) (m.pdpt 0) = none := by decide +kernel
  have hafter : translate (after r).store (.page ⟨0x1000⟩) (m.pdpt 0) = some ⟨0x2000⟩ := by
    decide +kernel
  exact ⟨intact_finished (by omega) (by omega), .of_new (by decide), hanswer, hbefore, hafter⟩

end Elpytios
