import Elpytios.Paging.Interleave
import Elpytios.Paging.Run

/-!
# Calls that do not get in each other's way

Two calls of `map` for different pages, neither of which finds a slot free above the page
tables that is on the way to both pages.  Under every schedule each of them does what it
would have done alone (`harmless_of_disjoint`).

Every step of a call is one of five changes of the tables (`Change`).  What is known of a
call between two of its steps (`Thread.Ok`) survives a change made by the other, as long
as the slot that is used is not on the way to the call's own page; and it is not, since a
slot that is free now was free at the start (`Kept.freeSlot`).
-/

namespace Elpytios

open Radix

variable {mem mem' : Memory} {root : Loc} {R : Fin 512} {e : Word} {u v : VAddr}

/-! ## Entries that are kept -/

/-- Every entry that was present is still there. -/
def Kept (mem mem' : Memory) : Prop :=
  ∀ ⦃l t⦄, mem l = some t → ∃ t', mem' l = some t' ∧ ∀ i, present (t i) = true → t' i = t i

namespace Kept

theorem refl (mem : Memory) : Kept mem mem := fun _ t ht ↦ ⟨t, ht, fun _ _ ↦ rfl⟩

theorem trans {mem'' : Memory} (h : Kept mem mem') (h' : Kept mem' mem'') : Kept mem mem'' := by
  intro l t ht
  obtain ⟨t', ht', heq⟩ := h ht
  obtain ⟨t'', ht'', heq'⟩ := h' ht'
  refine ⟨t'', ht'', fun i hi ↦ ?_⟩
  rw [heq' i (by rwa [heq i hi]), heq i hi]

theorem put {a : Loc} (ha : mem a = none) (t : PageTable) : Kept mem (mem.put a t) := by
  intro l t₀ ht₀
  have hla : l ≠ a := fun hc ↦ by simp [← hc, ht₀] at ha
  exact ⟨t₀, (Store.put_of_ne hla).trans ht₀, fun _ _ ↦ rfl⟩

theorem write {l : Loc} {i : Fin 512} {t : PageTable} (ht : mem l = some t)
    (hi : present (t i) = false) (x : Word) : Kept mem (mem.write l i x) := by
  intro m t₀ ht₀
  by_cases hml : m = l
  · subst hml
    obtain rfl := Option.some.inj (ht.symm.trans ht₀)
    refine ⟨_, Store.write_self ht, fun j hj ↦ Function.update_of_ne ?_ _ _⟩
    rintro rfl
    rw [hi] at hj
    cases hj
  · exact ⟨t₀, (Store.write_of_ne hml).trans ht₀, fun _ _ ↦ rfl⟩

theorem descend (h : Kept mem mem') {n : ℕ} {l : Loc} {π : List (Fin 512)} {w : Walk}
    (hw : Radix.descend x86 mem n l π = some w) : Radix.descend x86 mem' n l π = some w := by
  induction π generalizing n l w with
  | nil => cases hw
  | cons i π ih =>
      rw [Radix.descend, Option.bind_eq_some_iff] at hw ⊢
      obtain ⟨t, ht, hw⟩ := hw
      obtain ⟨t', ht', heq⟩ := h ht
      refine ⟨t', ht', ?_⟩
      have hpresent : present (t i) = true := by
        by_contra hc
        simp [decode_of_not_present (Bool.eq_false_iff.mpr hc)] at hw
      rw [heq i hpresent]
      cases hd : x86.decode n (t i) with
      | empty => simp [hd] at hw
      | leaf => simpa only [hd] using hw
      | node c =>
          simp only [hd, Option.map_eq_some_iff] at hw ⊢
          obtain ⟨w', hw', rfl⟩ := hw
          exact ⟨w', ih hw', rfl⟩

/-- What is mapped stays mapped. -/
theorem walk (h : Kept mem mem') {w : Walk} (hw : Elpytios.walk mem root u = some w) :
    Elpytios.walk mem' root u = some w := by
  rw [walk_eq_lookup, lookup_eq_descend (follow_nil 0 root)] at hw ⊢
  exact h.descend hw

end Kept

theorem present_of_decode {n : ℕ} {x : Word} (h : decode n x ≠ .empty) : present x = true := by
  by_contra hc
  exact h (decode_of_not_present (Bool.eq_false_iff.mpr hc))

theorem decode_eq_empty {n : ℕ} {x : Word} (h : decode n x = .empty) :
    present x = false ∨ n = 0 ∧ pageSize x = true := by
  match n with
  | 0 | 1 | 2 => cases h₁ : present x <;> cases h₂ : pageSize x <;> simp_all [decode]
  | _ + 3 => cases h₁ : present x <;> simp_all [decode]

/-- The entry of a free slot is not present. -/
theorem TableTree.not_present (h : TableTree mem root R e) {π : List (Fin 512)} {i : Fin 512}
    {l : Loc} (hslot : FreeSlot x86 mem root (Domain.avoiding R) π i l) :
    ∃ t, mem l = some t ∧ present (t i) = false := by
  obtain ⟨t, ht, he⟩ := hslot.free
  refine ⟨t, ht, ?_⟩
  rcases decode_eq_empty he with hp | ⟨hπ, hleaf⟩
  · exact hp
  · obtain rfl := List.length_eq_zero_iff.mp hπ
    obtain rfl := Option.some.inj hslot.follow
    have hi : i ≠ R := by simpa [Domain.mem_avoiding] using hslot.mem
    by_contra hp
    rw [h.noLeaf ht hi (Bool.not_eq_false _ ▸ hp)] at hleaf
    cases hleaf

/-! ## Slots on the way to both pages -/

/-- A slot above the page tables that is on the way to two pages is free. -/
def SharedFree (mem : Memory) (root : Loc) (R : Fin 512) (v₁ v₂ : VAddr) : Prop :=
  ∃ π i l, π.length < 3 ∧ π ++ [i] <+: v₁.path ∧ π ++ [i] <+: v₂.path ∧
    FreeSlot x86 mem root (Domain.avoiding R) π i l

section

variable {v₁ v₂ : VAddr} (hshared : ¬ SharedFree mem root R v₁ v₂) (hkept : Kept mem mem')
  (hmem : TableTree mem root R e)

include hshared hkept hmem

/-- What is on the way to both pages was there at the start. -/
theorem follow_of_shared {π : List (Fin 512)} (hπ : π ∈ Domain.avoiding R) (hlen : π.length ≤ 3)
    (h₁ : π <+: v₁.path) (h₂ : π <+: v₂.path) {l : Loc}
    (hl : follow x86 mem' 0 root π = some l) : follow x86 mem 0 root π = some l := by
  induction π using List.reverseRecOn generalizing l with
  | nil => exact hl
  | append_singleton π i ih =>
      obtain ⟨l₀, t', hl₀, ht', hd⟩ := follow_snoc_eq_some.mp hl
      have hlt : π.length < 3 := Nat.lt_of_succ_le (by simpa using hlen)
      have hp := List.prefix_append π [i]
      have hπ' := (Domain.avoiding R).mem_of_snoc hπ
      have hstart := ih hπ' hlt.le (hp.trans h₁) (hp.trans h₂) hl₀
      obtain ⟨t, ht⟩ := hmem.tree.exists_table hπ' hstart
      obtain ⟨t₁, ht₁, heq⟩ := hkept ht
      obtain rfl := Option.some.inj (ht'.symm.trans ht₁)
      have hused : decode π.length (t i) ≠ .empty := fun he ↦
        hshared ⟨π, i, l₀, hlt, h₁, h₂, hπ, hstart, t, ht, he⟩
      refine follow_snoc_eq_some.mpr ⟨l₀, t, hstart, ht, ?_⟩
      rw [← hd, heq i (present_of_decode hused)]

/-- A slot that is free and on the way to one page is not on the way to the other. -/
theorem FreeSlot.not_shared (hne : v₁.path ≠ v₂.path) {π : List (Fin 512)} {i : Fin 512} {l : Loc}
    (hslot : FreeSlot x86 mem' root (Domain.avoiding R) π i l) (h₁ : π ++ [i] <+: v₁.path) :
    ¬ π ++ [i] <+: v₂.path := by
  intro h₂
  have hlen : π.length ≤ 3 := by
    have hle := h₁.length_le
    rw [List.length_append, List.length_singleton, VAddr.length_path] at hle
    exact Nat.le_of_succ_le_succ hle
  rcases hlen.lt_or_eq with hlt | heq
  · have hp := List.prefix_append π [i]
    have hπ := (Domain.avoiding R).mem_of_snoc hslot.mem
    have hstart := follow_of_shared hshared hkept hmem hπ hlen (hp.trans h₁) (hp.trans h₂)
      hslot.follow
    obtain ⟨t, ht⟩ := hmem.tree.exists_table hπ hstart
    obtain ⟨t', ht', he⟩ := hslot.free
    obtain ⟨t₁, ht₁, hsame⟩ := hkept ht
    obtain rfl := Option.some.inj (ht'.symm.trans ht₁)
    have hused : decode π.length (t i) ≠ .empty := fun he ↦
      hshared ⟨π, i, l, hlt, h₁, h₂, hslot.mem, hstart, t, ht, he⟩
    rw [hsame i (present_of_decode hused)] at he
    exact hused he
  · -- the slot is that of the page itself
    have hfull : (π ++ [i]).length = 4 := by simp [heq]
    exact hne ((h₁.eq_of_length hfull).symm.trans (h₂.eq_of_length hfull))

end

/-! ## What a step does to the tables -/

/-- A page table that was obtained and is not linked yet. -/
structure Holds (root : Loc) (R : Fin 512) (a : PAddr) (mem : Memory) : Prop where
  page : a.IsPage
  blank : mem (.page a) = some PageTable.zeroed
  unreached : Unreached x86 mem root (Domain.avoiding R) (.page a)

theorem Holds.decode_link {a : PAddr} (h : Holds root R a mem) {n : ℕ} (hn : n < 3) :
    x86.decode n (x86.link (.page a)) = .node (.page a) :=
  x86.decode_link n hn (.page a) h.page

/-- What a step of a call on the way `ν` can do to the tables.  The page that is linked is
one that the call holds. -/
inductive Change (alloc : NewPageTable) (root : Loc) (R : Fin 512) (ν : List (Fin 512))
    (held : Option PAddr) (s : Tables) : Tables → Prop
  | /-- Nothing. -/
    quiet : Change alloc root R ν held s s
  | /-- A page table is asked for and refused. -/
    refused : Change alloc root R ν held s s.refuse
  | /-- A page table is asked for and granted. -/
    granted {a : PAddr} (ha : alloc s.calls = some a) : Change alloc root R ν held s
      { store := s.store.put (.page a) PageTable.zeroed, calls := s.calls + 1 }
  | /-- The page table held is linked from a free slot. -/
    linked {π : List (Fin 512)} {i : Fin 512} {l : Loc} {a : PAddr}
      (hslot : FreeSlot x86 s.store root (Domain.avoiding R) π i l) (hp : π ++ [i] <+: ν)
      (hb : π.length < 3) (hheld : held = some a) (ha : Holds root R a s.store) :
      Change alloc root R ν held s { s with store := s.store.attach x86 l i (.page a) }
  | /-- A free slot of a page table is filled. -/
    filled {π : List (Fin 512)} {i : Fin 512} {l : Loc} (x : Word)
      (hslot : FreeSlot x86 s.store root (Domain.avoiding R) π i l) (hp : π ++ [i] <+: ν)
      (hb : π.length = 3) : Change alloc root R ν held s (s.fill l i x)

namespace Change

variable {alloc : NewPageTable} {ν : List (Fin 512)} {held : Option PAddr} {s s' : Tables}

theorem intact (h : Change alloc root R ν held s s') (hs : Intact alloc root R e s) :
    Intact alloc root R e s' := by
  cases h with
  | quiet => exact hs
  | refused => exact hs.refuse
  | @granted a ha =>
      refine ⟨hs.table.put (hs.unreached ha) _, hs.sound.mono (Nat.le_succ _) fun l hl ↦ ?_⟩
      by_cases hla : l = .page a
      · apply Or.inl
        intro n hn hnl
        have := hs.sound.distinct le_rfl (Nat.le_of_succ_le hn)
          (supply_eq_some.mpr ⟨a, ha, rfl⟩) (hla ▸ hnl)
        exact absurd (this ▸ hn) (Nat.not_succ_le_self _)
      · exact Or.inr ((Store.put_of_ne hla).trans hl)
  | @linked π i l a hslot hp hb hheld ha =>
      refine ⟨hs.table.attach hslot.mem hb hslot.follow ha.unreached ha.page,
        hs.sound.mono le_rfl fun b hnone ↦ Or.inr ?_⟩
      obtain ⟨t, ht, -⟩ := hslot.free
      have hba : b ≠ .page a := fun hc ↦ by simp [hc, ha.blank] at hnone
      have hbl : b ≠ l := fun hc ↦ by simp [hc, ht] at hnone
      exact (Store.write_of_ne hbl).trans ((Store.put_of_ne hba).trans hnone)
  | @filled π i l x hslot hp hb =>
      obtain ⟨t, ht, he⟩ := hslot.free
      exact hs.fill (Fill.intro (x := x) hslot.mem hb hslot.follow ht he)

theorem kept (h : Change alloc root R ν held s s') (hs : Intact alloc root R e s) :
    Kept s.store s'.store := by
  cases h with
  | quiet => exact .refl _
  | refused => exact .refl _
  | @granted a ha => exact .put (hs.fresh ha).1 _
  | @linked π i l a hslot hp hb hheld ha =>
      obtain ⟨t, ht, hi⟩ := hs.table.not_present hslot
      change Kept s.store (s.store.attach x86 l i (.page a))
      rw [Store.attach_eq_write ha.blank]
      exact .write ht hi _
  | @filled π i l x hslot hp hb =>
      obtain ⟨t, ht, hi⟩ := hs.table.not_present hslot
      exact .write ht hi x

/-- A change made on the way to one page spares the way to another, if the slots that are
free on the one way are not on the other. -/
theorem spares (h : Change alloc root R ν held s s') (hs : Intact alloc root R e s)
    {μ : List (Fin 512)}
    (hn : ∀ {π i l}, FreeSlot x86 s.store root (Domain.avoiding R) π i l → π ++ [i] <+: ν →
      ¬ π ++ [i] <+: μ) : Spares x86 root (Domain.avoiding R) μ s.store s'.store := by
  cases h with
  | quiet => exact .refl μ
  | refused => exact .refl μ
  | @granted a ha => exact .put (hs.unreached ha) _ μ
  | @linked π i l a hslot hp hb hheld ha =>
      exact (Extends.attach hslot hs.table.tree ha.unreached (ha.decode_link hb)).spares
        (hn hslot hp)
  | @filled π i l x hslot hp hb =>
      exact (Extends.write hslot hs.table.tree hb x).spares (hn hslot hp)

/-- A page table that another call holds is not touched. -/
theorem holds (h : Change alloc root R ν held s s') (hs : Intact alloc root R e s) {b : PAddr}
    (hb : Holds root R b s.store) (hne : held ≠ some b) : Holds root R b s'.store := by
  cases h with
  | quiet => exact hb
  | refused => exact hb
  | @granted a ha =>
      have hba : Loc.page b ≠ .page a := fun hc ↦ by
        have hnone := (hs.fresh ha).1
        rw [← hc, hb.blank] at hnone
        cases hnone
      exact ⟨hb.page, (Store.put_of_ne hba).trans hb.blank,
        hb.unreached.put (hs.unreached ha) _⟩
  | @linked π i l a hslot hp hlen hheld ha =>
      have hπ := (Domain.avoiding R).mem_of_snoc hslot.mem
      have hba : Loc.page b ≠ .page a := fun hc ↦ hne (Loc.page.inj hc ▸ hheld)
      have hbl : Loc.page b ≠ l := (hb.unreached hπ hslot.follow).symm
      exact ⟨hb.page, (Store.write_of_ne hbl).trans ((Store.put_of_ne hba).trans hb.blank),
        Unreached.attach hs.table.tree hπ hslot.follow ha.unreached (ha.decode_link hlen)
          hb.unreached hba⟩
  | @filled π i l x hslot hp hlen =>
      have hπ := (Domain.avoiding R).mem_of_snoc hslot.mem
      have hbl : Loc.page b ≠ l := (hb.unreached hπ hslot.follow).symm
      refine ⟨hb.page, (Store.write_of_ne hbl).trans hb.blank,
        hb.unreached.write hs.table.tree hπ hslot.follow ?_⟩
      exact Option.eq_none_iff_forall_ne_some.mpr fun c hc ↦
        x86.decode_bottom _ hlen.ge _ c (Slot.child?_eq_some.mp hc)

end Change

/-! ## A call between two steps -/

section

variable {T Ref : Type} [VirtualMapper T Ref] (mapper : T) (root : Loc) (R : Fin 512) (e : Word)
  (v : VAddr)

/-- A reference and an index that name the slot on the way to an address, `j` levels above
the page, which is free. -/
structure Aims (j : ℕ) (table : Ref) (i : Fin 512) (mem : Memory) : Prop where
  level : j ≤ 3
  slot_eq : i = v.slot j
  exists_slot : ∃ l, FreeSlot x86 mem root (Domain.avoiding R) (v.path.take (3 - j)) i l ∧
    Reaches mapper root R e (v.path.take (3 - j)) l table

/-- What holds of the tables when a call for an address is at a point. -/
def Pc.Ok : Pc Ref → Memory → Prop
  | .test level, mem => level ≤ 3 ∧ ∃ l, follow x86 mem 0 root (v.path.take (3 - level)) = some l
  | .request level table i, mem => Aims mapper root R e v (level + 1) table i mem
  | .link level table i a, mem =>
      Aims mapper root R e v (level + 1) table i mem ∧ Holds root R a mem
  | .fill table i, mem => Aims mapper root R e v 0 table i mem

/-- What holds of the tables while a call is running and after it has returned `Ok`. -/
def Thread.Ok (c : Call) : Thread Ref → Memory → Prop
  | .running pc, mem => pc.Ok mapper root R e c.v_addr mem
  | .returned (.ok ()), mem => ∃ ws, walk mem root c.v_addr =
      some (ws, (leafEntry c.p_addr c.flags).bits) ∧ ws.length = 3
  | .returned (.error _), _ => True

/-- The page table a call holds. -/
def Thread.held : Thread Ref → Option PAddr
  | .running (.link _ _ _ a) => some a
  | _ => none

variable {mapper root R e v}

theorem Aims.isPrefix {j : ℕ} {table : Ref} {i : Fin 512}
    (h : Aims mapper root R e v j table i mem) :
    v.path.take (3 - j) ++ [i] <+: v.path := by
  have hj := h.level
  rw [h.slot_eq, ← v.take_path (show 3 - j + j = 3 by omega)]
  exact List.take_prefix _ _

theorem Aims.spares {j : ℕ} {table : Ref} {i : Fin 512} (h : Aims mapper root R e v j table i mem)
    (hs : Spares x86 root (Domain.avoiding R) v.path mem mem') :
    Aims mapper root R e v j table i mem' := by
  obtain ⟨l, hslot, hr⟩ := h.exists_slot
  exact ⟨h.level, h.slot_eq, l, hs.freeSlot hslot h.isPrefix, hr⟩

theorem Thread.Ok.holds {c : Call} {t : Thread Ref} (h : t.Ok mapper root R e c mem) {a : PAddr}
    (ha : t.held = some a) : Holds root R a mem := by
  cases t with
  | returned r => cases ha
  | running pc =>
      cases pc with
      | link level table i b =>
          obtain rfl := Option.some.inj ha
          exact h.2
      | test | request | fill => cases ha

/-- What is known of a call survives a change by another, if that spares its way. -/
theorem Thread.Ok.spares {c : Call} {t : Thread Ref} (h : t.Ok mapper root R e c mem)
    (hv : c.v_addr.slot 3 ≠ R) (hkept : Kept mem mem')
    (hs : Spares x86 root (Domain.avoiding R) c.v_addr.path mem mem')
    (hheld : ∀ a, t.held = some a → Holds root R a mem') : t.Ok mapper root R e c mem' := by
  cases t with
  | returned r =>
      rcases r with err | ⟨⟩
      · exact trivial
      · obtain ⟨ws, hw, hlen⟩ := h
        exact ⟨ws, hkept.walk hw, hlen⟩
  | running pc =>
      cases pc with
      | test level =>
          obtain ⟨hlevel, l, hl⟩ := h
          exact ⟨hlevel, l, hs.follow_eq (take_mem_avoiding hv _) hl⟩
      | request level table i => exact Aims.spares h hs
      | link level table i a => exact ⟨Aims.spares h.1 hs, hheld a rfl⟩
      | fill table i => exact Aims.spares h hs

/-! ## Steps -/

section

variable {alloc : NewPageTable} {c : Call} {s : Tables} (hm : Lawful mapper root R e)
  (hs : Intact alloc root R e s) (hv : c.v_addr.slot 3 ≠ R)

include hm hs hv

/-- Above the page tables, a test goes by what the entry is. -/
theorem step_test_succ {level : ℕ} (hlevel : level ≤ 2) {l : Loc} {t : PageTable}
    (hl : follow x86 s.store 0 root (c.v_addr.path.take (2 - level)) = some l)
    (ht : s.store l = some t) :
    ∃ table, Reaches mapper root R e (c.v_addr.path.take (2 - level)) l table ∧
      step mapper alloc c (.test (level + 1)) s =
        match decode (2 - level) (t (c.v_addr.slot (level + 1))) with
        | .empty => .ok (some (.request level table (c.v_addr.slot (level + 1)))) s
        | .leaf => .error (.error (.AlreadyMapped c.p_addr c.v_addr
            (leafBase (2 - level) (t (c.v_addr.slot (level + 1)))))) s
        | .node _ => .ok (some (.test level)) s := by
  obtain ⟨table, hacc, hr⟩ := hm.access (by omega) hs.table hl
  refine ⟨table, hr, ?_⟩
  have hread := readEntry_eq (hr hs.table hl) ht (c.v_addr.slot (level + 1))
  have harm := hs.table.arm_eq hv (show 2 - level + (level + 1) = 3 by omega) hl ht
  rw [step, run_bind_ok hacc, index_eq (toNat_tableIndex c.v_addr (by omega)),
    run_bind_ok (run_pure _ s), run_bind_ok hread, harm]
  cases decode (2 - level) (t (c.v_addr.slot (level + 1))) <;> rfl

/-- In the page table, a test finds the page free or mapped. -/
theorem step_test_zero {l : Loc} {t : PageTable}
    (hl : follow x86 s.store 0 root (c.v_addr.path.take 3) = some l) (ht : s.store l = some t) :
    ∃ table, Reaches mapper root R e (c.v_addr.path.take 3) l table ∧
      (decode 3 (t (c.v_addr.slot 0)) = .empty ∧
          step mapper alloc c (.test 0) s = .ok (some (.fill table (c.v_addr.slot 0))) s ∨
        ∃ err, step mapper alloc c (.test 0) s = .error err s) := by
  obtain ⟨table, hacc, hr⟩ := hm.access (by decide) hs.table hl
  refine ⟨table, hr, ?_⟩
  have hread := readEntry_eq (hr hs.table hl) ht (c.v_addr.slot 0)
  have harm : ptArm (t (c.v_addr.slot 0)) = _ := hs.table.arm_eq hv (k := 3) (j := 0) rfl hl ht
  rw [step, run_bind_ok hacc, index_eq (toNat_tableIndex c.v_addr (by decide)),
    run_bind_ok (run_pure _ s), run_bind_ok hread, harm]
  cases hd : decode 3 (t (c.v_addr.slot 0)) with
  | empty => exact Or.inl ⟨rfl, rfl⟩
  | leaf => exact Or.inr ⟨_, rfl⟩
  | node => exact absurd (decode_eq_node hd).1 (by decide)

end

/-- What a step does to the tables, and what is known of the call after it. -/
structure Stepped (mapper : T) (alloc : NewPageTable) (root : Loc) (R : Fin 512) (e : Word)
    (c : Call) (t : Thread Ref) (s : Tables) (r : Thread Ref × Tables) : Prop where
  change : Change alloc root R c.v_addr.path t.held s r.2
  ok : r.1.Ok mapper root R e c r.2.store
  /-- A page table that the call holds was obtained by this very step. -/
  fresh : ∀ a, r.1.held = some a → s.store (.page a) = none

variable {alloc : NewPageTable} {c : Call} {s : Tables}

/-- A step that only reads. -/
theorem Stepped.quiet {t t' : Thread Ref} (ok : t'.Ok mapper root R e c s.store)
    (hheld : t'.held = none) : Stepped mapper alloc root R e c t s (t', s) :=
  ⟨.quiet, ok, fun a ha ↦ by rw [hheld] at ha; cases ha⟩

theorem stepped_test (hm : Lawful mapper root R e) (hs : Intact alloc root R e s)
    (hv : c.v_addr.slot 3 ≠ R) {level : ℕ}
    (ok : (Pc.test level).Ok mapper root R e c.v_addr s.store) :
    Stepped mapper alloc root R e c (.running (.test level)) s
      (Thread.next (step mapper alloc c (.test level) s)) := by
  obtain ⟨hlevel, l, hl⟩ := ok
  obtain ⟨t, ht⟩ := hs.table.tree.exists_table (take_mem_avoiding hv _) hl
  have hsnoc := c.v_addr.take_path (show 3 - level + level = 3 by omega)
  have hlen := c.v_addr.length_take_path (show 3 - level ≤ 4 by omega)
  have hmem : c.v_addr.path.take (3 - level) ++ [c.v_addr.slot level] ∈ Domain.avoiding R :=
    hsnoc ▸ take_mem_avoiding hv _
  have haims : ∀ {table : Ref}, Reaches mapper root R e (c.v_addr.path.take (3 - level)) l table →
      decode (3 - level) (t (c.v_addr.slot level)) = .empty →
      Aims mapper root R e c.v_addr level table (c.v_addr.slot level) s.store :=
    fun hr hd ↦ ⟨hlevel, rfl, l, ⟨hmem, hl, t, ht, by rw [hlen]; exact hd⟩, hr⟩
  cases level with
  | zero =>
      obtain ⟨table, hr, ⟨hd, hstep⟩ | ⟨err, hstep⟩⟩ := step_test_zero hm hs hv hl ht
      · rw [hstep]
        exact .quiet (haims hr hd) rfl
      · rw [hstep]
        exact .quiet trivial rfl
  | succ level =>
      have hk : 3 - (level + 1) = 2 - level := by omega
      rw [hk] at haims hl hsnoc hlen
      obtain ⟨table, hr, hstep⟩ := step_test_succ hm hs hv (by omega) hl ht
      rw [hstep]
      cases hd : decode (2 - level) (t (c.v_addr.slot (level + 1))) with
      | empty => exact .quiet (haims hr hd) rfl
      | leaf => exact .quiet trivial rfl
      | node child =>
          refine .quiet ⟨by omega, child, ?_⟩ rfl
          rw [show 3 - level = 2 - level + 1 by omega, hsnoc]
          exact follow_snoc_eq_some.mpr ⟨l, t, hl, ht, by rw [hlen]; exact hd⟩

theorem stepped_request (hs : Intact alloc root R e s) {level : ℕ} {table : Ref} {i : Fin 512}
    (ok : (Pc.request level table i).Ok mapper root R e c.v_addr s.store) :
    Stepped mapper alloc root R e c (.running (.request level table i)) s
      (Thread.next (step mapper alloc c (.request level table i) s)) := by
  rw [step]
  cases ha : alloc s.calls with
  | none =>
      rw [run_bind_error (newPageTable_of_none ha)]
      exact ⟨.refused, trivial, fun _ h ↦ by cases h⟩
  | some a =>
      rw [run_bind_ok (newPageTable_of_some ha)]
      have hnew := hs.unreached ha
      refine ⟨.granted ha, ⟨Aims.spares ok (.put hnew _ _), (hs.fresh ha).2, Store.put_self,
        hnew.put hnew _⟩, fun b hb ↦ ?_⟩
      obtain rfl := Option.some.inj hb
      exact (hs.fresh ha).1

theorem stepped_link (hs : Intact alloc root R e s) {level : ℕ} {table : Ref} {i : Fin 512}
    {a : PAddr} (ok : (Pc.link level table i a).Ok mapper root R e c.v_addr s.store) :
    Stepped mapper alloc root R e c (.running (.link level table i a)) s
      (Thread.next (step mapper alloc c (.link level table i a) s)) := by
  obtain ⟨haims, hholds⟩ := ok
  have hlevel := haims.level
  have hprefix := haims.isPrefix
  obtain ⟨l, hslot, hr⟩ := haims.exists_slot
  obtain ⟨t, ht, -⟩ := hslot.free
  have hlen := c.v_addr.length_take_path (show 3 - (level + 1) ≤ 4 by omega)
  have hb : (c.v_addr.path.take (3 - (level + 1))).length < 3 := by omega
  have hstore : s.store.attach x86 l i (.page a) =
      s.store.write l i (NodeEntry.new Entry.WRITABLE a).bits :=
    Store.attach_eq_write hholds.blank
  rw [step, run_bind_ok (writeEntry_eq (hr hs.table hslot.follow) ht i _)]
  have hchange : Change alloc root R c.v_addr.path (some a) s
      { s with store := s.store.attach x86 l i (.page a) } :=
    .linked hslot hprefix hb rfl hholds
  rw [hstore] at hchange
  refine ⟨hchange, ⟨by omega, .page a, ?_⟩, fun _ h ↦ by cases h⟩
  rw [show 3 - level = 3 - (level + 1) + 1 by omega, c.v_addr.take_path (j := level + 1) (by omega),
    ← haims.slot_eq]
  change follow x86 (s.store.write l i _) 0 root _ = _
  rw [← hstore]
  exact follow_attach_snoc hs.table.tree ((Domain.avoiding R).mem_of_snoc hslot.mem) hslot.follow
    hholds.unreached (hholds.decode_link hb)

theorem stepped_fill (hs : Intact alloc root R e s) {table : Ref} {i : Fin 512}
    (ok : (Pc.fill table i).Ok mapper root R e c.v_addr s.store) :
    Stepped mapper alloc root R e c (.running (.fill table i)) s
      (Thread.next (step mapper alloc c (.fill table i) s)) := by
  obtain ⟨l, hslot, hr⟩ := ok.exists_slot
  obtain ⟨t, ht, he⟩ := hslot.free
  have hlen : (c.v_addr.path.take (3 - 0)).length = 3 := c.v_addr.length_take_path (by decide)
  have hpath : c.v_addr.path.take (3 - 0) ++ [i] = c.v_addr.path := by rw [ok.slot_eq]; rfl
  rw [step, run_bind_ok (writeEntry_eq (hr hs.table hslot.follow) ht i _)]
  refine ⟨.filled _ hslot ok.isPrefix hlen, ?_, fun _ h ↦ by cases h⟩
  have hfill : Fill x86 root (Domain.avoiding R) (leafEntry c.p_addr c.flags).bits
      (c.v_addr.path.take (3 - 0) ++ [i]) s (s.fill l i (leafEntry c.p_addr c.flags).bits) :=
    .intro hslot.mem hlen hslot.follow ht he
  obtain ⟨ws, hw, hws⟩ := hfill.lookup_self hs.table.tree (decode_leafEntry _ _)
  rw [hpath] at hw
  exact ⟨ws, (walk_eq_lookup _ _ _).trans hw, hws⟩

/-- Every step of a call is a change on the way to its page. -/
theorem stepped (hm : Lawful mapper root R e) (hs : Intact alloc root R e s)
    (hv : c.v_addr.slot 3 ≠ R) {t : Thread Ref} (ok : t.Ok mapper root R e c s.store) :
    Stepped mapper alloc root R e c t s (Thread.advance mapper alloc c (t, s)) := by
  cases t with
  | returned r => exact .quiet ok rfl
  | running pc =>
      cases pc with
      | test level => exact stepped_test hm hs hv ok
      | request level table i => exact stepped_request hs ok
      | link level table i a => exact stepped_link hs ok
      | fill table i => exact stepped_fill hs ok

end

/-! ## Schedules -/

section

variable {T Ref : Type} [VirtualMapper T Ref] {mapper : T} {alloc : NewPageTable} {c c' : Call}
  {s₀ s : Tables}

/-- The invariant of two calls that started on the tables `s₀`. -/
structure Together (mapper : T) (alloc : NewPageTable) (root : Loc) (R : Fin 512) (e : Word)
    (s₀ : Tables) (c c' : Call) (t t' : Thread Ref) (s : Tables) : Prop where
  intact : Intact alloc root R e s
  kept : Kept s₀.store s.store
  ok : t.Ok mapper root R e c s.store
  ok' : t'.Ok mapper root R e c' s.store
  apart : ∀ a, t.held = some a → t'.held ≠ some a

theorem Together.symm {t t' : Thread Ref} (h : Together mapper alloc root R e s₀ c c' t t' s) :
    Together mapper alloc root R e s₀ c' c t' t s :=
  ⟨h.intact, h.kept, h.ok', h.ok, fun a ha' ha ↦ h.apart a ha ha'⟩

theorem SharedFree.symm {v₁ v₂ : VAddr} (h : SharedFree mem root R v₁ v₂) :
    SharedFree mem root R v₂ v₁ := by
  obtain ⟨π, i, l, hlen, h₁, h₂, hslot⟩ := h
  exact ⟨π, i, l, hlen, h₂, h₁, hslot⟩

/-- What two calls need of each other. -/
structure Disjoint (root : Loc) (R : Fin 512) (s₀ : Tables) (c c' : Call) : Prop where
  slot_ne : c.v_addr.slot 3 ≠ R
  slot_ne' : c'.v_addr.slot 3 ≠ R
  page_ne : c.v_addr.pageIndex ≠ c'.v_addr.pageIndex
  not_shared : ¬ SharedFree s₀.store root R c.v_addr c'.v_addr

theorem Disjoint.symm (h : Disjoint root R s₀ c c') : Disjoint root R s₀ c' c :=
  ⟨h.slot_ne', h.slot_ne, h.page_ne.symm, fun hc ↦ h.not_shared hc.symm⟩

/-- A step of one of the calls keeps the invariant. -/
theorem Together.advance (hm : Lawful mapper root R e) (h₀ : TableTree s₀.store root R e)
    (hd : Disjoint root R s₀ c c') {t t' : Thread Ref}
    (h : Together mapper alloc root R e s₀ c c' t t' s) :
    Together mapper alloc root R e s₀ c c' (Thread.advance mapper alloc c (t, s)).1 t'
      (Thread.advance mapper alloc c (t, s)).2 := by
  have hstep := stepped hm h.intact hd.slot_ne h.ok
  have hkept := hstep.change.kept h.intact
  have hpath : c.v_addr.path ≠ c'.v_addr.path := fun hc ↦ hd.page_ne (VAddr.path_eq_iff.mp hc)
  have hspares := hstep.change.spares h.intact fun {π i l} hslot hp ↦
    FreeSlot.not_shared hd.not_shared h.kept h₀ hpath hslot hp
  refine ⟨hstep.change.intact h.intact, h.kept.trans hkept, hstep.ok,
    h.ok'.spares hd.slot_ne' hkept hspares fun a ha ↦ ?_, fun a ha ha' ↦ ?_⟩
  · exact hstep.change.holds h.intact (h.ok'.holds ha) fun hc ↦ h.apart a hc ha
  · have hnone := hstep.fresh a ha
    rw [(h.ok'.holds ha').blank] at hnone
    cases hnone

/-- The physical base of what an address is mapped to. -/
def frameOf (mem : Memory) (root : Loc) (v : VAddr) : Option PAddr :=
  (walk mem root v).map fun w ↦ leafBase w.1.length w.2

/-- Both pages are mapped as asked for and what was mapped at the start still is. -/
structure NothingLost (root : Loc) (s₀ : Tables) (c₁ c₂ : Call) (s : Tables) : Prop where
  left : frameOf s.store root c₁.v_addr = some c₁.p_addr.frame
  right : frameOf s.store root c₂.v_addr = some c₂.p_addr.frame
  kept : ∀ u a, frameOf s₀.store root u = some a → frameOf s.store root u = some a

theorem Thread.Ok.frameOf {mem : Memory}
    (h : (Thread.returned (.ok ()) : Thread Ref).Ok mapper root R e c mem) :
    frameOf mem root c.v_addr = some c.p_addr.frame := by
  obtain ⟨ws, hw, hlen⟩ := h
  rw [Elpytios.frameOf, hw, Option.map_some, hlen, leafBase_leafEntry]

theorem Kept.frameOf (h : Kept mem mem') {a : PAddr} (ha : frameOf mem root u = some a) :
    frameOf mem' root u = some a := by
  obtain ⟨w, hw, rfl⟩ := Option.map_eq_some_iff.mp ha
  rw [Elpytios.frameOf, h.walk hw, Option.map_some]

/-- Nothing is lost when both calls return `Ok`, whatever the schedule was. -/
def Harmless (mapper : T) (alloc : NewPageTable) (root : Loc) (c₁ c₂ : Call) (s : Tables) : Prop :=
  ∀ schedule : List Bool,
    let conf := interleave mapper alloc c₁ c₂ schedule (.start mapper c₁ c₂ s)
    conf.left = .returned (.ok ()) → conf.right = .returned (.ok ()) →
      NothingLost root s c₁ c₂ conf.tables

theorem thread_start (hm : Lawful mapper root R e) (hv : c.v_addr.slot 3 ≠ R) :
    Thread.start mapper c = .running (.test 3) := by
  rw [Thread.start, hm.reserved_eq, if_neg (by simpa using hv)]

/-- The invariant holds under every schedule. -/
theorem together_interleave (hm : Lawful mapper root R e) (hs : Intact alloc root R e s)
    (hd : Disjoint root R s c c') (schedule : List Bool) :
    let conf := interleave mapper alloc c c' schedule (.start mapper c c' s)
    Together mapper alloc root R e s c c' conf.left conf.right conf.tables := by
  induction schedule using List.reverseRecOn with
  | nil =>
      simp only [interleave, List.foldl_nil, Conf.start, thread_start hm hd.slot_ne,
        thread_start hm hd.slot_ne']
      exact ⟨hs, .refl _, ⟨le_rfl, root, rfl⟩, ⟨le_rfl, root, rfl⟩, fun _ h ↦ by cases h⟩
  | append_singleton schedule b ih =>
      simp only [interleave, List.foldl_append, List.foldl_cons, List.foldl_nil]
      cases b with
      | true => exact ih.advance hm hs.table hd
      | false => exact (ih.symm.advance hm hs.table hd.symm).symm

/-- Calls that share no free slot lose nothing. -/
theorem harmless_of_disjoint (hm : Lawful mapper root R e) (hs : Intact alloc root R e s)
    (hd : Disjoint root R s c c') : Harmless mapper alloc root c c' s := by
  intro schedule conf hleft hright
  have h := together_interleave hm hs hd schedule
  exact ⟨(hleft ▸ h.ok).frameOf, (hright ▸ h.ok').frameOf, fun u a ha ↦ h.kept.frameOf ha⟩

end

end Elpytios
