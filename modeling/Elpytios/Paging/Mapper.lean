import Elpytios.Paging.Tree

/-!
# Mappers reach the tables they should

`Lawful` says what `VirtualMap::map` needs of a mapper: the reference it computes for a
table on the way to an address goes to that table, at the time it is computed and for as
long as the way there stays the same.

`LocalMapper` is lawful on every tree.  `RecursiveMapper` is lawful on a tree whose slot
`R` points back to the PML4: the processor then takes the tables for the entries of a
table one level further down, so that the walk of the address computed ends one level
early, in the table itself.
-/

namespace Elpytios

open Radix

variable {mem : Memory} {root : Loc} {R : Fin 512} {e : Word} {s : Tables}

/-! ## Running the primitives -/

theorem index_eq {i : Word} {j : Fin 512} (h : i.toNat = j) : index i = pure j := by
  have hlt : i.toNat < 512 := h ▸ j.isLt
  rw [index, dif_pos hlt]
  exact congrArg pure (Fin.ext h)

theorem indexUnchecked_eq {i : Word} {j : Fin 512} (h : i.toNat = j) :
    indexUnchecked i = pure j := by
  have hlt : i.toNat < 512 := h ▸ j.isLt
  rw [indexUnchecked, dif_pos hlt]
  exact congrArg pure (Fin.ext h)

theorem readAt_eq {l : Loc} {t : PageTable} (i : Fin 512) (h : s.store l = some t) :
    readAt (some l) i s = .ok (t i) s := by
  simp [readAt, h]

theorem writeAt_eq {l : Loc} {t : PageTable} (i : Fin 512) (x : Word) (h : s.store l = some t) :
    writeAt (some l) i x s = .ok () (s.fill l i x) := by
  simp [writeAt, h]

/-! ## The way to a table -/

/-- Above a table on the way to an address stands the one whose entry links to it. -/
theorem exists_of_follow_take {v : VAddr} {k : ℕ} (j : ℕ) (hkj : k + j = 3) {c : Loc}
    (h : follow x86 mem 0 root (v.path.take (k + 1)) = some c) :
    ∃ l t, follow x86 mem 0 root (v.path.take k) = some l ∧ mem l = some t ∧
      decode k (t (v.slot j)) = .node c := by
  rw [v.take_path hkj] at h
  obtain ⟨l, t, hl, ht, hd⟩ := follow_snoc_eq_some.mp h
  have hlen := v.length_take_path (show k ≤ 4 by omega)
  exact ⟨l, t, hl, ht, by rwa [hlen] at hd⟩

/-- An entry that links to a table as the accessors read it. -/
theorem child_of_node {k : ℕ} {x : Word} {c : Loc} (h : decode k x = .node c) :
    .page (NodeEntry.mk x).child_addr = c ∧
      (PdptEntry.mk x).kind = .Node ⟨x⟩ ∧ (PdEntry.mk x).kind = .Node ⟨x⟩ := by
  obtain ⟨-, -, hleaf, rfl⟩ := decode_eq_node h
  rw [pageSize] at hleaf
  refine ⟨rfl, ?_, ?_⟩
  · exact (PdptEntry.kind_eq _).trans (if_neg (Bool.eq_false_iff.mp hleaf))
  · exact (PdEntry.kind_eq _).trans (if_neg (Bool.eq_false_iff.mp hleaf))

section

variable {T Ref : Type} [VirtualMapper T Ref]

/-- The accessor for the table at a depth on the way to an address. -/
def accessor (mapper : T) (i : VAddrInfo) : ℕ → MapM Ref
  | 0 => VirtualMapper.pml4 mapper
  | 1 => VirtualMapper.pdpt mapper i.pml4_index
  | 2 => VirtualMapper.pd mapper i.pml4_index i.pdpt_index
  | _ => VirtualMapper.pt mapper i.pml4_index i.pdpt_index i.pd_index

/-- A reference that goes to the table at `l` whenever that is where `π` leads. -/
def Reaches (mapper : T) (root : Loc) (R : Fin 512) (e : Word) (π : List (Fin 512)) (l : Loc)
    (r : Ref) : Prop :=
  ∀ ⦃mem⦄, TableTree mem root R e → follow x86 mem 0 root π = some l →
    VirtualMapper.deref mapper r mem = some l

/-- What `VirtualMap::map` relies on in a mapper. -/
structure Lawful (mapper : T) (root : Loc) (R : Fin 512) (e : Word) : Prop where
  reserved_eq : ∀ v, VirtualMapper.reserved mapper v = decide (v.slot 3 = R)
  access : ∀ {v : VAddr} {s : Tables} {k l}, k ≤ 3 → TableTree s.store root R e →
    follow x86 s.store 0 root (v.path.take k) = some l →
    ∃ r, accessor mapper v.info k s = .ok r s ∧ Reaches mapper root R e (v.path.take k) l r

end

theorem reserved_eq_decide {i : Word} (hi : i.toNat = R) (v : VAddr) :
    (v.info.pml4_index == i) = decide (v.slot 3 = R) := by
  rw [Bool.eq_iff_iff, beq_iff_eq, decide_eq_true_iff, ← BitVec.toNat_inj, VAddr.toNat_pml4_index,
    hi, Fin.ext_iff]

/-! ## `LocalMapper` -/

namespace LocalMapper

variable (self : LocalMapper)

theorem pdpt_eq {v : VAddr} {c : Loc}
    (h : follow x86 s.store 0 self.table (v.path.take 1) = some c) :
    self.pdpt v.info.pml4_index s = .ok c s := by
  obtain ⟨l, t, hl, ht, hd⟩ := exists_of_follow_take 3 rfl h
  obtain rfl := Option.some.inj hl
  rw [pdpt, indexUnchecked_eq v.toNat_pml4_index, run_bind_ok (run_pure _ s),
    run_bind_ok (readAt_eq _ ht), ← (child_of_node hd).1]
  rfl

theorem pd_eq {v : VAddr} {c : Loc}
    (h : follow x86 s.store 0 self.table (v.path.take 2) = some c) :
    self.pd v.info.pml4_index v.info.pdpt_index s = .ok c s := by
  obtain ⟨l, t, hl, ht, hd⟩ := exists_of_follow_take 2 rfl h
  obtain ⟨hc, hkind, -⟩ := child_of_node hd
  rw [pd, run_bind_ok (self.pdpt_eq hl), indexUnchecked_eq v.toNat_pdpt_index,
    run_bind_ok (run_pure _ s), run_bind_ok (readAt_eq _ ht), hkind, ← hc]
  rfl

theorem pt_eq {v : VAddr} {c : Loc}
    (h : follow x86 s.store 0 self.table (v.path.take 3) = some c) :
    self.pt v.info.pml4_index v.info.pdpt_index v.info.pd_index s = .ok c s := by
  obtain ⟨l, t, hl, ht, hd⟩ := exists_of_follow_take 1 rfl h
  obtain ⟨hc, -, hkind⟩ := child_of_node hd
  rw [pt, run_bind_ok (self.pd_eq hl), indexUnchecked_eq v.toNat_pd_index,
    run_bind_ok (run_pure _ s), run_bind_ok (readAt_eq _ ht), hkind, ← hc]
  rfl

/-- `LocalMapper` follows the entries, so it reaches every table of a tree. -/
theorem lawful (hR : self.recursion_index.toNat = R) : Lawful self self.table R e where
  reserved_eq := reserved_eq_decide hR
  access {v s k l} hk _ hl := by
    refine ⟨l, ?_, fun _ _ _ ↦ rfl⟩
    obtain rfl | rfl | rfl | rfl : k = 0 ∨ k = 1 ∨ k = 2 ∨ k = 3 := by omega
    · obtain rfl := Option.some.inj hl
      rfl
    · exact self.pdpt_eq hl
    · exact self.pd_eq hl
    · exact self.pt_eq hl

end LocalMapper

/-! ## `RecursiveMapper` -/

namespace RecursiveMapper

variable (self : RecursiveMapper)

/-- The entry of a slot that points back to the PML4. -/
structure SelfLink (cr3 : PAddr) (e : Word) : Prop where
  present : present e = true
  node : pageSize e = false
  next : nextTable e = .page cr3

theorem SelfLink.of_new {a : PAddr} (ha : a.IsPage) :
    SelfLink a (NodeEntry.new Entry.WRITABLE a).bits :=
  ⟨present_new _ _, (pageSize_new _ _).trans rfl, by rw [nextTable_new, PAddr.frame_eq_self ha]⟩

/-- The processor resolves a canonical page address to the frame its walk ends in. -/
theorem deref_eq {v : VAddr} {ws : List Word} {x : Word} (hc : v.Canonical)
    (ho : v.addr.toNat % PAGE_SIZE = 0) (hlen : ws.length = 3)
    (hw : walk mem (.page self.cr3) v = some (ws, x)) :
    self.deref v mem = some (nextTable x) := by
  have hsize : v.addr.toNat % leafSize 3 = 0 := ho
  simp only [deref, if_pos hc, translate, hw, Option.map_some, hlen, hsize]
  exact congrArg some (congrArg Loc.page (PAddr.ext (BitVec.add_zero _)))

section

variable {self} {i j k m : Word} {a b c d : Fin 512}

/-- Resolving an address joined from four indices, given the walk along them. -/
theorem deref_from_info (ws : List Word) (hi : i.toNat = a) (hj : j.toNat = b) (hk : k.toNat = c)
    (hm : m.toNat = d) {x : Word} (hlen : ws.length = 3)
    (hw : ∀ u : VAddr, u.slot 0 = a → u.slot 1 = b → u.slot 2 = c → u.slot 3 = d →
      walk mem (.page self.cr3) u = some (ws, x)) :
    self.deref (.from_info ⟨0, i, j, k, m⟩) mem = some (nextTable x) := by
  obtain ⟨h₃, h₂, h₁, h₀⟩ := VAddr.slots_from_info ⟨0, i, j, k, m⟩
  simp only [hi, hj, hk, hm, Nat.mod_eq_of_lt (Fin.isLt _)] at h₀ h₁ h₂ h₃
  exact self.deref_eq (VAddr.canonical_from_info _) ((VAddr.offset_from_info _).trans rfl) hlen
    (hw _ (Fin.ext h₀) (Fin.ext h₁) (Fin.ext h₂) (Fin.ext h₃))

end

section

variable {self} {e : Word}

variable (hself : SelfLink self.cr3 e) (hR : self.recursion_index.toNat = R)
  (h : TableTree mem (.page self.cr3) R e)

include hself hR h

theorem deref_pml4 : self.deref self.pml4 mem = some (.page self.cr3) := by
  obtain ⟨t, ht⟩ := h.exists_root
  rw [← hself.next]
  apply deref_from_info [e, e, e] hR hR hR hR rfl
  intro u h₀ h₁ h₂ h₃
  simp [walk, walkPdpt, walkPd, walkPt, h₀, h₁, h₂, h₃, ht, h.slot ht, hself.present, hself.node,
    hself.next, Walk.under]

theorem deref_pdpt {v : VAddr} {c : Loc}
    (hc : follow x86 mem 0 (.page self.cr3) (v.path.take 1) = some c) :
    self.deref (self.pdpt v.info.pml4_index) mem = some c := by
  obtain ⟨l, t, hl, ht, hd⟩ := exists_of_follow_take 3 rfl hc
  obtain rfl := Option.some.inj hl
  obtain ⟨-, hp, hn, rfl⟩ := decode_eq_node hd
  refine deref_from_info [e, e, e] v.toNat_pml4_index hR hR hR
    rfl fun u h₀ h₁ h₂ h₃ ↦ ?_
  simp [walk, walkPdpt, walkPd, walkPt, h₀, h₁, h₂, h₃, ht, h.slot ht, hself.present, hself.node,
    hself.next, Walk.under, hp]

theorem deref_pd {v : VAddr} {c : Loc}
    (hc : follow x86 mem 0 (.page self.cr3) (v.path.take 2) = some c) :
    self.deref (self.pd v.info.pml4_index v.info.pdpt_index) mem = some c := by
  obtain ⟨l₁, t₁, hl₁, ht₁, hd₁⟩ := exists_of_follow_take 2 rfl hc
  obtain ⟨l, t, hl, ht, hd⟩ := exists_of_follow_take 3 rfl hl₁
  obtain rfl := Option.some.inj hl
  obtain ⟨-, hp, hn, rfl⟩ := decode_eq_node hd
  obtain ⟨-, hp₁, hn₁, rfl⟩ := decode_eq_node hd₁
  refine deref_from_info [e, e, t (v.slot 3)] v.toNat_pdpt_index v.toNat_pml4_index hR hR
    rfl fun u h₀ h₁ h₂ h₃ ↦ ?_
  simp [walk, walkPdpt, walkPd, walkPt, h₀, h₁, h₂, h₃, ht, ht₁, h.slot ht, hself.present,
    hself.node, hself.next, Walk.under, hp, hn, hp₁]

theorem deref_pt {v : VAddr} {c : Loc}
    (hc : follow x86 mem 0 (.page self.cr3) (v.path.take 3) = some c) :
    self.deref (self.pt v.info.pml4_index v.info.pdpt_index v.info.pd_index) mem = some c := by
  obtain ⟨l₂, t₂, hl₂, ht₂, hd₂⟩ := exists_of_follow_take 1 rfl hc
  obtain ⟨l₁, t₁, hl₁, ht₁, hd₁⟩ := exists_of_follow_take 2 rfl hl₂
  obtain ⟨l, t, hl, ht, hd⟩ := exists_of_follow_take 3 rfl hl₁
  obtain rfl := Option.some.inj hl
  obtain ⟨-, hp, hn, rfl⟩ := decode_eq_node hd
  obtain ⟨-, hp₁, hn₁, rfl⟩ := decode_eq_node hd₁
  obtain ⟨-, hp₂, hn₂, rfl⟩ := decode_eq_node hd₂
  refine deref_from_info [e, t (v.slot 3), t₁ (v.slot 2)] v.toNat_pd_index v.toNat_pdpt_index
    v.toNat_pml4_index hR rfl fun u h₀ h₁ h₂ h₃ ↦ ?_
  simp [walk, walkPdpt, walkPd, walkPt, h₀, h₁, h₂, h₃, ht, ht₁, ht₂, h.slot ht, hself.present,
    hself.node, hself.next, Walk.under, hp, hn, hp₁, hn₁, hp₂]

end

/-- On a tree whose slot `R` points back to the PML4, `RecursiveMapper` reaches every table. -/
theorem lawful (hself : SelfLink self.cr3 e) (hR : self.recursion_index.toNat = R) :
    Lawful self (.page self.cr3) R e where
  reserved_eq := reserved_eq_decide hR
  access {v s k l} hk _ hl := by
    obtain rfl | rfl | rfl | rfl : k = 0 ∨ k = 1 ∨ k = 2 ∨ k = 3 := by omega
    · exact ⟨_, rfl, fun mem h hm ↦ Option.some.inj hm ▸ deref_pml4 hself hR h⟩
    · exact ⟨_, rfl, fun mem h hm ↦ deref_pdpt hself hR h hm⟩
    · exact ⟨_, rfl, fun mem h hm ↦ deref_pd hself hR h hm⟩
    · exact ⟨_, rfl, fun mem h hm ↦ deref_pt hself hR h hm⟩

end RecursiveMapper

end Elpytios
