import Elpytios.Bootinfo.Paddr
import Elpytios.Lib.Bits

/-!
# Virtual addresses, mapping flags and mapping errors

`VAddr` and `VAddrInfo` are from `virt.rs`, `VFlags` and `VirtualMapError` from
`bootinfo/src/lib.rs`.
-/

namespace Elpytios

/-- A virtual address. -/
@[ext]
structure VAddr where
  /-- The address. -/
  addr : Word
deriving DecidableEq, Repr, Inhabited

/-- A virtual address split into its page offset and its four table indices. -/
@[ext]
structure VAddrInfo where
  page_offset : Word
  pt_index : Word
  pd_index : Word
  pdpt_index : Word
  pml4_index : Word
deriving DecidableEq, Repr

namespace VAddr

def new (virtual_address : Word) : VAddr := ⟨virtual_address⟩

def info (self : VAddr) : VAddrInfo where
  page_offset := self.addr &&& (0xfff : Word)
  pt_index := (self.addr >>> 12) &&& (0x1ff : Word)
  pd_index := (self.addr >>> 21) &&& (0x1ff : Word)
  pdpt_index := (self.addr >>> 30) &&& (0x1ff : Word)
  pml4_index := (self.addr >>> 39) &&& (0x1ff : Word)

/-- Join the fields.  The shift left and the arithmetic shift back right copy bit 47
into the sixteen bits above it. -/
def from_info (i : VAddrInfo) : VAddr :=
  let addr : Word := i.page_offset &&& (0xfff : Word)
    ||| (i.pt_index &&& (0x1ff : Word)) <<< 12 ||| (i.pd_index &&& (0x1ff : Word)) <<< 21
    ||| (i.pdpt_index &&& (0x1ff : Word)) <<< 30 ||| (i.pml4_index &&& (0x1ff : Word)) <<< 39
  ⟨(addr <<< 16).sshiftRight 16⟩

/-- The processor takes an address only if its bits from 47 on are all equal. -/
def Canonical (v : VAddr) : Prop := v.addr.toNat < 2 ^ 47 ∨ 2 ^ 64 - 2 ^ 47 ≤ v.addr.toNat

instance (v : VAddr) : Decidable v.Canonical := inferInstanceAs (Decidable (_ ∨ _))

end VAddr

/-! ## Slots

The four indices as table slots, from the page table (`slot 0`) up to the PML4
(`slot 3`), and the path a walk takes from the top. -/

namespace VAddr

/-- The nine bits from bit `12 + 9 * k` on. -/
def slot (v : VAddr) (k : Nat) : Fin 512 :=
  ⟨v.addr.toNat / 2 ^ (12 + 9 * k) % 512, Nat.mod_lt _ (by decide)⟩

/-- The slots from the PML4 down. -/
def path (v : VAddr) : List (Fin 512) := [v.slot 3, v.slot 2, v.slot 1, v.slot 0]

/-- The number of the page, bits 12 to 47. -/
def pageIndex (v : VAddr) : Nat := v.addr.toNat / PAGE_SIZE % 2 ^ 36

@[simp] theorem length_path (v : VAddr) : v.path.length = 4 := rfl

theorem drop_path (v : VAddr) {k j : ℕ} (hkj : k + j = 3) :
    v.path.drop k = v.slot j :: v.path.drop (k + 1) := by
  obtain ⟨rfl, rfl⟩ | ⟨rfl, rfl⟩ | ⟨rfl, rfl⟩ | ⟨rfl, rfl⟩ :
    k = 0 ∧ j = 3 ∨ k = 1 ∧ j = 2 ∨ k = 2 ∧ j = 1 ∨ k = 3 ∧ j = 0 := by omega
  all_goals rfl

theorem take_path (v : VAddr) {k j : ℕ} (hkj : k + j = 3) :
    v.path.take (k + 1) = v.path.take k ++ [v.slot j] := by
  obtain ⟨rfl, rfl⟩ | ⟨rfl, rfl⟩ | ⟨rfl, rfl⟩ | ⟨rfl, rfl⟩ :
    k = 0 ∧ j = 3 ∨ k = 1 ∧ j = 2 ∨ k = 2 ∧ j = 1 ∨ k = 3 ∧ j = 0 := by omega
  all_goals rfl

theorem length_take_path (v : VAddr) {k : ℕ} (hk : k ≤ 4) : (v.path.take k).length = k := by
  rw [List.length_take, length_path]; omega

theorem toNat_pt_index (v : VAddr) : v.info.pt_index.toNat = v.slot 0 :=
  Bits.toNat_field v.addr 0x1ff 12 9 rfl

theorem toNat_pd_index (v : VAddr) : v.info.pd_index.toNat = v.slot 1 :=
  Bits.toNat_field v.addr 0x1ff 21 9 rfl

theorem toNat_pdpt_index (v : VAddr) : v.info.pdpt_index.toNat = v.slot 2 :=
  Bits.toNat_field v.addr 0x1ff 30 9 rfl

theorem toNat_pml4_index (v : VAddr) : v.info.pml4_index.toNat = v.slot 3 :=
  Bits.toNat_field v.addr 0x1ff 39 9 rfl

theorem path_eq_iff {u v : VAddr} : u.path = v.path ↔ u.pageIndex = v.pageIndex := by
  simp only [path, List.cons.injEq, Fin.ext_iff, slot, and_true, pageIndex, PAGE_SIZE]
  omega

theorem path_eq_of_isPrefix {u v : VAddr} (h : u.path <+: v.path) : u.path = v.path :=
  h.eq_of_length rfl

/-- Canonical addresses with one page number in bits 12 to 47 are on one page. -/
theorem pageIndex_eq_iff {u v : VAddr} (hu : u.Canonical) (hv : v.Canonical) :
    u.pageIndex = v.pageIndex ↔ u.addr.toNat / PAGE_SIZE = v.addr.toNat / PAGE_SIZE := by
  rw [Canonical] at hu hv
  simp only [pageIndex, PAGE_SIZE]
  omega

theorem slot_eq_of_isPrefix {u v : VAddr} {k : ℕ} (h : v.path.take (k + 1) <+: u.path) :
    u.slot 3 = v.slot 3 := by
  rw [path, path, List.take_succ_cons, List.cons_prefix_cons] at h
  exact h.1.symm

/-- The bits of a joined address: the fields in their places, and bit 47 copied up. -/
theorem getLsbD_from_info (i : VAddrInfo) {k : Nat} (hk : k < 64) :
    (from_info i).addr.getLsbD k =
      if k < 12 then i.page_offset.getLsbD k
      else if k < 21 then i.pt_index.getLsbD (k - 12)
      else if k < 30 then i.pd_index.getLsbD (k - 21)
      else if k < 39 then i.pdpt_index.getLsbD (k - 30)
      else i.pml4_index.getLsbD (min k 47 - 39) := by
  have h9 : ∀ (x : Word) j, (x &&& (0x1ff : Word)).getLsbD j = (x.getLsbD j && decide (j < 9)) :=
    fun x j ↦ Bits.getLsbD_and_low x _ 9 j rfl
  have h12 : ∀ (x : Word) j, (x &&& (0xfff : Word)).getLsbD j = (x.getLsbD j && decide (j < 12)) :=
    fun x j ↦ Bits.getLsbD_and_low x _ 12 j rfl
  -- the sign extension reads bit `min k 47` of the fields put together
  have hsign : ∀ x : Word, ((x <<< 16).sshiftRight 16).getLsbD k = x.getLsbD (min k 47) := by
    intro x
    rw [BitVec.getLsbD_sshiftRight]
    by_cases h47 : k < 48
    · have hlt : 16 + k < 64 := by omega
      have hmin : min k 47 = k := by omega
      rw [if_pos hlt, BitVec.getLsbD_shiftLeft, hmin]
      simp [hlt, Nat.not_le.mpr hk, show ¬ 16 + k < 16 by omega]
    · have hge : ¬ 16 + k < 64 := by omega
      have hmin : min k 47 = 47 := by omega
      simp [hge, hmin, BitVec.msb_eq_getLsbD_last, Nat.not_le.mpr hk]
  have hmin : min k 47 < 64 := by omega
  have hpos : k < 39 → min k 47 = k := by omega
  rw [from_info, hsign]
  simp only [BitVec.getLsbD_or, BitVec.getLsbD_shiftLeft, h9, h12, hmin, decide_true,
    Bool.true_and]
  rcases Nat.lt_or_ge k 39 with h39 | h39
  · rw [hpos h39]
    split_ifs with h₁ h₂ h₃
    · simp [h₁, show k < 21 by omega, show k < 30 by omega, h39]
    · simp [h₁, h₂, show k - 12 < 9 by omega, show k < 30 by omega, h39]
    · simp [h₁, h₂, h₃, show k - 21 < 9 by omega, show ¬ k - 12 < 9 by omega, h39]
    · simp [h₁, h₂, h₃, show k - 30 < 9 by omega, show ¬ k - 21 < 9 by omega,
        show ¬ k - 12 < 9 by omega, h39]
  · have hge : 39 ≤ min k 47 := by omega
    generalize hm : min k 47 = m at hge ⊢
    simp [show ¬ k < 12 by omega, show ¬ k < 21 by omega, show ¬ k < 30 by omega,
      show ¬ k < 39 by omega, show ¬ m < 12 by omega, show ¬ m < 21 by omega,
      show ¬ m < 30 by omega, show ¬ m < 39 by omega, show m - 39 < 9 by omega,
      show ¬ m - 30 < 9 by omega, show ¬ m - 21 < 9 by omega, show ¬ m - 12 < 9 by omega]

/-- A slot is determined by its nine bits. -/
theorem slot_eq_of_bits {v : VAddr} {k : Nat} {x : Word}
    (h : ∀ j < 9, v.addr.getLsbD (12 + 9 * k + j) = x.getLsbD j) :
    (v.slot k : Nat) = x.toNat % 512 := by
  apply Nat.eq_of_testBit_eq
  intro j
  change (v.addr.toNat / 2 ^ (12 + 9 * k) % 2 ^ 9).testBit j = (x.toNat % 2 ^ 9).testBit j
  rw [Nat.testBit_mod_two_pow, Nat.testBit_mod_two_pow, Nat.testBit_div_two_pow,
    BitVec.testBit_toNat, BitVec.testBit_toNat, Nat.add_comm j]
  by_cases hj : j < 9
  · rw [h j hj]
  · simp [hj]

/-- Every slot of a joined address is the index it was joined from. -/
theorem slots_from_info (i : VAddrInfo) :
    ((from_info i).slot 3 : Nat) = i.pml4_index.toNat % 512 ∧
      ((from_info i).slot 2 : Nat) = i.pdpt_index.toNat % 512 ∧
      ((from_info i).slot 1 : Nat) = i.pd_index.toNat % 512 ∧
      ((from_info i).slot 0 : Nat) = i.pt_index.toNat % 512 := by
  refine ⟨slot_eq_of_bits fun j hj ↦ ?_, slot_eq_of_bits fun j hj ↦ ?_,
    slot_eq_of_bits fun j hj ↦ ?_, slot_eq_of_bits fun j hj ↦ ?_⟩
  · rw [getLsbD_from_info i (by omega), if_neg (by omega), if_neg (by omega), if_neg (by omega),
      if_neg (by omega), show min (12 + 9 * 3 + j) 47 - 39 = j by omega]
  · rw [getLsbD_from_info i (by omega), if_neg (by omega), if_neg (by omega), if_neg (by omega),
      if_pos (by omega), show 12 + 9 * 2 + j - 30 = j by omega]
  · rw [getLsbD_from_info i (by omega), if_neg (by omega), if_neg (by omega), if_pos (by omega),
      show 12 + 9 * 1 + j - 21 = j by omega]
  · rw [getLsbD_from_info i (by omega), if_neg (by omega), if_pos (by omega),
      show 12 + 9 * 0 + j - 12 = j by omega]

/-- The page offset of a joined address is the one it was joined from. -/
theorem offset_from_info (i : VAddrInfo) :
    (from_info i).addr.toNat % PAGE_SIZE = i.page_offset.toNat % PAGE_SIZE := by
  apply Nat.eq_of_testBit_eq
  intro j
  rw [PAGE_SIZE, show (4096 : Nat) = 2 ^ 12 from rfl, Nat.testBit_mod_two_pow,
    Nat.testBit_mod_two_pow, BitVec.testBit_toNat, BitVec.testBit_toNat]
  by_cases hj : j < 12
  · rw [getLsbD_from_info i (by omega), if_pos hj]
  · simp [hj]

/-- The sign extension makes a joined address canonical. -/
theorem canonical_from_info (i : VAddrInfo) : (from_info i).Canonical := by
  have hbit : ∀ j, ((from_info i).addr.toNat / 2 ^ 47).testBit j =
      (decide (j < 17) && i.pml4_index.getLsbD 8) := by
    intro j
    rw [Nat.testBit_div_two_pow, BitVec.testBit_toNat]
    by_cases hj : j < 17
    · rw [getLsbD_from_info i (by omega), if_neg (by omega), if_neg (by omega), if_neg (by omega),
        if_neg (by omega), show min (j + 47) 47 - 39 = 8 by omega]
      simp [hj]
    · rw [BitVec.getLsbD_of_ge _ _ (by omega)]
      simp [hj]
  cases hsign : i.pml4_index.getLsbD 8 with
  | false =>
      have hzero : (from_info i).addr.toNat / 2 ^ 47 = 0 :=
        Nat.eq_of_testBit_eq fun j ↦ by rw [hbit, hsign]; simp
      exact Or.inl (by omega)
  | true =>
      have hones : (from_info i).addr.toNat / 2 ^ 47 = 2 ^ 17 - 1 :=
        Nat.eq_of_testBit_eq fun j ↦ by rw [hbit, hsign, Nat.testBit_two_pow_sub_one]; simp
      exact Or.inr (by omega)

end VAddr

/-- The flags of a mapping.  Any word is a possible value: `bitflags` lets a caller keep
bits that have no name. -/
@[ext]
structure VFlags where
  bits : Word
deriving DecidableEq, Repr, Inhabited

namespace VFlags

def WRITABLE : VFlags := ⟨(1 : Word) <<< 0⟩
def USER_MODE : VFlags := ⟨(1 : Word) <<< 1⟩
def WRITE_THROUGH : VFlags := ⟨(1 : Word) <<< 2⟩
def CACHE_DISABLED : VFlags := ⟨(1 : Word) <<< 3⟩
def ACCESSED : VFlags := ⟨(1 : Word) <<< 4⟩
def GLOBAL : VFlags := ⟨(1 : Word) <<< 5⟩

def empty : VFlags := ⟨0⟩

instance : OrOp VFlags := ⟨fun a b ↦ ⟨a.bits ||| b.bits⟩⟩

def contains (self other : VFlags) : Bool := self.bits &&& other.bits == other.bits

end VFlags

/-- Why a page could not be mapped. -/
inductive VirtualMapError where
  | /-- A page table could not be allocated. -/
    PageTable
  | /-- The virtual address is in the slot kept for the recursive mapping. -/
    Reserved (p_addr : PAddr) (v_addr : VAddr)
  | /-- The virtual page is mapped already. -/
    AlreadyMapped (p_addr : PAddr) (v_addr : VAddr) (p_addr_existing : PAddr)
deriving DecidableEq, Repr

end Elpytios
