import Elpytios.Bootinfo.Vaddr

/-!
# Splitting and joining addresses

`VAddr::info` and `VAddr::from_info` are inverse to each other on canonical addresses.  The sixteen
bits from bit 48 on are lost by the one and made up from bit 47 by the other.
-/

namespace Elpytios

namespace VAddr

variable {u v : VAddr} {i : VAddrInfo}

/-- An index is nine bits of the address. -/
theorem getLsbD_index (v : VAddr) {o k : ℕ} (hle : o ≤ k) (hlt : k < o + 9) :
    ((v.addr >>> o) &&& (0x1ff : Word)).getLsbD (k - o) = v.addr.getLsbD k := by
  have hbit : k - o < 9 := by omega
  rw [Bits.getLsbD_field _ _ o 9 _ rfl, decide_eq_true hbit, Bool.and_true, Nat.add_sub_cancel' hle]

/-- The bits of an address that is split and joined again. -/
theorem getLsbD_from_info_info (v : VAddr) {k : ℕ} (hk : k < 64) :
    (from_info v.info).addr.getLsbD k = v.addr.getLsbD (min k 47) := by
  have hmin : k < 39 → min k 47 = k := by omega
  rw [getLsbD_from_info v.info hk]
  split_ifs with h₁ h₂ h₃ h₄
  · rw [hmin (by omega), info, Bits.getLsbD_and_low _ _ 12 _ rfl, decide_eq_true h₁, Bool.and_true]
  · rw [hmin (by omega)]
    exact getLsbD_index v (Nat.not_lt.mp h₁) h₂
  · rw [hmin (by omega)]
    exact getLsbD_index v (Nat.not_lt.mp h₂) h₃
  · rw [hmin h₄]
    exact getLsbD_index v (Nat.not_lt.mp h₃) h₄
  · exact getLsbD_index v (by omega) (by omega)

/-- The low 48 bits of an address, sign-extended. -/
theorem from_info_info (v : VAddr) :
    (from_info v.info).addr = (v.addr.setWidth 48).signExtend 64 := by
  apply BitVec.eq_of_getLsbD_eq
  intro k hk
  rw [getLsbD_from_info_info v hk, BitVec.getLsbD_signExtend, decide_eq_true hk, Bool.true_and]
  split_ifs with h48
  · have hmin : min k 47 = k := by omega
    rw [BitVec.getLsbD_setWidth, decide_eq_true h48, Bool.true_and, hmin]
  · have hmin : min k 47 = 47 := by omega
    rw [hmin, BitVec.msb_eq_getLsbD_last, BitVec.getLsbD_setWidth]
    rfl

/-- Splitting and joining gives an address back exactly if its bits from 47 on are all equal. -/
theorem from_info_info_eq_iff :
    from_info v.info = v ↔ ∀ k, 47 ≤ k → k < 64 → v.addr.getLsbD k = v.addr.getLsbD 47 := by
  constructor
  · intro h k hk hlt
    have hmin : min k 47 = 47 := by omega
    have hbit := getLsbD_from_info_info v hlt
    rwa [h, hmin] at hbit
  · intro h
    apply VAddr.ext
    apply BitVec.eq_of_getLsbD_eq
    intro k hk
    rw [getLsbD_from_info_info v hk]
    rcases Nat.lt_or_ge k 47 with hlt | hge
    · rw [Nat.min_eq_left hlt.le]
    · rw [Nat.min_eq_right hge, h k hge hk]

/-- The canonical addresses are those that splitting and joining gives back. -/
theorem canonical_iff : v.Canonical ↔ from_info v.info = v := by
  constructor
  · intro h
    have hbit : ∀ j, v.addr.getLsbD (47 + j) = (v.addr.toNat / 2 ^ 47).testBit j := by
      intro j
      rw [Nat.testBit_div_two_pow, BitVec.testBit_toNat, Nat.add_comm]
    rw [from_info_info_eq_iff]
    intro k hk hlt
    obtain ⟨j, rfl⟩ := Nat.exists_eq_add_of_le hk
    have hj : j < 17 := by omega
    rw [hbit j, show (47 : ℕ) = 47 + 0 from rfl, hbit 0]
    rcases h with hlow | hhigh
    · have hzero : v.addr.toNat / 2 ^ 47 = 0 := by omega
      rw [hzero, Nat.zero_testBit, Nat.zero_testBit]
    · have hones : v.addr.toNat / 2 ^ 47 = 2 ^ 17 - 1 := by omega
      rw [hones, Nat.testBit_two_pow_sub_one, Nat.testBit_two_pow_sub_one, decide_eq_true hj]
      rfl
  · intro h
    rw [← h]
    exact canonical_from_info _

/-- Joining fields that are in range and splitting again gives them back. -/
theorem info_from_info (hoffset : i.page_offset.toNat < 4096) (hpt : i.pt_index.toNat < 512)
    (hpd : i.pd_index.toNat < 512) (hpdpt : i.pdpt_index.toNat < 512)
    (hpml4 : i.pml4_index.toNat < 512) : (from_info i).info = i := by
  obtain ⟨h₃, h₂, h₁, h₀⟩ := slots_from_info i
  have hoff := offset_from_info i
  rw [PAGE_SIZE, Nat.mod_eq_of_lt hoffset] at hoff
  have hmask : (from_info i).info.page_offset.toNat = (from_info i).addr.toNat % 4096 :=
    (BitVec.toNat_and ..).trans (Nat.and_two_pow_sub_one_eq_mod _ 12)
  apply VAddrInfo.ext
  · exact BitVec.eq_of_toNat_eq (hmask.trans hoff)
  · apply BitVec.eq_of_toNat_eq
    rw [toNat_pt_index, h₀, Nat.mod_eq_of_lt hpt]
  · apply BitVec.eq_of_toNat_eq
    rw [toNat_pd_index, h₁, Nat.mod_eq_of_lt hpd]
  · apply BitVec.eq_of_toNat_eq
    rw [toNat_pdpt_index, h₂, Nat.mod_eq_of_lt hpdpt]
  · apply BitVec.eq_of_toNat_eq
    rw [toNat_pml4_index, h₃, Nat.mod_eq_of_lt hpml4]

/-- Two addresses have the same four indices. -/
def SameIndices (u v : VAddr) : Prop :=
  u.info.pml4_index = v.info.pml4_index ∧ u.info.pdpt_index = v.info.pdpt_index ∧
    u.info.pd_index = v.info.pd_index ∧ u.info.pt_index = v.info.pt_index

instance (u v : VAddr) : Decidable (SameIndices u v) := inferInstanceAs (Decidable (_ ∧ _))

theorem sameIndices_iff_pageIndex : SameIndices u v ↔ u.pageIndex = v.pageIndex := by
  rw [← path_eq_iff, SameIndices]
  simp only [path, List.cons.injEq, and_true, Fin.ext_iff, ← BitVec.toNat_inj, toNat_pml4_index,
    toNat_pdpt_index, toNat_pd_index, toNat_pt_index]

/-- The four indices are the bits from 12 to 47. -/
theorem sameIndices_iff_bits :
    SameIndices u v ↔ ∀ k, 12 ≤ k → k < 48 → u.addr.getLsbD k = v.addr.getLsbD k := by
  have hbit : ∀ (w : VAddr) j, w.pageIndex.testBit j =
      (decide (j < 36) && w.addr.getLsbD (j + 12)) := by
    intro w j
    change (w.addr.toNat / 2 ^ 12 % 2 ^ 36).testBit j = _
    rw [Nat.testBit_mod_two_pow, Nat.testBit_div_two_pow, BitVec.testBit_toNat]
  rw [sameIndices_iff_pageIndex]
  constructor
  · intro h k hk hlt
    have hj : k - 12 < 36 := by omega
    have hu := hbit u (k - 12)
    rw [h, hbit v, decide_eq_true hj, Bool.true_and, Bool.true_and, Nat.sub_add_cancel hk] at hu
    exact hu.symm
  · intro h
    apply Nat.eq_of_testBit_eq
    intro j
    rw [hbit, hbit]
    by_cases hj : j < 36
    · rw [h (j + 12) (by omega) (by omega)]
    · rw [decide_eq_false hj, Bool.false_and, Bool.false_and]

/-- Splitting and joining: what is made of any address, what is made of any fields in range, and
what the indices say about two addresses. -/
theorem split_join :
    (∀ v : VAddr, (from_info v.info).addr = (v.addr.setWidth 48).signExtend 64) ∧
      (∀ v : VAddr, from_info v.info = v ↔
        ∀ k, 47 ≤ k → k < 64 → v.addr.getLsbD k = v.addr.getLsbD 47) ∧
      (∀ i : VAddrInfo, i.page_offset.toNat < 4096 → i.pt_index.toNat < 512 →
        i.pd_index.toNat < 512 → i.pdpt_index.toNat < 512 → i.pml4_index.toNat < 512 →
          (from_info i).Canonical ∧ (from_info i).info = i) ∧
      (∀ u v : VAddr, SameIndices u v ↔
        ∀ k, 12 ≤ k → k < 48 → u.addr.getLsbD k = v.addr.getLsbD k) ∧
      ∀ u v : VAddr, u.Canonical → v.Canonical →
        (SameIndices u v ↔ u.addr.toNat / PAGE_SIZE = v.addr.toNat / PAGE_SIZE) :=
  ⟨from_info_info, fun _ ↦ from_info_info_eq_iff,
    fun i hoffset hpt hpd hpdpt hpml4 ↦
      ⟨canonical_from_info i, info_from_info hoffset hpt hpd hpdpt hpml4⟩,
    fun _ _ ↦ sameIndices_iff_bits,
    fun _ _ hu hv ↦ sameIndices_iff_pageIndex.trans (pageIndex_eq_iff hu hv)⟩

/-- The lowest page of the upper half, and an address in it. -/
theorem split_join_upper_half :
    (from_info ⟨0, 0, 0, 0, 256⟩).Canonical ∧
      (from_info ⟨0, 0, 0, 0, 256⟩).info = ⟨0, 0, 0, 0, 256⟩ ∧
        SameIndices ⟨0xFFFF800000000000⟩ ⟨0xFFFF800000000FFF⟩ :=
  have hjoin := split_join.2.2.1 ⟨0, 0, 0, 0, 256⟩ (by decide) (by decide) (by decide) (by decide)
    (by decide)
  ⟨hjoin.1, hjoin.2, (split_join.2.2.2.2 ⟨0xFFFF800000000000⟩ ⟨0xFFFF800000000FFF⟩ (by decide)
    (by decide)).mpr rfl⟩

end VAddr

end Elpytios
