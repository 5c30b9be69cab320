import Elpytios.Lib.Radix.Insert

/-!
# How many tables a set of paths needs

A path of a tree needs a table at each of its prefixes down to the bottom.  `absent` lists the
prefixes of some paths at which there is no table yet, each of them once, however many paths
share it.  An insertion that succeeds supplies those of its own path and no others, so that
insertions in any order ask for one table for each prefix that is absent
(`Inserted.card_absent`).
-/

universe u v w

namespace Radix

variable {Loc : Type u} {Ix : Type v} {W : Type w} [DecidableEq Ix] {F : Format Loc W}
  {supply : Supply Loc} {root : Loc} {D : Domain Ix} {s s' : State Loc Ix W}
  {π ρ ν : List Ix} {νs : List (List Ix)}

/-- The prefixes of some paths at which a table is needed. -/
def prefixes (F : Format Loc W) (νs : List (List Ix)) : Finset (List Ix) :=
  (νs.flatMap fun ν ↦ (List.range (F.bottom + 1)).map ν.take).toFinset

/-- The prefixes at which there is no table. -/
def absent (F : Format Loc W) (σ : Store Loc Ix W) (root : Loc) (νs : List (List Ix)) :
    Finset (List Ix) :=
  (prefixes F νs).filter fun π ↦ (follow F σ 0 root π).isNone

theorem mem_prefixes : π ∈ prefixes F νs ↔ ∃ ν ∈ νs, ∃ k ≤ F.bottom, ν.take k = π := by
  simp only [prefixes, List.mem_toFinset, List.mem_flatMap, List.mem_map, List.mem_range,
    Nat.lt_succ_iff]

theorem mem_absent {σ : Store Loc Ix W} :
    π ∈ absent F σ root νs ↔ π ∈ prefixes F νs ∧ follow F σ 0 root π = none := by
  simp [absent]

/-- The number of tables needed depends on the set of paths only. -/
theorem absent_congr {σ : Store Loc Ix W} {νs νs' : List (List Ix)}
    (h : ∀ ν, ν ∈ νs ↔ ν ∈ νs') : absent F σ root νs = absent F σ root νs' := by
  ext π
  simp only [mem_absent, mem_prefixes, h]

/-- The tables a single path needs. -/
theorem card_absent_singleton (σ : Store Loc Ix W) (hlen : F.bottom < ν.length) :
    (absent F σ root [ν]).card = missing F σ root ν := by
  have himage : absent F σ root [ν] = ((Finset.range (F.bottom + 1)).filter
      fun k ↦ (follow F σ 0 root (ν.take k)).isNone).image ν.take := by
    ext π
    simp only [mem_absent, mem_prefixes, List.mem_singleton, exists_eq_left, Finset.mem_image,
      Finset.mem_filter, Finset.mem_range, Option.isNone_iff_eq_none, Nat.lt_succ_iff]
    constructor
    · rintro ⟨⟨k, hk, rfl⟩, hnone⟩
      exact ⟨k, ⟨hk, hnone⟩, rfl⟩
    · rintro ⟨k, ⟨hk, hnone⟩, rfl⟩
      exact ⟨⟨k, hk, rfl⟩, hnone⟩
  rw [himage, missing, Finset.card_image_of_injOn]
  intro k hk j hj hkj
  rw [Finset.mem_coe, Finset.mem_filter, Finset.mem_range] at hk hj
  have hlen' := congrArg List.length hkj
  rw [List.length_take, List.length_take] at hlen'
  omega

variable [DecidableEq Loc]

/-! ## The paths that are opened -/

/-- Growing opens the path of the slot linked, and no other. -/
theorem Grow.follow_new (h : Grow F supply root D π s s') (hs : s.Good F supply root D) {m : Loc}
    (hρ : ρ ∈ D) (hm : follow F s'.store 0 root ρ = some m) :
    ρ = π ∨ follow F s.store 0 root ρ = some m := by
  cases h with
  | intro hπ hb hl ht he ha =>
      have hfresh := hs.tree.unreached (hs.sound.fresh le_rfl ha)
      have hlink := F.decode_link _ hb _ (hs.sound.linkable le_rfl ha)
      rcases follow_of_attach hs.tree (D.mem_of_snoc hπ) hl hfresh hlink hρ hm with ⟨h, -⟩ | ⟨h, -⟩
      · exact Or.inl h
      · exact Or.inr h

theorem Grow.length_le (h : Grow F supply root D π s s') : π.length ≤ F.bottom := by
  cases h with
  | intro _ hb _ _ _ _ => simpa using Nat.succ_le_of_lt hb

theorem GrowAlong.follow_new (h : GrowAlong F supply root D ν s s') (hs : s.Good F supply root D)
    {m : Loc} (hρ : ρ ∈ D) (hm : follow F s'.store 0 root ρ = some m) :
    (ρ <+: ν ∧ ρ.length ≤ F.bottom) ∨ follow F s.store 0 root ρ = some m := by
  induction h with
  | refl => exact Or.inr hm
  | tail hrun hstep ih =>
      obtain ⟨π, hp, hg⟩ := hstep
      rcases hg.follow_new (GrowAlong.good hrun hs) hρ hm with rfl | hm
      · exact Or.inl ⟨hp, hg.length_le⟩
      · exact ih hm

/-- Filling a slot opens no path. -/
theorem Fill.follow_new {x : W} (h : Fill F root D x π s s') (hs : s.Good F supply root D) {m : Loc}
    (hρ : ρ ∈ D) (hm : follow F s'.store 0 root ρ = some m) : follow F s.store 0 root ρ = some m := by
  cases h with
  | intro hπ hb hl _ _ =>
      refine follow_of_write hs.tree (D.mem_of_snoc hπ) hl ?_ hρ hm
      exact Option.eq_none_iff_forall_ne_some.mpr fun c hc ↦
        F.decode_bottom _ hb.ge _ c (Slot.child?_eq_some.mp hc)

/-- A successful insertion opens the prefixes of its path, and no other path. -/
theorem Inserted.follow_new {x : W} (h : Inserted F supply root D x ν s (.ok ()) s')
    (hs : s.Good F supply root D) {m : Loc} (hρ : ρ ∈ D)
    (hm : follow F s'.store 0 root ρ = some m) :
    (ρ <+: ν ∧ ρ.length ≤ F.bottom) ∨ follow F s.store 0 root ρ = some m := by
  cases h with
  | ok _ hg hf =>
      exact GrowAlong.follow_new hg hs hρ (hf.follow_new (GrowAlong.good hg hs) hρ hm)

omit [DecidableEq Ix] [DecidableEq Loc] in
/-- The tables on the way to a path are there if none is missing. -/
theorem exists_follow_of_missing_eq_zero {σ : Store Loc Ix W} (h : missing F σ root ν = 0) {k : ℕ}
    (hk : k ≤ F.bottom) : ∃ m, follow F σ 0 root (ν.take k) = some m := by
  rw [missing, Finset.card_eq_zero, Finset.filter_eq_empty_iff] at h
  have hk' := h (Finset.mem_range.mpr (Nat.lt_succ_of_le hk))
  rw [Option.isNone_iff_eq_none, ← ne_eq, Option.ne_none_iff_exists'] at hk'
  exact hk'

/-- After a successful insertion the tables on the way to its path are there. -/
theorem Inserted.exists_follow {x : W} (h : Inserted F supply root D x ν s (.ok ()) s')
    (hs : s.Good F supply root D) (hν : ν ∈ D) {k : ℕ} (hk : k ≤ F.bottom) :
    ∃ m, follow F s'.store 0 root (ν.take k) = some m := by
  cases h with
  | ok _ hg hf =>
      obtain ⟨m, hm⟩ := exists_follow_of_missing_eq_zero hf.missing_eq hk
      have hext := hf.extends (GrowAlong.good hg hs).tree
      exact ⟨m, hext.follow_eq (D.mem_of_isPrefix hν (List.take_prefix _ _)) hm⟩

/-! ## Counting -/

/-- A successful insertion takes the prefixes of its own path off those that are absent. -/
theorem Inserted.card_absent {x : W} (h : Inserted F supply root D x ν s (.ok ()) s')
    (hs : s.Good F supply root D) (hν : ν ∈ D) (hlen : F.bottom < ν.length)
    (hνs : ∀ ν ∈ νs, ν ∈ D) :
    (absent F s.store root (ν :: νs)).card =
      missing F s.store root ν + (absent F s'.store root νs).card := by
  have hsplit : absent F s.store root (ν :: νs) =
      absent F s.store root [ν] ∪ absent F s'.store root νs := by
    ext π
    simp only [Finset.mem_union, mem_absent, mem_prefixes, List.mem_cons, List.not_mem_nil,
      or_false]
    constructor
    · rintro ⟨⟨μ, rfl | hμ, k, hk, rfl⟩, hnone⟩
      · exact Or.inl ⟨⟨μ, rfl, k, hk, rfl⟩, hnone⟩
      · cases hm : follow F s'.store 0 root (μ.take k) with
        | none => exact Or.inr ⟨⟨μ, hμ, k, hk, rfl⟩, rfl⟩
        | some m =>
            -- a prefix that is opened is one of the path inserted at
            have hD := D.mem_of_isPrefix (hνs μ hμ) (List.take_prefix k μ)
            rcases h.follow_new hs hD hm with ⟨hp, hle⟩ | hsome
            · exact Or.inl ⟨⟨ν, rfl, _, hle, (List.prefix_iff_eq_take.mp hp).symm⟩, hnone⟩
            · cases hnone.symm.trans hsome
    · rintro (⟨⟨μ, rfl, k, hk, rfl⟩, hnone⟩ | ⟨⟨μ, hμ, k, hk, rfl⟩, hnone⟩)
      · exact ⟨⟨μ, Or.inl rfl, k, hk, rfl⟩, hnone⟩
      · refine ⟨⟨μ, Or.inr hμ, k, hk, rfl⟩, Option.eq_none_iff_forall_ne_some.mpr fun m hm ↦ ?_⟩
        have hD := D.mem_of_isPrefix (hνs μ hμ) (List.take_prefix k μ)
        cases hnone.symm.trans (h.follow_eq hs hD hm)
  have hdisjoint : Disjoint (absent F s.store root [ν]) (absent F s'.store root νs) := by
    refine Finset.disjoint_left.mpr fun π hπ hπ' ↦ ?_
    obtain ⟨μ, hμ, k, hk, rfl⟩ := mem_prefixes.mp (mem_absent.mp hπ).1
    obtain rfl := List.mem_singleton.mp hμ
    obtain ⟨m, hm⟩ := h.exists_follow hs hν hk
    cases hm.symm.trans (mem_absent.mp hπ').2
  rw [hsplit, Finset.card_union_of_disjoint hdisjoint, card_absent_singleton _ hlen]

end Radix
