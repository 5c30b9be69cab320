import Elpytios.Lib.Radix.Step
import Mathlib.Data.Finset.Card
import Mathlib.Logic.Relation

/-!
# Growing along a path

Runs of growth steps at slots on the way to one path (`GrowAlong`), as an insertion
makes them, and three things that can be said of such runs: which requests were granted
and where the tables obtained are, how many tables are still `missing` on the way, and
that a property of link words holds of every link (`Links`).
-/

universe u v w

namespace Radix

variable {Loc : Type u} {Ix : Type v} {W : Type w} [DecidableEq Loc] [DecidableEq Ix]
  {F : Format Loc W} {supply : Supply Loc} {root : Loc} {D : Domain Ix} {s s' : State Loc Ix W}

/-! ## Runs of growth steps -/

/-- Growth at slots on the way to `ν` only. -/
abbrev GrowAlong (F : Format Loc W) (supply : Supply Loc) (root : Loc) (D : Domain Ix)
    (ν : List Ix) : State Loc Ix W → State Loc Ix W → Prop :=
  Relation.ReflTransGen fun s s' ↦ ∃ π, π <+: ν ∧ Grow F supply root D π s s'

section GrowAlong

variable {ν : List Ix}

theorem GrowAlong.good (h : GrowAlong F supply root D ν s s') (hs : s.Good F supply root D) :
    s'.Good F supply root D := by
  induction h with
  | refl => exact hs
  | tail _ hstep ih =>
      obtain ⟨π, -, hg⟩ := hstep
      exact hg.good ih

theorem GrowAlong.calls_le (h : GrowAlong F supply root D ν s s') : s.calls ≤ s'.calls := by
  induction h with
  | refl => exact le_rfl
  | tail _ hstep ih =>
      obtain ⟨π, -, hg⟩ := hstep
      exact ih.trans (by rw [hg.calls_eq]; exact Nat.le_succ _)

theorem GrowAlong.follow_eq (h : GrowAlong F supply root D ν s s') (hs : s.Good F supply root D)
    {ρ : List Ix} {m : Loc} (hρ : ρ ∈ D) (hm : follow F s.store 0 root ρ = some m) :
    follow F s'.store 0 root ρ = some m := by
  induction h with
  | refl => exact hm
  | tail hrun hstep ih =>
      obtain ⟨π, -, hg⟩ := hstep
      have hgood := GrowAlong.good hrun hs
      exact (hg.extends hgood.sound hgood.tree).follow_eq hρ ih

theorem GrowAlong.lookup_eq (h : GrowAlong F supply root D ν s s') (hs : s.Good F supply root D)
    {μ : List Ix} (hμ : μ ∈ D) :
    lookup F (s'.table F root) [] μ = lookup F (s.table F root) [] μ := by
  induction h with
  | refl => rfl
  | tail hrun hstep ih =>
      obtain ⟨π, -, hg⟩ := hstep
      have hgood := GrowAlong.good hrun hs
      exact (hg.lookup_eq hgood.sound hgood.tree hμ).trans ih

/-- Every request of a growth was granted, and the table obtained hangs on the way
to `ν`, blank but for a link to another table obtained. -/
theorem GrowAlong.granted (h : GrowAlong F supply root D ν s s') (hs : s.Good F supply root D)
    {n : ℕ} (hn : s.calls ≤ n) (hn' : n < s'.calls) :
    ∃ a π t, supply n = some a ∧ π <+: ν ∧ π ∈ D ∧ follow F s'.store 0 root π = some a ∧
      s'.store a = some t ∧ ∀ j, t j = F.blank ∨ π ++ [j] <+: ν ∧
        ∃ m b, s.calls ≤ m ∧ m < s'.calls ∧ supply m = some b ∧ t j = F.link b := by
  induction h with
  | refl => omega
  | @tail s₁ s₂ hrun hstep ih =>
      obtain ⟨π, hπν, hg⟩ := hstep
      have hgood := GrowAlong.good hrun hs
      have hle := GrowAlong.calls_le hrun
      have hcalls := hg.calls_eq
      by_cases hlast : n = s₁.calls
      · obtain ⟨a, ha, hfa, hta⟩ := hg.follow_self hgood.sound hgood.tree
        exact ⟨a, π, _, hlast ▸ ha, hπν, hg.mem, hfa, hta, fun _ ↦ Or.inl rfl⟩
      · obtain ⟨a, ρ, t, ha, hρν, hρ, hfa, hta, hslots⟩ := ih (by omega)
        obtain ⟨π₀, i, l, b, t₀, rfl, hl, ht₀, he, hb, hstore⟩ := hg.store_eq
        have hfa' := (hg.extends hgood.sound hgood.tree).follow_eq hρ hfa
        have hab : a ≠ b := hgood.tree.unreached (hgood.sound.fresh le_rfl hb) hρ hfa
        have hold : ∀ j, t j = F.blank ∨ ρ ++ [j] <+: ν ∧
            ∃ m b, s.calls ≤ m ∧ m < s₂.calls ∧ supply m = some b ∧ t j = F.link b := fun j ↦
          (hslots j).imp_right fun ⟨hj, m, c, hm, hm', hc, htc⟩ ↦
            ⟨hj, m, c, hm, by omega, hc, htc⟩
        have hsa := hstore a hab
        by_cases hal : a = l
        · -- the table obtained earlier is the one the new table was linked from
          subst hal
          obtain rfl := hgood.tree.inj hρ (D.mem_of_snoc hg.mem) hfa hl
          obtain rfl : t = t₀ := by simpa [hta] using ht₀
          rw [if_pos rfl] at hsa
          refine ⟨a, ρ, _, ha, hρν, hρ, hfa', hsa, fun j ↦ ?_⟩
          by_cases hji : j = i
          · subst hji
            rw [Function.update_self]
            exact Or.inr ⟨hπν, s₁.calls, b, hle, by omega, hb, rfl⟩
          · rw [Function.update_of_ne hji]
            exact hold j
        · rw [if_neg hal] at hsa
          exact ⟨a, ρ, t, ha, hρν, hρ, hfa', hsa.trans hta, hold⟩

end GrowAlong

/-! ## The tables that are missing -/

section Missing

variable {ν π : List Ix}

/-- The number of tables missing on the way to `ν`. -/
def missing (F : Format Loc W) (σ : Store Loc Ix W) (root : Loc) (ν : List Ix) : ℕ :=
  ((Finset.range (F.bottom + 1)).filter fun k ↦ (follow F σ 0 root (ν.take k)).isNone).card

omit [DecidableEq Loc] [DecidableEq Ix] in
/-- The root is never missing. -/
theorem missing_le (F : Format Loc W) (σ : Store Loc Ix W) (root : Loc) (ν : List Ix) :
    missing F σ root ν ≤ F.bottom := by
  have hsub : (Finset.range (F.bottom + 1)).filter
      (fun k ↦ (follow F σ 0 root (ν.take k)).isNone) ⊆ (Finset.range (F.bottom + 1)).erase 0 := by
    intro k hk
    rw [Finset.mem_filter] at hk
    refine Finset.mem_erase.mpr ⟨?_, hk.1⟩
    rintro rfl
    simp at hk
  apply (Finset.card_le_card hsub).trans
  rw [Finset.card_erase_of_mem (by simp), Finset.card_range]
  exact le_rfl

omit [DecidableEq Loc] [DecidableEq Ix] in
/-- Fewer are missing when a table below the root is there. -/
theorem missing_lt {k : ℕ} {l : Loc} (hk : 0 < k) (hb : k ≤ F.bottom)
    (hl : follow F s.store 0 root (ν.take k) = some l) : missing F s.store root ν < F.bottom := by
  have hsub : (Finset.range (F.bottom + 1)).filter
      (fun k ↦ (follow F s.store 0 root (ν.take k)).isNone) ⊆
        ((Finset.range (F.bottom + 1)).erase 0).erase k := by
    intro m hm
    rw [Finset.mem_filter] at hm
    refine Finset.mem_erase.mpr ⟨?_, Finset.mem_erase.mpr ⟨?_, hm.1⟩⟩
    · rintro rfl
      simp [hl] at hm
    · rintro rfl
      simp at hm
  have hmem : k ∈ (Finset.range (F.bottom + 1)).erase 0 :=
    Finset.mem_erase.mpr ⟨hk.ne', Finset.mem_range.mpr (Nat.lt_succ_of_le hb)⟩
  refine (Finset.card_le_card hsub).trans_lt ((Finset.card_erase_lt_of_mem hmem).trans_le ?_)
  rw [Finset.card_erase_of_mem (by simp), Finset.card_range]
  exact le_rfl

omit [DecidableEq Loc] [DecidableEq Ix] in
theorem missing_pos (hp : π <+: ν) (hb : π.length ≤ F.bottom)
    (hl : follow F s.store 0 root π = none) : 0 < missing F s.store root ν := by
  refine Finset.card_pos.mpr ⟨π.length, Finset.mem_filter.mpr ⟨?_, ?_⟩⟩
  · exact Finset.mem_range.mpr (Nat.lt_succ_of_le hb)
  · rw [← List.prefix_iff_eq_take.mp hp, hl]; rfl

omit [DecidableEq Loc] [DecidableEq Ix] in
/-- Nothing is missing on the way to a slot of a table at the bottom. -/
theorem missing_eq_zero {l : Loc} {i : Ix} (hb : π.length = F.bottom)
    (hl : follow F s.store 0 root π = some l) : missing F s.store root (π ++ [i]) = 0 := by
  rw [missing, Finset.card_eq_zero, Finset.filter_eq_empty_iff]
  intro k hk hnone
  have hk' : k ≤ π.length := hb ▸ Nat.lt_succ_iff.mp (Finset.mem_range.mp hk)
  rw [List.take_append_of_le_length hk', Option.isNone_iff_eq_none] at hnone
  have hsplit : follow F s.store 0 root (π.take k ++ π.drop k) = _ := follow_append 0 root _ _
  rw [List.take_append_drop, hl, hnone] at hsplit
  cases hsplit

/-- A growth step supplies one of the tables missing on the way. -/
theorem Grow.missing_eq (h : Grow F supply root D π s s') (hs : s.Good F supply root D)
    (hν : ν ∈ D) (hlen : F.bottom < ν.length) (hp : π <+: ν) :
    missing F s.store root ν = missing F s'.store root ν + 1 := by
  cases h with
  | @intro _ π i l a t hπ hb hl ht he ha =>
      have hfollow : ∀ {ρ}, ρ ∈ D → follow F (s.link F l i a).store 0 root ρ =
          if ρ = π ++ [i] then some a
          else if π ++ [i] <+: ρ then none else follow F s.store 0 root ρ :=
        fun hρ ↦ follow_attach hs.tree (D.mem_of_snoc hπ) hl
          (hs.tree.unreached (hs.sound.fresh le_rfl ha))
          (F.decode_link _ hb _ (hs.sound.linkable le_rfl ha)) hρ
      have hbefore : follow F s.store 0 root (π ++ [i]) = none := by
        rw [follow_snoc, hl]
        simp [ht, he, Slot.child?]
      have htake : ν.take (π ++ [i]).length = π ++ [i] := (List.prefix_iff_eq_take.mp hp).symm
      -- the prefix of that length, and no other, was missing before and is not after
      have hstep : ∀ k < F.bottom + 1, ((follow F (s.link F l i a).store 0 root (ν.take k)).isNone ↔
          k ≠ (π ++ [i]).length ∧ (follow F s.store 0 root (ν.take k)).isNone) := by
        intro k hk
        rw [hfollow (D.mem_of_isPrefix hν (List.take_prefix _ _))]
        by_cases hki : ν.take k = π ++ [i]
        · have hlenk : k = (π ++ [i]).length := by rw [← hki, List.length_take]; omega
          rw [if_pos hki]
          simp [hlenk]
        · have hne : k ≠ (π ++ [i]).length := fun hc ↦ hki (hc ▸ htake)
          rw [if_neg hki]
          by_cases hpk : π ++ [i] <+: ν.take k
          · obtain ⟨τ, hτ⟩ := id hpk
            have hnone : follow F s.store 0 root (ν.take k) = none := by
              rw [← hτ, follow_append, hbefore]; rfl
            rw [if_pos hpk, hnone]
            exact ⟨fun h ↦ ⟨hne, h⟩, fun h ↦ h.2⟩
          · rw [if_neg hpk]
            exact ⟨fun h ↦ ⟨hne, h⟩, fun h ↦ h.2⟩
      have hset : (Finset.range (F.bottom + 1)).filter
            (fun k ↦ (follow F (s.link F l i a).store 0 root (ν.take k)).isNone) =
          ((Finset.range (F.bottom + 1)).filter
            fun k ↦ (follow F s.store 0 root (ν.take k)).isNone).erase (π ++ [i]).length := by
        ext k
        simp only [Finset.mem_erase, Finset.mem_filter, Finset.mem_range]
        constructor
        · rintro ⟨hk, h⟩
          exact ⟨((hstep k hk).mp h).1, hk, ((hstep k hk).mp h).2⟩
        · rintro ⟨hne, hk, h⟩
          exact ⟨hk, (hstep k hk).mpr ⟨hne, h⟩⟩
      rw [missing, missing, hset, Finset.card_erase_add_one]
      refine Finset.mem_filter.mpr ⟨Finset.mem_range.mpr ?_, ?_⟩
      · simp only [List.length_append, List.length_singleton]; omega
      · rw [htake, hbefore]; rfl

theorem Fill.missing_eq {x : W} (h : Fill F root D x ν s s') : missing F s.store root ν = 0 := by
  cases h with
  | intro _ hb hl _ _ => exact missing_eq_zero hb hl

/-- Every request made brings the walk one table further. -/
theorem GrowAlong.missing_eq (h : GrowAlong F supply root D ν s s') (hs : s.Good F supply root D)
    (hν : ν ∈ D) (hlen : F.bottom < ν.length) :
    s.calls + missing F s.store root ν = s'.calls + missing F s'.store root ν := by
  induction h with
  | refl => rfl
  | tail hrun hstep ih =>
      obtain ⟨π, hp, hg⟩ := hstep
      rw [ih, hg.missing_eq (GrowAlong.good hrun hs) hν hlen hp, hg.calls_eq]
      omega

end Missing

/-! ## What holds of every link -/

/-- The links of the tree have the property `P`. -/
def Links (F : Format Loc W) (σ : Store Loc Ix W) (root : Loc) (D : Domain Ix) (P : W → Prop) :
    Prop :=
  ∀ ⦃τ i t c⦄, τ ++ [i] ∈ D → tableAt F σ root τ = some t → F.decode τ.length (t i) = .node c →
    P (t i)

section Links

variable {P : W → Prop} {π ν : List Ix}

omit [DecidableEq Loc] [DecidableEq Ix] in
/-- The words a lookup passes on its way are links. -/
theorem Links.of_lookup {σ : Store Loc Ix W} (h : Links F σ root D P) (hν : ν ∈ D) {ws : List W}
    {e : W} (hl : lookup F (tableAt F σ root) [] ν = some (ws, e)) : ∀ x ∈ ws, P x := by
  intro x hx
  obtain ⟨τ, i, t, c, ht, rfl, hp, hd⟩ := exists_of_mem_lookup hl hx
  exact h (D.mem_of_isPrefix hν (by simpa using hp)) (by simpa using ht) (by simpa using hd)

/-- The slots of a tree after it grew: what they held before, blank or a link to the table
obtained. -/
theorem Grow.slot_cases (h : Grow F supply root D π s s') (hs : s.Good F supply root D)
    {τ : List Ix} {j : Ix} {t' : Ix → W} (hτ : τ ∈ D) (ht' : s'.table F root τ = some t') :
    (∃ t, s.table F root τ = some t ∧ t' j = t j) ∨ t' j = F.blank ∨
      τ.length < F.bottom ∧ ∃ a, F.Linkable a ∧ t' j = F.link a := by
  cases h with
  | @intro _ π i l a t hπ hb hl ht he ha =>
      rw [State.table, State.store_link, tableAt_attach hs.tree (D.mem_of_snoc hπ) hl
        (hs.tree.unreached (hs.sound.fresh le_rfl ha))
        (F.decode_link _ hb _ (hs.sound.linkable le_rfl ha)) ht hτ] at ht'
      split_ifs at ht' with h₁ h₂ h₃
      · obtain rfl := Option.some.inj ht'
        by_cases hji : j = i
        · subst hji
          rw [Function.update_self]
          exact Or.inr (Or.inr ⟨h₁ ▸ hb, a, hs.sound.linkable le_rfl ha, rfl⟩)
        · rw [Function.update_of_ne hji]
          exact Or.inl ⟨t, h₁ ▸ (tableAt_of_follow hl).trans ht, rfl⟩
      · obtain rfl := Option.some.inj ht'
        exact Or.inr (Or.inl rfl)
      · exact Or.inl ⟨t', ht', rfl⟩

/-- The slots of a tree after one at the bottom was filled. -/
theorem Fill.slot_cases {x : W} (h : Fill F root D x π s s') (hs : s.Good F supply root D)
    {τ : List Ix} {j : Ix} {t' : Ix → W} (hτ : τ ∈ D) (ht' : s'.table F root τ = some t') :
    (∃ t, s.table F root τ = some t ∧ t' j = t j) ∨ τ.length = F.bottom ∧ t' j = x := by
  obtain ⟨π₀, i, t, -, hb, ht, -, htab⟩ := h.tableAt_eq hs.tree
  rw [htab τ hτ] at ht'
  split_ifs at ht' with h₁
  · obtain rfl := Option.some.inj ht'
    by_cases hji : j = i
    · exact Or.inr ⟨h₁ ▸ hb, hji ▸ Function.update_self _ _ _⟩
    · exact Or.inl ⟨t, h₁ ▸ ht, Function.update_of_ne hji _ _⟩
  · exact Or.inl ⟨t', ht', rfl⟩

theorem Grow.links (h : Grow F supply root D π s s') (hs : s.Good F supply root D)
    (hP : ∀ a, F.Linkable a → P (F.link a)) (hlinks : Links F s.store root D P) :
    Links F s'.store root D P := by
  intro τ j t' c hτ ht' hd
  rcases h.slot_cases (j := j) hs (D.mem_of_snoc hτ) ht' with
    ⟨t, ht, hj⟩ | hj | ⟨-, a, ha, hj⟩
  · rw [hj] at hd ⊢
    exact hlinks hτ ht hd
  · rw [hj, F.decode_blank] at hd
    cases hd
  · exact hj ▸ hP a ha

theorem Fill.links {x : W} (h : Fill F root D x π s s') (hs : s.Good F supply root D)
    (hlinks : Links F s.store root D P) : Links F s'.store root D P := by
  intro τ j t' c hτ ht' hd
  rcases h.slot_cases (j := j) hs (D.mem_of_snoc hτ) ht' with ⟨t, ht, hj⟩ | ⟨hb, -⟩
  · rw [hj] at hd ⊢
    exact hlinks hτ ht hd
  · exact absurd hd (F.decode_bottom _ hb.ge _ _)

theorem GrowAlong.links (h : GrowAlong F supply root D ν s s') (hs : s.Good F supply root D)
    (hP : ∀ a, F.Linkable a → P (F.link a)) (hlinks : Links F s.store root D P) :
    Links F s'.store root D P := by
  induction h with
  | refl => exact hlinks
  | tail hrun hstep ih =>
      obtain ⟨π, -, hg⟩ := hstep
      exact hg.links (GrowAlong.good hrun hs) hP ih

end Links

/-! ## What holds of every leaf -/

/-- The leaves of the tree have the property `P`, which may depend on their depth. -/
def Leaves (F : Format Loc W) (σ : Store Loc Ix W) (root : Loc) (D : Domain Ix)
    (P : ℕ → W → Prop) : Prop :=
  ∀ ⦃τ i t⦄, τ ++ [i] ∈ D → tableAt F σ root τ = some t → F.decode τ.length (t i) = .leaf →
    P τ.length (t i)

section Leaves

variable {P : ℕ → W → Prop} {π ν : List Ix}

omit [DecidableEq Loc] [DecidableEq Ix] in
/-- The word a lookup ends in is a leaf. -/
theorem Leaves.of_lookup {σ : Store Loc Ix W} (h : Leaves F σ root D P) (hν : ν ∈ D)
    {ws : List W} {x : W} (hl : lookup F (tableAt F σ root) [] ν = some (ws, x)) :
    P ws.length x := by
  obtain ⟨τ, i, t, ht, rfl, hp, hd, hlen⟩ := exists_of_lookup hl
  rw [hlen]
  exact h (D.mem_of_isPrefix hν (by simpa using hp)) (by simpa using ht) (by simpa using hd)

/-- Growing adds no leaf. -/
theorem Grow.leaves (h : Grow F supply root D π s s') (hs : s.Good F supply root D)
    (hleaves : Leaves F s.store root D P) : Leaves F s'.store root D P := by
  intro τ j t' hτ ht' hd
  rcases h.slot_cases (j := j) hs (D.mem_of_snoc hτ) ht' with
    ⟨t, ht, hj⟩ | hj | ⟨hb, a, ha, hj⟩
  · rw [hj] at hd ⊢
    exact hleaves hτ ht hd
  · rw [hj, F.decode_blank] at hd
    cases hd
  · rw [hj, F.decode_link _ hb a ha] at hd
    cases hd

theorem GrowAlong.leaves (h : GrowAlong F supply root D ν s s') (hs : s.Good F supply root D)
    (hleaves : Leaves F s.store root D P) : Leaves F s'.store root D P := by
  induction h with
  | refl => exact hleaves
  | tail hrun hstep ih =>
      obtain ⟨π, -, hg⟩ := hstep
      exact hg.leaves (GrowAlong.good hrun hs) ih

/-- Filling a slot adds the word stored, at the bottom. -/
theorem Fill.leaves {x : W} (h : Fill F root D x π s s') (hs : s.Good F supply root D)
    (hP : P F.bottom x) (hleaves : Leaves F s.store root D P) : Leaves F s'.store root D P := by
  intro τ j t' hτ ht' hd
  rcases h.slot_cases (j := j) hs (D.mem_of_snoc hτ) ht' with ⟨t, ht, hj⟩ | ⟨hb, hj⟩
  · rw [hj] at hd ⊢
    exact hleaves hτ ht hd
  · rw [hj, hb]
    exact hP

end Leaves

end Radix
