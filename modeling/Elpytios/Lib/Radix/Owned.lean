import Elpytios.Lib.Radix.Insert
import Elpytios.Lib.Radix.Move

/-!
# Every table has an owner

A tree that began as a bare root and grew by insertions owns all its tables
(`State.Owned`): the store holds the root and tables the supply handed out, each of
these is in the tree, and leaves are at the bottom only.  In such a tree every table
that was handed out is linked from one slot and from no other
(`State.Owned.existsUnique_linkedFrom`).

A refused request leaves nothing behind, so that insertions which fail keep the
invariant as well (`Inserted.owned`).
-/

universe u v w

namespace Radix

variable {Loc : Type u} {Ix : Type v} {W : Type w} {F : Format Loc W} {supply : Supply Loc}
  {root : Loc} {D : Domain Ix}

/-- The tables of the store are those of the tree. -/
structure State.Owned (F : Format Loc W) (supply : Supply Loc) (root : Loc) (D : Domain Ix)
    (s : State Loc Ix W) : Prop where
  /-- Apart from the root, the store holds tables that were handed out. -/
  held : ∀ {l t}, s.store l = some t → l = root ∨ ∃ n < s.calls, supply n = some l
  /-- What was handed out is in the tree. -/
  reached : ∀ {n l}, n < s.calls → supply n = some l →
    ∃ π ∈ D, follow F s.store 0 root π = some l
  /-- There is no leaf above the bottom. -/
  leaves : Leaves F s.store root D fun n _ ↦ n = F.bottom

/-- Slot `i` of the table at `l` links to `a`. -/
def LinkedFrom (F : Format Loc W) (σ : Store Loc Ix W) (root : Loc) (D : Domain Ix) (l : Loc)
    (i : Ix) (a : Loc) : Prop :=
  ∃ π t, π ++ [i] ∈ D ∧ follow F σ 0 root π = some l ∧ σ l = some t ∧
    F.decode π.length (t i) = .node a

/-- In a tree a table is linked from one slot at most. -/
theorem IsTree.linkedFrom_inj {σ : Store Loc Ix W} (h : IsTree F σ root D) {l l' a : Loc}
    {i i' : Ix} (h₁ : LinkedFrom F σ root D l i a) (h₂ : LinkedFrom F σ root D l' i' a) :
    l = l' ∧ i = i' := by
  obtain ⟨π, t, hπ, hl, ht, hd⟩ := h₁
  obtain ⟨π', t', hπ', hl', ht', hd'⟩ := h₂
  have hpath := h.inj hπ hπ' (follow_snoc_eq_some.mpr ⟨l, t, hl, ht, hd⟩)
    (follow_snoc_eq_some.mpr ⟨l', t', hl', ht', hd'⟩)
  obtain ⟨rfl, hi⟩ := List.append_inj' hpath rfl
  exact ⟨Option.some.inj (hl.symm.trans hl'), List.singleton_inj.mp hi⟩

namespace State.Owned

variable {s s' : State Loc Ix W}

/-- Every table handed out is linked from exactly one slot. -/
theorem existsUnique_linkedFrom (ho : s.Owned F supply root D) (hs : IsTree F s.store root D)
    {n : ℕ} {a : Loc} (hn : n < s.calls) (ha : supply n = some a) (hroot : a ≠ root) :
    ∃! q : Loc × Ix, LinkedFrom F s.store root D q.1 q.2 a := by
  obtain ⟨π, hπ, hl⟩ := ho.reached hn ha
  rcases List.eq_nil_or_concat' π with rfl | ⟨π, i, rfl⟩
  · exact absurd (Option.some.inj hl).symm hroot
  · obtain ⟨l, t, hl, ht, hd⟩ := follow_snoc_eq_some.mp hl
    have hlink : LinkedFrom F s.store root D l i a := ⟨π, t, hπ, hl, ht, hd⟩
    refine ⟨(l, i), hlink, fun q hq ↦ ?_⟩
    obtain ⟨h₁, h₂⟩ := hs.linkedFrom_inj hq hlink
    exact Prod.ext h₁ h₂

/-- What a slot above the bottom links to was handed out. -/
theorem exists_of_follow_snoc (ho : s.Owned F supply root D) (hs : IsTree F s.store root D)
    {π : List Ix} {i : Ix} {a : Loc} (hπ : π ++ [i] ∈ D)
    (hl : follow F s.store 0 root (π ++ [i]) = some a) : ∃ n < s.calls, supply n = some a := by
  obtain ⟨t, ht⟩ := hs.exists_table hπ hl
  rcases ho.held ht with rfl | h
  · exact absurd (hs.inj hπ D.nil_mem hl (follow_nil 0 a)) (by simp)
  · exact h

theorem noLeaf (ho : s.Owned F supply root D) {π : List Ix} {i : Ix} {l : Loc} {t : Ix → W}
    (hπ : π ++ [i] ∈ D) (hlt : π.length < F.bottom) (hl : follow F s.store 0 root π = some l)
    (ht : s.store l = some t) : F.decode π.length (t i) ≠ .leaf := fun hd ↦
  hlt.ne (ho.leaves hπ ((tableAt_of_follow hl).trans ht) hd)

/-- A refused request leaves nothing behind. -/
theorem refuse (ho : s.Owned F supply root D) (hnone : supply s.calls = none) :
    s.refuse.Owned F supply root D where
  held ht := (ho.held ht).imp_right fun ⟨n, hn, ha⟩ ↦ ⟨n, Nat.lt_succ_of_lt hn, ha⟩
  reached {n l} hn ha := by
    rcases Nat.lt_succ_iff_lt_or_eq.mp hn with hn | rfl
    · exact ho.reached hn ha
    · cases hnone.symm.trans ha
  leaves := ho.leaves

/-- Moving the root to the table handed out next keeps the invariant. -/
theorem move (ho : s.Owned F supply root D) (hs : IsTree F s.store root D) {root' : Loc}
    (hmove : Moved D s.store s'.store root root') (hnew : Unreached F s.store root D root')
    (hcalls : s'.calls = s.calls + 1) (ha : supply s.calls = some root')
    (hgone : s'.store root = none) (hroot : ∀ n < s.calls, supply n ≠ some root) :
    s'.Owned F supply root' D where
  held {l t'} ht' := by
    by_cases hl : l = root'
    · exact Or.inl hl
    · have hne : l ≠ root := by
        rintro rfl
        cases hgone.symm.trans ht'
      rw [hmove.other l hne hl] at ht'
      obtain ⟨n, hn, hnl⟩ := (ho.held ht').resolve_left hne
      exact Or.inr ⟨n, hcalls ▸ Nat.lt_succ_of_lt hn, hnl⟩
  reached {n l} hn hl := by
    rw [hcalls] at hn
    rcases Nat.lt_succ_iff_lt_or_eq.mp hn with hn | rfl
    · obtain ⟨π, hπ, hfollow⟩ := ho.reached hn hl
      have hne : π ≠ [] := by
        rintro rfl
        exact hroot n hn (hl.trans hfollow.symm)
      exact ⟨π, hπ, (follow_move hmove hs hnew hπ hne).trans hfollow⟩
    · exact ⟨[], D.nil_mem, ha.symm.trans hl⟩
  leaves := ho.leaves.move hmove hs hnew

variable [DecidableEq Loc] [DecidableEq Ix]

theorem grow (ho : s.Owned F supply root D) (hs : s.Good F supply root D) {π : List Ix}
    (h : Grow F supply root D π s s') : s'.Owned F supply root D where
  held {m t'} ht' := by
    obtain ⟨-, i, l, a, t, -, -, ht, -, ha, hstore⟩ := h.store_eq
    rw [h.calls_eq]
    by_cases hma : m = a
    · exact Or.inr ⟨s.calls, Nat.lt_succ_self _, hma ▸ ha⟩
    · rw [hstore m hma] at ht'
      have hold : ∃ t, s.store m = some t := by
        split_ifs at ht' with hml
        · exact ⟨t, hml ▸ ht⟩
        · exact ⟨t', ht'⟩
      obtain ⟨t, ht⟩ := hold
      exact (ho.held ht).imp_right fun ⟨n, hn, hn'⟩ ↦ ⟨n, Nat.lt_succ_of_lt hn, hn'⟩
  reached {n b} hn hb := by
    rw [h.calls_eq] at hn
    rcases Nat.lt_succ_iff_lt_or_eq.mp hn with hn | rfl
    · obtain ⟨ρ, hρ, hl⟩ := ho.reached hn hb
      exact ⟨ρ, hρ, (h.extends hs.sound hs.tree).follow_eq hρ hl⟩
    · obtain ⟨a, ha, hl, -⟩ := h.follow_self hs.sound hs.tree
      obtain rfl := Option.some.inj (ha.symm.trans hb)
      exact ⟨π, h.mem, hl⟩
  leaves := h.leaves hs ho.leaves

theorem growAlong (ho : s.Owned F supply root D) (hs : s.Good F supply root D) {ν : List Ix}
    (h : GrowAlong F supply root D ν s s') : s'.Owned F supply root D := by
  induction h with
  | refl => exact ho
  | tail hrun hstep ih =>
      obtain ⟨π, -, hg⟩ := hstep
      exact ih.grow (GrowAlong.good hrun hs) hg

theorem fill (ho : s.Owned F supply root D) (hs : s.Good F supply root D) {π : List Ix} {x : W}
    (h : Fill F root D x π s s') : s'.Owned F supply root D where
  held {m t'} ht' := by
    have hsome : (s.store m).isSome := by
      cases h
      rw [State.store_fill] at ht'
      rw [← Store.isSome_write, ht']
      rfl
    obtain ⟨t, ht⟩ := Option.isSome_iff_exists.mp hsome
    rw [h.calls_eq]
    exact ho.held ht
  reached {n b} hn hb := by
    rw [h.calls_eq] at hn
    obtain ⟨ρ, hρ, hl⟩ := ho.reached hn hb
    exact ⟨ρ, hρ, (h.extends hs.tree).follow_eq hρ hl⟩
  leaves := h.leaves hs rfl ho.leaves

/-- An insertion keeps the invariant, whatever its outcome. -/
theorem inserted (ho : s.Owned F supply root D) (hs : s.Good F supply root D) {x : W}
    {ν : List Ix} {r : Except (Refusal W) Unit} (h : Inserted F supply root D x ν s r s') :
    s'.Owned F supply root D := by
  cases h with
  | occupied => exact ho
  | noTable _ hg _ hr => exact (ho.growAlong hs hg).refuse hr
  | ok _ hg hf => exact (ho.growAlong hs hg).fill (GrowAlong.good hg hs) hf

end State.Owned

end Radix
