import Elpytios.Lib.Radix.Write

/-!
# Using a free slot

A slot is used by linking a new table from it or by storing a word in it.  Either way
the tree is extended at the path of the slot (`Extends`): whatever was there is still
there, and nothing shows it but what goes through the slot.

Two uses of different slots do not get in each other's way, in whatever order they
happen, since each is invisible at the other's slot: a change `Spares` the way to a path
that does not pass what was changed.
-/

universe u v w

namespace Radix

variable {Loc : Type u} {Ix : Type v} {W : Type w}

/-- Slot `i` of the table at `l`, the one at path `π`, is free. -/
structure FreeSlot (F : Format Loc W) (σ : Store Loc Ix W) (root : Loc) (D : Domain Ix)
    (π : List Ix) (i : Ix) (l : Loc) : Prop where
  mem : π ++ [i] ∈ D
  follow : follow F σ 0 root π = some l
  free : ∃ t, σ l = some t ∧ F.decode π.length (t i) = .empty

/-- `σ'` extends `σ` at the slot of path `π`, which was free. -/
structure Extends (F : Format Loc W) (root : Loc) (D : Domain Ix) (π : List Ix)
    (σ σ' : Store Loc Ix W) : Prop where
  /-- Paths lead where they did. -/
  follow_eq : ∀ {ρ l}, ρ ∈ D → follow F σ 0 root ρ = some l → follow F σ' 0 root ρ = some l
  /-- The tables there hold what they did in every other slot. -/
  slot_eq : ∀ {ρ l t j}, ρ ∈ D → follow F σ 0 root ρ = some l → σ l = some t → ρ ++ [j] ≠ π →
    ∃ t', σ' l = some t' ∧ t' j = t j
  /-- There are no new tables but below the slot. -/
  table_eq : ∀ {ρ t'}, ρ ∈ D → ¬ π <+: ρ → tableAt F σ' root ρ = some t' →
    ∃ t, tableAt F σ root ρ = some t ∧ ∀ j, ρ ++ [j] ≠ π → t' j = t j
  /-- Lookups that do not go through the slot answer as they did. -/
  lookup_eq : ∀ {μ}, μ ∈ D → ¬ π <+: μ →
    lookup F (tableAt F σ' root) [] μ = lookup F (tableAt F σ root) [] μ
  /-- Lookups through the slot found nothing. -/
  lookup_free : ∀ {μ}, π <+: μ → lookup F (tableAt F σ root) [] μ = none

/-- `σ'` keeps all paths of `σ`, and every slot on the way to `ν` as it is. -/
structure Spares (F : Format Loc W) (root : Loc) (D : Domain Ix) (ν : List Ix)
    (σ σ' : Store Loc Ix W) : Prop where
  /-- Paths lead where they did. -/
  follow_eq : ∀ {ρ l}, ρ ∈ D → follow F σ 0 root ρ = some l → follow F σ' 0 root ρ = some l
  /-- The tables on the way hold what they did in the slots on the way. -/
  slot_eq : ∀ {ρ l t j}, ρ ++ [j] ∈ D → ρ ++ [j] <+: ν → follow F σ 0 root ρ = some l →
    σ l = some t → ∃ t', σ' l = some t' ∧ t' j = t j

variable {F : Format Loc W} {σ σ' : Store Loc Ix W} {root : Loc} {D : Domain Ix}

theorem Spares.refl (ν : List Ix) : Spares F root D ν σ σ :=
  ⟨fun _ hl ↦ hl, fun _ _ _ ht ↦ ⟨_, ht, rfl⟩⟩

theorem Spares.freeSlot {π ν : List Ix} {i : Ix} {l : Loc} (h : Spares F root D ν σ σ')
    (hslot : FreeSlot F σ root D π i l) (hp : π ++ [i] <+: ν) : FreeSlot F σ' root D π i l := by
  obtain ⟨t, ht, he⟩ := hslot.free
  obtain ⟨t', ht', hi⟩ := h.slot_eq hslot.mem hp hslot.follow ht
  exact ⟨hslot.mem, h.follow_eq (D.mem_of_snoc hslot.mem) hslot.follow, t', ht', by rwa [hi]⟩

/-- The use of a slot spares the paths that do not pass it. -/
theorem Extends.spares {π ν : List Ix} (h : Extends F root D π σ σ') (hn : ¬ π <+: ν) :
    Spares F root D ν σ σ' :=
  ⟨h.follow_eq, fun hρ hp hl ht ↦ h.slot_eq (D.mem_of_snoc hρ) hl ht fun hc ↦ hn (hc ▸ hp)⟩

theorem Spares.put [DecidableEq Loc] {a : Loc} (ha : Unreached F σ root D a) (t : Ix → W)
    (ν : List Ix) : Spares F root D ν σ (σ.put a t) :=
  ⟨fun hρ hl ↦ (follow_put ha t hρ).trans hl, fun hρ _ hl ht ↦
    ⟨_, (Store.put_of_ne (ha (D.mem_of_snoc hρ) hl)).trans ht, rfl⟩⟩

section

variable {π : List Ix} {i : Ix} {l : Loc} (hslot : FreeSlot F σ root D π i l)

include hslot

theorem FreeSlot.lookup_eq_none {μ : List Ix} (hp : π ++ [i] <+: μ) :
    lookup F (tableAt F σ root) [] μ = none := by
  obtain ⟨t, ht, he⟩ := hslot.free
  exact lookup_eq_none_of_free hslot.follow ht he hp

/-- No path goes through a free slot. -/
theorem FreeSlot.follow_eq_none {ρ : List Ix} (hp : π ++ [i] <+: ρ) :
    Radix.follow F σ 0 root ρ = none := by
  obtain ⟨t, ht, he⟩ := hslot.free
  obtain ⟨τ, rfl⟩ := hp
  rw [follow_append, follow_snoc, hslot.follow]
  simp [ht, he, Slot.child?]

theorem FreeSlot.not_isPrefix {ρ : List Ix} {m : Loc}
    (hm : Radix.follow F σ 0 root ρ = some m) : ¬ π ++ [i] <+: ρ := by
  intro hp
  rw [hslot.follow_eq_none hp] at hm
  cases hm

variable [DecidableEq Loc] [DecidableEq Ix]

/-- Linking a new table from a free slot. -/
theorem Extends.attach (h : IsTree F σ root D) {a : Loc} (ha : Unreached F σ root D a)
    (hlink : F.decode π.length (F.link a) = .node a) :
    Extends F root D (π ++ [i]) σ (σ.attach F l i a) := by
  obtain ⟨t, ht, -⟩ := hslot.free
  have hπ := D.mem_of_snoc hslot.mem
  constructor
  · intro ρ m hρ hm
    rw [follow_attach_of_not_isPrefix h hπ hslot.follow ha hρ (hslot.not_isPrefix hm), hm]
  · intro ρ m t₁ j hρ hm ht₁ hne
    by_cases hml : m = l
    · subst hml
      obtain rfl := h.inj hρ hπ hm hslot.follow
      have hji : j ≠ i := fun hc ↦ hne (by rw [hc])
      exact ⟨_, Store.write_self ((Store.put_of_ne (ha hρ hm)).trans ht₁),
        Function.update_of_ne hji _ _⟩
    · exact ⟨t₁, (Store.write_of_ne hml).trans ((Store.put_of_ne (ha hρ hm)).trans ht₁), rfl⟩
  · intro ρ t' hρ hn ht'
    have hρi : ρ ≠ π ++ [i] := fun hc ↦ hn (hc ▸ List.prefix_rfl)
    rw [tableAt_attach h hπ hslot.follow ha hlink ht hρ, if_neg hρi, if_neg hn] at ht'
    split_ifs at ht' with hρπ
    · subst hρπ
      obtain rfl := Option.some.inj ht'
      refine ⟨t, (tableAt_of_follow hslot.follow).trans ht, fun j hj ↦ ?_⟩
      exact Function.update_of_ne (fun hc ↦ hj (by rw [hc])) _ _
    · exact ⟨t', ht', fun _ _ ↦ rfl⟩
  · intro μ hμ hn
    exact lookup_attach_of_not_isPrefix h hπ hslot.follow ha hlink (show [] ++ μ ∈ D from hμ) hn
  · exact hslot.lookup_eq_none

/-- Storing a word in a free slot of a bottom table. -/
theorem Extends.write (h : IsTree F σ root D) (hb : π.length = F.bottom) (x : W) :
    Extends F root D (π ++ [i]) σ (σ.write l i x) := by
  obtain ⟨t, ht, -⟩ := hslot.free
  have hπ := D.mem_of_snoc hslot.mem
  have htable := fun {ρ : List Ix} (hρ : ρ ∈ D) ↦ tableAt_write (i := i) h hπ hslot.follow ht
    (F.decode_bottom _ hb.ge x) (F.decode_bottom _ hb.ge _) hρ
  constructor
  · intro ρ m hρ hm
    rw [follow_write_of_not_isPrefix h hπ hslot.follow hρ (hslot.not_isPrefix hm), hm]
  · intro ρ m t₁ j hρ hm ht₁ hne
    by_cases hml : m = l
    · subst hml
      obtain rfl := h.inj hρ hπ hm hslot.follow
      have hji : j ≠ i := fun hc ↦ hne (by rw [hc])
      exact ⟨_, Store.write_self ht₁, Function.update_of_ne hji _ _⟩
    · exact ⟨t₁, (Store.write_of_ne hml).trans ht₁, rfl⟩
  · intro ρ t' hρ _ ht'
    rw [htable hρ] at ht'
    split_ifs at ht' with hρπ
    · subst hρπ
      obtain rfl := Option.some.inj ht'
      refine ⟨t, (tableAt_of_follow hslot.follow).trans ht, fun j hj ↦ ?_⟩
      exact Function.update_of_ne (fun hc ↦ hj (by rw [hc])) _ _
    · exact ⟨t', ht', fun _ _ ↦ rfl⟩
  · intro μ hμ hn
    exact lookup_write_of_not_isPrefix h hπ hslot.follow ht (F.decode_bottom _ hb.ge x)
      (F.decode_bottom _ hb.ge _) (show [] ++ μ ∈ D from hμ) hn
  · exact hslot.lookup_eq_none

end

end Radix
