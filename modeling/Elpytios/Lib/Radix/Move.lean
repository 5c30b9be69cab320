import Elpytios.Lib.Radix.Growth

/-!
# Moving the root of a radix tree

The table at the root of a tree is moved to a location outside the tree.  Slots outside
the part of the tree that is looked at may be changed on the way.  Everything below the
root stays where it is, and lookups give the same answers.
-/

universe u v w

namespace Radix

variable {Loc : Type u} {Ix : Type v} {W : Type w} {F : Format Loc W} {D : Domain Ix}

/-- The store `σ'` is `σ` with the table at `root` moved to `root'`. -/
structure Moved (D : Domain Ix) (σ σ' : Store Loc Ix W) (root root' : Loc) : Prop where
  table : ∃ t t', σ root = some t ∧ σ' root' = some t' ∧ ∀ i, [i] ∈ D → t' i = t i
  other : ∀ l, l ≠ root → l ≠ root' → σ' l = σ l

variable {σ σ' : Store Loc Ix W} {root root' : Loc}

section

variable (hmove : Moved D σ σ' root root') (h : IsTree F σ root D)
  (hnew : Unreached F σ root D root')

include hmove h hnew

/-- Below the root, paths lead where they did. -/
theorem follow_move {ρ : List Ix} (hρ : ρ ∈ D) (hne : ρ ≠ []) :
    follow F σ' 0 root' ρ = follow F σ 0 root ρ := by
  induction ρ using List.reverseRecOn with
  | nil => exact absurd rfl hne
  | append_singleton ρ j ih =>
      have hρ' := D.mem_of_snoc hρ
      rw [follow_snoc, follow_snoc]
      cases ρ with
      | nil =>
          obtain ⟨t, t', ht, ht', hslots⟩ := hmove.table
          simp [ht, ht', hslots j hρ]
      | cons i ρ =>
          rw [ih hρ' (by simp)]
          cases hl : follow F σ 0 root (i :: ρ) with
          | none => rfl
          | some l =>
              have hroot : l ≠ root := by
                rintro rfl
                exact absurd (h.inj hρ' D.nil_mem hl (follow_nil 0 l)) (by simp)
              simp [hmove.other l hroot (hnew hρ' hl)]

theorem IsTree.move : IsTree F σ' root' D := by
  have hkey : ∀ {ρ l}, ρ ∈ D → follow F σ' 0 root' ρ = some l →
      ρ = [] ∧ l = root' ∨ ρ ≠ [] ∧ follow F σ 0 root ρ = some l := by
    intro ρ l hρ hl
    by_cases hne : ρ = []
    · subst hne
      exact Or.inl ⟨rfl, (Option.some.inj hl).symm⟩
    · exact Or.inr ⟨hne, follow_move hmove h hnew hρ hne ▸ hl⟩
  constructor
  · intro π ρ l hπ hρ h₁ h₂
    rcases hkey hπ h₁ with ⟨rfl, hl⟩ | ⟨-, h₁⟩ <;> rcases hkey hρ h₂ with ⟨rfl, hl'⟩ | ⟨-, h₂⟩
    · rfl
    · exact absurd hl (hnew hρ h₂)
    · exact absurd hl' (hnew hπ h₁)
    · exact h.inj hπ hρ h₁ h₂
  · intro π l hπ hl
    rcases hkey hπ hl with ⟨-, rfl⟩ | ⟨hne, hl⟩
    · obtain ⟨t, t', -, ht', -⟩ := hmove.table
      simp [ht']
    · have hroot : l ≠ root := by
        rintro rfl
        exact hne (h.inj hπ D.nil_mem hl (follow_nil 0 l))
      rw [hmove.other l hroot (hnew hπ hl)]
      exact h.total hπ hl

theorem tableAt_move {ρ : List Ix} (hρ : ρ ∈ D) (hne : ρ ≠ []) :
    tableAt F σ' root' ρ = tableAt F σ root ρ := by
  rw [tableAt, tableAt, follow_move hmove h hnew hρ hne]
  cases hl : follow F σ 0 root ρ with
  | none => rfl
  | some l =>
      have hroot : l ≠ root := by
        rintro rfl
        exact hne (h.inj hρ D.nil_mem hl (follow_nil 0 l))
      exact hmove.other l hroot (hnew hρ hl)

/-- Moving the root is invisible to lookups. -/
theorem lookup_move {ν : List Ix} (hν : ν ∈ D) :
    lookup F (tableAt F σ' root') [] ν = lookup F (tableAt F σ root) [] ν := by
  cases ν with
  | nil => rfl
  | cons i ν =>
      obtain ⟨t, t', ht, ht', hslots⟩ := hmove.table
      have hi : [i] ∈ D := D.mem_of_isPrefix hν (by simp)
      have hbelow : lookup F (tableAt F σ' root') [i] ν = lookup F (tableAt F σ root) [i] ν :=
        lookup_congr fun τ hτ ↦
          tableAt_move hmove h hnew (D.mem_of_isPrefix hν (by simpa using hτ)) (by simp)
      simp only [lookup, tableAt_nil, ht, ht', Option.bind_some, hslots i hi, List.nil_append,
        hbelow]

/-- The slots of a tree hold the same after its root was moved. -/
theorem slot_move {τ : List Ix} {i : Ix} {t' : Ix → W} (hτ : τ ++ [i] ∈ D)
    (ht' : tableAt F σ' root' τ = some t') : ∃ t, tableAt F σ root τ = some t ∧ t' i = t i := by
  cases τ with
  | nil =>
      obtain ⟨t, t₁, ht, ht₁, hslots⟩ := hmove.table
      obtain rfl := Option.some.inj (ht₁.symm.trans ht')
      exact ⟨t, ht, hslots i hτ⟩
  | cons j τ =>
      rw [tableAt_move hmove h hnew (D.mem_of_snoc hτ) (by simp)] at ht'
      exact ⟨t', ht', rfl⟩

/-- The links of a tree are the same after its root was moved. -/
theorem Links.move {P : W → Prop} (hlinks : Links F σ root D P) : Links F σ' root' D P := by
  intro τ i t' c hτ ht' hd
  obtain ⟨t, ht, hi⟩ := slot_move hmove h hnew hτ ht'
  rw [hi] at hd ⊢
  exact hlinks hτ ht hd

/-- The leaves of a tree are the same after its root was moved. -/
theorem Leaves.move {P : ℕ → W → Prop} (hleaves : Leaves F σ root D P) :
    Leaves F σ' root' D P := by
  intro τ i t' hτ ht' hd
  obtain ⟨t, ht, hi⟩ := slot_move hmove h hnew hτ ht'
  rw [hi] at hd ⊢
  exact hleaves hτ ht hd

end

end Radix
