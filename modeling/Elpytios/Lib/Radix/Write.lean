import Elpytios.Lib.Radix.Basic

/-!
# Writing to a heap of tables

Three operations change a store: `put` adds a table at a new location, `write`
changes one slot of one table, and `attach` does both, linking a new blank table
below a slot.  Each is described by what it does to `follow` and to `tableAt`, and
keeps the ownership invariant.

The slot written is named by the path `π` of its table and its index `i`.  Paths
that do not pass it, those without the prefix `π ++ [i]`, see no change; this is
where ownership is needed, since a table shared by two paths would show the
write on both.
-/

universe u v w

namespace Radix

variable {Loc : Type u} {Ix : Type v} {W : Type w}

/-- No path of the tree leads to a location. -/
def Unreached (F : Format Loc W) (σ : Store Loc Ix W) (root : Loc) (D : Domain Ix) (a : Loc) :
    Prop := ∀ ⦃ρ l⦄, ρ ∈ D → follow F σ 0 root ρ = some l → l ≠ a

/-- A location that holds no table is not in the tree. -/
theorem IsTree.unreached {F : Format Loc W} {σ : Store Loc Ix W} {root : Loc} {D : Domain Ix}
    (h : IsTree F σ root D) {a : Loc} (ha : σ a = none) : Unreached F σ root D a := by
  rintro ρ l hρ hl rfl
  obtain ⟨t, ht⟩ := h.exists_table hρ hl
  simp [ha] at ht

namespace Store

variable [DecidableEq Loc] {σ : Store Loc Ix W} {l m a : Loc} {i : Ix} {x : W} {t : Ix → W}

/-- Place a table at a location. -/
def put (σ : Store Loc Ix W) (a : Loc) (t : Ix → W) : Store Loc Ix W := fun m ↦
  if m = a then some t else σ m

@[simp] theorem put_self : σ.put a t a = some t := if_pos rfl

theorem put_of_ne (h : m ≠ a) : σ.put a t m = σ m := if_neg h

theorem put_eq_self (h : σ a = some t) : σ.put a t = σ := by
  funext m
  by_cases hm : m = a
  · rw [hm, put_self, h]
  · exact put_of_ne hm

variable [DecidableEq Ix]

/-- Change one slot of the table at a location. -/
def write (σ : Store Loc Ix W) (l : Loc) (i : Ix) (x : W) : Store Loc Ix W := fun m ↦
  if m = l then (σ m).map fun t ↦ Function.update t i x else σ m

/-- Place a blank table at `a` and link it from slot `i` of the table at `l`. -/
def attach (F : Format Loc W) (σ : Store Loc Ix W) (l : Loc) (i : Ix) (a : Loc) :
    Store Loc Ix W := (σ.put a fun _ ↦ F.blank).write l i (F.link a)

theorem write_of_ne (h : m ≠ l) : σ.write l i x m = σ m := if_neg h

theorem write_self (h : σ l = some t) : σ.write l i x l = some (Function.update t i x) := by
  simp [write, h]

/-- A table that is there and blank only needs to be linked. -/
theorem attach_eq_write {F : Format Loc W} (h : σ a = some fun _ ↦ F.blank) :
    σ.attach F l i a = σ.write l i (F.link a) := by
  rw [attach, put_eq_self h]

@[simp] theorem isSome_write : (σ.write l i x m).isSome = (σ m).isSome := by
  by_cases h : m = l <;> simp [write, h]

end Store

theorem not_snoc_prefix_self (π : List Ix) (i : Ix) : ¬ π ++ [i] <+: π := fun h ↦ by
  have := h.length_le
  simp only [List.length_append, List.length_singleton] at this
  omega

variable [DecidableEq Loc] {F : Format Loc W} {σ : Store Loc Ix W} {root : Loc} {D : Domain Ix}

/-! ## Adding a table nothing links to -/

theorem follow_put {a : Loc} (ha : Unreached F σ root D a) (t : Ix → W)
    {ρ : List Ix} (hρ : ρ ∈ D) : follow F (σ.put a t) 0 root ρ = follow F σ 0 root ρ := by
  induction ρ using List.reverseRecOn with
  | nil => rfl
  | append_singleton ρ j ih =>
      have hρ' := D.mem_of_snoc hρ
      rw [follow_snoc, follow_snoc, ih hρ']
      cases hl : follow F σ 0 root ρ with
      | none => rfl
      | some l => simp [Store.put_of_ne (ha hρ' hl)]

theorem IsTree.put (h : IsTree F σ root D) {a : Loc} (ha : Unreached F σ root D a)
    (t : Ix → W) :
    IsTree F (σ.put a t) root D where
  inj hπ hρ h₁ h₂ := by
    rw [follow_put ha t hπ] at h₁
    rw [follow_put ha t hρ] at h₂
    exact h.inj hπ hρ h₁ h₂
  total hπ hl := by
    rw [follow_put ha t hπ] at hl
    rw [Store.put_of_ne (ha hπ hl)]
    exact h.total hπ hl

theorem Unreached.put {a b : Loc} (hb : Unreached F σ root D b) (ha : Unreached F σ root D a)
    (t : Ix → W) : Unreached F (σ.put a t) root D b := fun _ _ hρ hl ↦
  hb hρ ((follow_put ha t hρ).symm.trans hl)

/-! ## Writing a slot -/

variable [DecidableEq Ix]

section Write

variable (h : IsTree F σ root D) {π : List Ix} {l : Loc} {i : Ix} {x : W}
  (hπ : π ∈ D) (hl : follow F σ 0 root π = some l)

include h hπ hl

/-- A path that does not pass the slot written is followed as before. -/
theorem follow_write_of_not_isPrefix {ρ : List Ix} (hρ : ρ ∈ D) (hn : ¬ π ++ [i] <+: ρ) :
    follow F (σ.write l i x) 0 root ρ = follow F σ 0 root ρ := by
  induction ρ using List.reverseRecOn with
  | nil => rfl
  | append_singleton ρ j ih =>
      have hρ' := D.mem_of_snoc hρ
      rw [List.prefix_concat_iff, not_or] at hn
      rw [follow_snoc, follow_snoc, ih hρ' hn.2]
      cases hm : follow F σ 0 root ρ with
      | none => rfl
      | some m =>
          by_cases hml : m = l
          · subst hml
            obtain rfl := h.inj hρ' hπ hm hl
            have hji : j ≠ i := fun hc ↦ hn.1 (by rw [hc])
            obtain ⟨t, ht⟩ := h.exists_table hρ' hm
            simp [Store.write_self ht, ht, Function.update_of_ne hji]
          · simp [Store.write_of_ne hml]

/-- The slot itself is followed as the word written says. -/
theorem follow_write_snoc (hπi : ¬ π ++ [i] <+: π) :
    follow F (σ.write l i x) 0 root (π ++ [i]) = (F.decode π.length x).child? := by
  obtain ⟨t, ht⟩ := h.exists_table hπ hl
  rw [follow_snoc, follow_write_of_not_isPrefix h hπ hl hπ hπi, hl]
  simp [Store.write_self ht]

end Write

/-- The table at a path after a word that is no link was written: only the table
holding the slot differs. -/
theorem tableAt_write (h : IsTree F σ root D) {π ρ : List Ix} {l : Loc} {i : Ix} {x : W}
    {t : Ix → W} (hπ : π ∈ D) (hl : follow F σ 0 root π = some l) (ht : σ l = some t)
    (hx : ∀ c, F.decode π.length x ≠ .node c) (hold : ∀ c, F.decode π.length (t i) ≠ .node c)
    (hρ : ρ ∈ D) :
    tableAt F (σ.write l i x) root ρ =
      if ρ = π then some (Function.update t i x) else tableAt F σ root ρ := by
  have hnone : ∀ {y : W}, (∀ c, F.decode π.length y ≠ .node c) →
      (F.decode π.length y).child? = none := by
    intro y hy
    cases hd : F.decode π.length y with
    | node c => exact absurd hd (hy c)
    | empty => rfl
    | leaf => rfl
  by_cases hp : π ++ [i] <+: ρ
  · -- below the slot there is no table, before or after
    have hne : ρ ≠ π := fun hc ↦ not_snoc_prefix_self π i (hc ▸ hp)
    have hafter : follow F (σ.write l i x) 0 root (π ++ [i]) = none := by
      rw [follow_write_snoc h hπ hl (not_snoc_prefix_self π i), hnone hx]
    have hbefore : follow F σ 0 root (π ++ [i]) = none := by
      rw [follow_snoc, hl]
      simp [ht, hnone hold]
    rw [if_neg hne, tableAt_eq_none_of_isPrefix hafter hp, tableAt_eq_none_of_isPrefix hbefore hp]
  · rw [tableAt, tableAt, follow_write_of_not_isPrefix h hπ hl hρ hp]
    by_cases hρπ : ρ = π
    · subst hρπ
      rw [if_pos rfl, hl]
      exact Store.write_self ht
    · rw [if_neg hρπ]
      cases hm : follow F σ 0 root ρ with
      | none => rfl
      | some m =>
          have hml : m ≠ l := fun hc ↦ hρπ (h.inj hρ hπ (hc ▸ hm) hl)
          exact Store.write_of_ne hml

/-- Lookups that do not pass the slot written are not affected. -/
theorem lookup_write_of_not_isPrefix (h : IsTree F σ root D) {π : List Ix} {l : Loc} {i : Ix}
    {x : W} {t : Ix → W} (hπ : π ∈ D) (hl : follow F σ 0 root π = some l) (ht : σ l = some t)
    (hx : ∀ c, F.decode π.length x ≠ .node c) (hold : ∀ c, F.decode π.length (t i) ≠ .node c)
    {ρ ν : List Ix} (hD : ρ ++ ν ∈ D) (hn : ¬ π ++ [i] <+: ρ ++ ν) :
    lookup F (tableAt F (σ.write l i x) root) ρ ν = lookup F (tableAt F σ root) ρ ν := by
  induction ν generalizing ρ with
  | nil => rfl
  | cons j ν ih =>
      have hρj := @ih (ρ ++ [j]) (by simpa using hD) (by simpa using hn)
      have hT := tableAt_write h hπ hl ht hx hold (D.mem_of_isPrefix hD (List.prefix_append _ _))
      by_cases hρπ : ρ = π
      · subst hρπ
        have hji : j ≠ i := fun hc ↦ hn (by simp [hc])
        have hTold : tableAt F σ root ρ = some t := (tableAt_of_follow hl).trans ht
        rw [if_pos rfl] at hT
        simp only [lookup, hT, hTold, Option.bind_some, Function.update_of_ne hji, hρj]
      · rw [if_neg hρπ] at hT
        simp only [lookup, hT, hρj]

/-- Writing a word that is no link opens no path. -/
theorem follow_of_write (h : IsTree F σ root D) {π : List Ix} {l : Loc} {i : Ix} {x : W}
    (hπ : π ∈ D) (hl : follow F σ 0 root π = some l) (hx : (F.decode π.length x).child? = none)
    {ρ : List Ix} {m : Loc} (hρ : ρ ∈ D) (hm : follow F (σ.write l i x) 0 root ρ = some m) :
    follow F σ 0 root ρ = some m := by
  by_cases hp : π ++ [i] <+: ρ
  · obtain ⟨τ, rfl⟩ := hp
    rw [follow_append, follow_write_snoc h hπ hl (not_snoc_prefix_self π i), hx] at hm
    simp at hm
  · rwa [follow_write_of_not_isPrefix h hπ hl hρ hp] at hm

/-- Writing a word that is no link over one that is none keeps the tree. -/
theorem IsTree.write (h : IsTree F σ root D) {π : List Ix} {l : Loc} {i : Ix} {x : W}
    (hπ : π ∈ D) (hl : follow F σ 0 root π = some l)
    (hx : (F.decode π.length x).child? = none) : IsTree F (σ.write l i x) root D where
  inj hρ hτ h₁ h₂ :=
    h.inj hρ hτ (follow_of_write h hπ hl hx hρ h₁) (follow_of_write h hπ hl hx hτ h₂)
  total hρ hm := by
    rw [Store.isSome_write]
    exact h.total hρ (follow_of_write h hπ hl hx hρ hm)

theorem Unreached.write {b : Loc} (hb : Unreached F σ root D b) (h : IsTree F σ root D)
    {π : List Ix} {l : Loc} {i : Ix} {x : W} (hπ : π ∈ D) (hl : follow F σ 0 root π = some l)
    (hx : (F.decode π.length x).child? = none) : Unreached F (σ.write l i x) root D b :=
  fun _ _ hρ hm ↦ hb hρ (follow_of_write h hπ hl hx hρ hm)

/-! ## Linking a new table -/

section Attach

variable (h : IsTree F σ root D) {π : List Ix} {l a : Loc} {i : Ix}
  (hπ : π ∈ D) (hl : follow F σ 0 root π = some l) (ha : Unreached F σ root D a)
  (hlink : F.decode π.length (F.link a) = .node a)

include h hπ hl ha

theorem follow_attach_of_not_isPrefix {ρ : List Ix} (hρ : ρ ∈ D) (hn : ¬ π ++ [i] <+: ρ) :
    follow F (σ.attach F l i a) 0 root ρ = follow F σ 0 root ρ := by
  have h' := h.put ha fun _ ↦ F.blank
  have hl' := (follow_put ha (fun _ ↦ F.blank) hπ).trans hl
  rw [Store.attach, follow_write_of_not_isPrefix h' hπ hl' hρ hn, follow_put ha _ hρ]

omit h in
theorem attach_new : σ.attach F l i a a = some fun _ ↦ F.blank := by
  rw [Store.attach, Store.write_of_ne (ha hπ hl).symm, Store.put_self]

include hlink

theorem follow_attach_snoc : follow F (σ.attach F l i a) 0 root (π ++ [i]) = some a := by
  have h' := h.put ha fun _ ↦ F.blank
  have hl' := (follow_put ha (fun _ ↦ F.blank) hπ).trans hl
  rw [Store.attach, follow_write_snoc h' hπ hl' (not_snoc_prefix_self π i), hlink]
  rfl

/-- Nothing hangs below a table just linked. -/
theorem follow_attach_below {ρ : List Ix} (hp : π ++ [i] <+: ρ) (hne : ρ ≠ π ++ [i]) :
    follow F (σ.attach F l i a) 0 root ρ = none := by
  obtain ⟨τ, rfl⟩ := hp
  cases τ with
  | nil => simp at hne
  | cons j τ =>
      rw [follow_append, follow_attach_snoc h hπ hl ha hlink, Option.bind_some]
      simp [follow, attach_new hπ hl ha, F.decode_blank, Slot.child?]

theorem follow_attach {ρ : List Ix} (hρ : ρ ∈ D) :
    follow F (σ.attach F l i a) 0 root ρ =
      if ρ = π ++ [i] then some a
      else if π ++ [i] <+: ρ then none else follow F σ 0 root ρ := by
  split_ifs with h₁ h₂
  · rw [h₁, follow_attach_snoc h hπ hl ha hlink]
  · exact follow_attach_below h hπ hl ha hlink h₂ h₁
  · exact follow_attach_of_not_isPrefix h hπ hl ha hρ h₂

/-- The paths there are after a new table was linked. -/
theorem follow_of_attach {ρ : List Ix} {m : Loc} (hρ : ρ ∈ D)
    (hm : follow F (σ.attach F l i a) 0 root ρ = some m) :
    (ρ = π ++ [i] ∧ m = a) ∨ (follow F σ 0 root ρ = some m ∧ m ≠ a) := by
  rw [follow_attach h hπ hl ha hlink hρ] at hm
  split_ifs at hm with h₁ h₂
  · exact Or.inl ⟨h₁, (Option.some.inj hm).symm⟩
  · exact Or.inr ⟨hm, ha hρ hm⟩

/-- Linking a new table keeps the tree, whatever the slot held before. -/
theorem IsTree.attach : IsTree F (σ.attach F l i a) root D := by
  have key : ∀ {ρ m}, ρ ∈ D → follow F (σ.attach F l i a) 0 root ρ = some m →
      (ρ = π ++ [i] ∧ m = a) ∨ (follow F σ 0 root ρ = some m ∧ m ≠ a) :=
    fun hρ ↦ follow_of_attach h hπ hl ha hlink hρ
  constructor
  · intro ρ τ m hρ hτ h₁ h₂
    rcases key hρ h₁ with ⟨rfl, hm⟩ | ⟨h₁, hm⟩ <;> rcases key hτ h₂ with ⟨rfl, hm'⟩ | ⟨h₂, hm'⟩
    · rfl
    · exact absurd hm hm'
    · exact absurd hm' hm
    · exact h.inj hρ hτ h₁ h₂
  · intro ρ m hρ hm
    rw [Store.attach, Store.isSome_write]
    rcases key hρ hm with ⟨-, rfl⟩ | ⟨hm, hne⟩
    · simp
    · rw [Store.put_of_ne hne]; exact h.total hρ hm

theorem Unreached.attach {b : Loc} (hb : Unreached F σ root D b) (hne : b ≠ a) :
    Unreached F (σ.attach F l i a) root D b := by
  intro ρ m hρ hm
  rcases follow_of_attach h hπ hl ha hlink hρ hm with ⟨-, rfl⟩ | ⟨hm, -⟩
  · exact hne.symm
  · exact hb hρ hm

theorem tableAt_attach {t : Ix → W} (ht : σ l = some t) {ρ : List Ix} (hρ : ρ ∈ D) :
    tableAt F (σ.attach F l i a) root ρ =
      if ρ = π then some (Function.update t i (F.link a))
      else if ρ = π ++ [i] then some fun _ ↦ F.blank
      else if π ++ [i] <+: ρ then none else tableAt F σ root ρ := by
  have hla := ha hπ hl
  by_cases h₀ : ρ = π
  · subst h₀
    have hn := not_snoc_prefix_self ρ i
    rw [if_pos rfl, tableAt, follow_attach_of_not_isPrefix h hπ hl ha hπ hn, hl]
    exact Store.write_self (by rw [Store.put_of_ne hla, ht])
  · rw [if_neg h₀, tableAt, follow_attach h hπ hl ha hlink hρ]
    split_ifs with h₁ h₂
    · exact attach_new hπ hl ha
    · rfl
    · cases hm : follow F σ 0 root ρ with
      | none => simp [tableAt, hm]
      | some m =>
          have hml : m ≠ l := fun hc ↦ h₀ (h.inj hρ hπ (hc ▸ hm) hl)
          rw [tableAt_of_follow hm, Option.bind_some, Store.attach, Store.write_of_ne hml,
            Store.put_of_ne (ha hρ hm)]

theorem table_below_attach {t : Ix → W} (ht : σ l = some t) {ρ ν : List Ix} (hD : ρ ++ ν ∈ D)
    (hp : π ++ [i] <+: ρ) : lookup F (tableAt F (σ.attach F l i a) root) ρ ν = none := by
  have hρ : ρ ∈ D := D.mem_of_isPrefix hD (List.prefix_append _ _)
  have hne : ρ ≠ π := fun hc ↦ not_snoc_prefix_self π i (hc ▸ hp)
  have hT := tableAt_attach (i := i) h hπ hl ha hlink ht hρ
  rw [if_neg hne] at hT
  by_cases heq : ρ = π ++ [i]
  · rw [if_pos heq] at hT
    cases ν with
    | nil => rfl
    | cons j ν => exact lookup_eq_none_of_empty hT (F.decode_blank _)
  · rw [if_neg heq, if_pos hp] at hT
    exact lookup_eq_none_of_table hT

/-- Lookups that do not pass the slot linked are not affected. -/
theorem lookup_attach_of_not_isPrefix {ρ ν : List Ix} (hD : ρ ++ ν ∈ D)
    (hn : ¬ π ++ [i] <+: ρ ++ ν) :
    lookup F (tableAt F (σ.attach F l i a) root) ρ ν = lookup F (tableAt F σ root) ρ ν := by
  obtain ⟨t, ht⟩ := h.exists_table hπ hl
  induction ν generalizing ρ with
  | nil => rfl
  | cons j ν ih =>
      have hρ : ρ ∈ D := D.mem_of_isPrefix hD (List.prefix_append _ _)
      have hρj := @ih (ρ ++ [j]) (by simpa using hD) (by simpa using hn)
      have hT := tableAt_attach (i := i) h hπ hl ha hlink ht hρ
      have hnp : ¬ π ++ [i] <+: ρ := fun hc ↦ hn (hc.trans (List.prefix_append _ _))
      have hne : ρ ≠ π ++ [i] := fun hc ↦ hnp (hc ▸ List.prefix_rfl)
      rw [if_neg hne, if_neg hnp] at hT
      by_cases hρπ : ρ = π
      · subst hρπ
        have hji : j ≠ i := fun hc ↦ hn (by simp [hc])
        have hTold : tableAt F σ root ρ = some t := (tableAt_of_follow hl).trans ht
        rw [if_pos rfl] at hT
        simp only [lookup, hT, hTold, Option.bind_some, Function.update_of_ne hji, hρj]
      · rw [if_neg hρπ] at hT
        simp only [lookup, hT, hρj]

/-- Lookups through the slot linked find nothing. -/
theorem lookup_attach_of_isPrefix {ν : List Ix} (hD : ν ∈ D) (hp : π ++ [i] <+: ν) :
    lookup F (tableAt F (σ.attach F l i a) root) [] ν = none := by
  obtain ⟨t, ht⟩ := h.exists_table hπ hl
  obtain ⟨τ, rfl⟩ := hp
  have hπi : π ++ [i] ∈ D := D.mem_of_isPrefix hD (List.prefix_append _ _)
  have hT : tableAt F (σ.attach F l i a) root ([] ++ (π ++ [i])) = some fun _ ↦ F.blank := by
    have hT := tableAt_attach (i := i) h hπ hl ha hlink ht hπi
    have hne : π ++ [i] ≠ π := fun hc ↦ not_snoc_prefix_self π i (by rw [hc])
    rwa [if_neg hne, if_pos rfl] at hT
  rw [lookup_append hT, List.nil_append, table_below_attach h hπ hl ha hlink ht hD List.prefix_rfl]
  rfl

end Attach

end Radix
