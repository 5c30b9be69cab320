import Mathlib.Data.List.Basic
import Mathlib.Data.List.Infix
import Mathlib.Data.Set.Basic
import Mathlib.Logic.Function.Basic
import Mathlib.Tactic.Common

/-!
# Radix trees in a heap of tables

A radix tree is a set of tables linked by their entries.  A table maps a slot
index to a word; what a word says depends on the depth of the table holding it,
and is given by a `Format`: nothing, a link to a table one level down, or a leaf.

Two views of one tree live here.

* The **heap view** is a `Store`, which gives the table at each location.
  `follow` walks from a root location along a path of slot indices.
* The **path view** is `tableAt`, which gives the table reached along a path and
  forgets where it is stored.  `lookup` walks the path view down to a leaf, as
  `descend` walks the heap view.

`IsTree` is the ownership invariant that makes the two agree under writes: no two
paths reach the same location, and every location reached holds a table.

Nothing here depends on what the words are or on how many levels there are.
-/

universe u v w

namespace Radix

/-- What a word says at a given depth. -/
inductive Slot (Loc : Type u) where
  | /-- The slot is free. -/
    empty
  | /-- The slot links to a table one level down. -/
    node (child : Loc)
  | /-- The walk ends here. -/
    leaf
deriving DecidableEq

/-- The location a slot links to, if it links to any. -/
def Slot.child? {Loc : Type u} : Slot Loc → Option Loc
  | .node l => some l
  | _ => none

@[simp] theorem Slot.child?_eq_some {Loc : Type u} {s : Slot Loc} {l : Loc} :
    s.child? = some l ↔ s = .node l := by
  cases s <;> simp [Slot.child?]

/-- How words encode slots.  Tables at depth `bottom` hold leaves only. -/
structure Format (Loc : Type u) (W : Type w) where
  /-- The slot a word encodes in a table at the given depth. -/
  decode : ℕ → W → Slot Loc
  /-- The depth of the lowest tables. -/
  bottom : ℕ
  /-- The word that links to a location. -/
  link : Loc → W
  /-- The word of a free slot. -/
  blank : W
  /-- The locations a word has room for. -/
  Linkable : Loc → Prop
  decode_link : ∀ n < bottom, ∀ l, Linkable l → decode n (link l) = .node l
  decode_blank : ∀ n, decode n blank = .empty
  decode_bottom : ∀ n, bottom ≤ n → ∀ w l, decode n w ≠ .node l

/-- The table each location holds, if it holds one. -/
abbrev Store (Loc : Type u) (Ix : Type v) (W : Type w) := Loc → Option (Ix → W)

/-- A set of paths closed under prefixes: the part of a tree that is looked at. -/
structure Domain (Ix : Type v) where
  /-- The paths of the domain. -/
  carrier : Set (List Ix)
  nil_mem : [] ∈ carrier
  mem_of_snoc : ∀ {π i}, π ++ [i] ∈ carrier → π ∈ carrier

instance {Ix : Type v} : Membership (List Ix) (Domain Ix) := ⟨fun D π ↦ π ∈ D.carrier⟩

/-- The paths whose first index is not `r`. -/
def Domain.avoiding {Ix : Type v} (r : Ix) : Domain Ix where
  carrier := { π | π.head? ≠ some r }
  nil_mem := by simp
  mem_of_snoc {π i} h := by cases π <;> simp_all

theorem Domain.mem_avoiding {Ix : Type v} {r : Ix} {π : List Ix} :
    π ∈ Domain.avoiding r ↔ π.head? ≠ some r := Iff.rfl

@[simp] theorem Domain.nil_mem' {Ix : Type v} (D : Domain Ix) : [] ∈ D := D.nil_mem

theorem Domain.mem_of_isPrefix {Ix : Type v} (D : Domain Ix) {π ρ : List Ix} (h : ρ ∈ D)
    (hp : π <+: ρ) : π ∈ D := by
  obtain ⟨τ, rfl⟩ := hp
  induction τ using List.reverseRecOn with
  | nil => simpa using h
  | append_singleton τ i ih =>
      exact ih (D.mem_of_snoc (by rwa [← List.append_assoc] at h))

variable {Loc : Type u} {Ix : Type v} {W : Type w} (F : Format Loc W)

/-! ## Reading -/

/-- The location reached from `l`, a table at depth `n`, along a path of links. -/
def follow (σ : Store Loc Ix W) : ℕ → Loc → List Ix → Option Loc
  | _, l, [] => some l
  | n, l, i :: π => (σ l).bind fun t ↦ (F.decode n (t i)).child?.bind fun c ↦ follow σ (n + 1) c π

/-- The table reached from `root` along a path. -/
def tableAt (σ : Store Loc Ix W) (root : Loc) (π : List Ix) : Option (Ix → W) :=
  (follow F σ 0 root π).bind σ

/-- Walk down from the table at `l`, at depth `n`.  The result is the words of the links
followed and the word of the leaf they end in. -/
def descend (σ : Store Loc Ix W) : ℕ → Loc → List Ix → Option (List W × W)
  | _, _, [] => none
  | n, l, i :: π => (σ l).bind fun t ↦
      match F.decode n (t i) with
      | .empty => none
      | .leaf => some ([], t i)
      | .node c => (descend σ (n + 1) c π).map fun r ↦ (t i :: r.1, r.2)

/-- Walk down from the table at path `ρ`.  The result is the words of the links
followed and the word of the leaf they end in. -/
def lookup (T : List Ix → Option (Ix → W)) : List Ix → List Ix → Option (List W × W)
  | _, [] => none
  | ρ, i :: π => (T ρ).bind fun t ↦
      match F.decode ρ.length (t i) with
      | .empty => none
      | .leaf => some ([], t i)
      | .node _ => (lookup T (ρ ++ [i]) π).map fun r ↦ (t i :: r.1, r.2)

/-- The words a walk from the table at `ρ` passes, one for each index. -/
def trail (T : List Ix → Option (Ix → W)) : List Ix → List Ix → List W
  | _, [] => []
  | ρ, i :: π => ((T ρ).map (· i)).toList ++ trail T (ρ ++ [i]) π

variable {F} {σ τ : Store Loc Ix W} {root : Loc}

@[simp] theorem follow_nil (n : ℕ) (l : Loc) : follow F σ n l [] = some l := rfl

/-- The first step of a walk reads one slot of the table it starts from. -/
theorem follow_cons_eq_some {n : ℕ} {l c : Loc} {i : Ix} {π : List Ix} :
    follow F σ n l (i :: π) = some c ↔
      ∃ t m, σ l = some t ∧ F.decode n (t i) = .node m ∧ follow F σ (n + 1) m π = some c := by
  simp [follow, Option.bind_eq_some_iff]

theorem follow_append (n : ℕ) (l : Loc) (π ρ : List Ix) :
    follow F σ n l (π ++ ρ) = (follow F σ n l π).bind fun c ↦ follow F σ (n + π.length) c ρ := by
  induction π generalizing n l with
  | nil => simp
  | cons i π ih =>
      cases h : σ l with
      | none => simp [follow, h]
      | some t =>
          cases hc : (F.decode n (t i)).child? with
          | none => simp [follow, h, hc]
          | some c =>
              have hn : n + 1 + π.length = n + (i :: π).length := by simp; omega
              simp [follow, h, hc, ih, hn]

/-- The last step of a walk reads one slot of the table the rest of it reaches. -/
theorem follow_snoc (n : ℕ) (l : Loc) (π : List Ix) (i : Ix) :
    follow F σ n l (π ++ [i]) = (follow F σ n l π).bind fun c ↦
      (σ c).bind fun t ↦ (F.decode (n + π.length) (t i)).child? := by
  rw [follow_append]
  congr 1
  funext c
  cases h : σ c with
  | none => simp [follow, h]
  | some t => cases hc : (F.decode (n + π.length) (t i)).child? <;> simp [follow, h, hc]

theorem follow_snoc_eq_some {π : List Ix} {i : Ix} {c : Loc} :
    follow F σ 0 root (π ++ [i]) = some c ↔
      ∃ l t, follow F σ 0 root π = some l ∧ σ l = some t ∧ F.decode π.length (t i) = .node c := by
  rw [follow_snoc]
  simp [Option.bind_eq_some_iff]

theorem exists_follow_of_isPrefix {π ρ : List Ix} {l : Loc} (h : follow F σ 0 root ρ = some l)
    (hp : π <+: ρ) : ∃ c, follow F σ 0 root π = some c := by
  obtain ⟨τ, rfl⟩ := hp
  rw [follow_append, Option.bind_eq_some_iff] at h
  obtain ⟨c, hc, -⟩ := h
  exact ⟨c, hc⟩

@[simp] theorem tableAt_nil : tableAt F σ root [] = σ root := rfl

theorem tableAt_of_follow {π : List Ix} {l : Loc} (h : follow F σ 0 root π = some l) :
    tableAt F σ root π = σ l := by
  rw [tableAt, h]; rfl

/-- There is no table below a path that reaches none. -/
theorem tableAt_eq_none_of_isPrefix {π ρ : List Ix} (h : follow F σ 0 root π = none)
    (hp : π <+: ρ) : tableAt F σ root ρ = none := by
  obtain ⟨τ, rfl⟩ := hp
  simp [tableAt, follow_append, h]

/-- Above a table there is a table that links to it. -/
theorem exists_of_tableAt_snoc {π : List Ix} {i : Ix} {t : Ix → W}
    (h : tableAt F σ root (π ++ [i]) = some t) :
    ∃ t₀ c, tableAt F σ root π = some t₀ ∧ F.decode π.length (t₀ i) = .node c := by
  obtain ⟨c, hc, -⟩ := Option.bind_eq_some_iff.mp h
  obtain ⟨l, t₀, hl, ht₀, hd⟩ := follow_snoc_eq_some.mp hc
  exact ⟨t₀, c, (tableAt_of_follow hl).trans ht₀, hd⟩

theorem exists_tableAt_of_isPrefix {π ρ : List Ix} {t : Ix → W}
    (h : tableAt F σ root ρ = some t) (hp : π <+: ρ) : ∃ t₀, tableAt F σ root π = some t₀ := by
  obtain ⟨τ, rfl⟩ := hp
  induction τ using List.reverseRecOn generalizing t with
  | nil => exact ⟨t, by simpa using h⟩
  | append_singleton τ i ih =>
      obtain ⟨t₀, _, ht₀, -⟩ := exists_of_tableAt_snoc (by rwa [← List.append_assoc] at h)
      exact ih ht₀

/-! ## The ownership invariant -/

/-- The part of the store reached from `root` along the paths of `D` is a tree:
no two paths share a table, and every path that can be followed ends in one. -/
structure IsTree (F : Format Loc W) (σ : Store Loc Ix W) (root : Loc) (D : Domain Ix) : Prop where
  inj : ∀ {π ρ l}, π ∈ D → ρ ∈ D → follow F σ 0 root π = some l → follow F σ 0 root ρ = some l →
    π = ρ
  total : ∀ {π l}, π ∈ D → follow F σ 0 root π = some l → (σ l).isSome

variable {D : Domain Ix}

theorem IsTree.exists_table (h : IsTree F σ root D) {π : List Ix} {l : Loc} (hπ : π ∈ D)
    (hl : follow F σ 0 root π = some l) : ∃ t, σ l = some t :=
  Option.isSome_iff_exists.mp (h.total hπ hl)

/-! ## Lookups only read what they pass -/

/-- Two trees with the same tables at the paths below `ρ` answer alike there. -/
theorem lookup_congr {T T' : List Ix → Option (Ix → W)} {ρ π : List Ix}
    (h : ∀ τ, ρ ++ τ <+: ρ ++ π → T (ρ ++ τ) = T' (ρ ++ τ)) :
    lookup F T ρ π = lookup F T' ρ π := by
  induction π generalizing ρ with
  | nil => rfl
  | cons i π ih =>
      have h0 : T ρ = T' ρ := by simpa using h []
      have hi := @ih (ρ ++ [i]) fun τ hτ ↦ by
        simpa using h (i :: τ) (by simpa using hτ)
      simp only [lookup, h0, hi]

/-- A leaf found at the end of a walk is the slot it stops in. -/
theorem lookup_isSome_of_leaf {T : List Ix → Option (Ix → W)} {ρ π : List Ix} {i : Ix}
    {t : Ix → W} (ht : T ρ = some t) (hd : F.decode ρ.length (t i) = .leaf) :
    lookup F T ρ (i :: π) = some ([], t i) := by
  simp [lookup, ht, hd]

theorem lookup_eq_none_of_empty {T : List Ix → Option (Ix → W)} {ρ π : List Ix} {i : Ix}
    {t : Ix → W} (ht : T ρ = some t) (hd : F.decode ρ.length (t i) = .empty) :
    lookup F T ρ (i :: π) = none := by
  simp [lookup, ht, hd]

theorem lookup_of_node {T : List Ix → Option (Ix → W)} {ρ π : List Ix} {i : Ix} {t : Ix → W}
    {c : Loc} (ht : T ρ = some t) (hd : F.decode ρ.length (t i) = .node c) :
    lookup F T ρ (i :: π) = (lookup F T (ρ ++ [i]) π).map fun r ↦ (t i :: r.1, r.2) := by
  simp [lookup, ht, hd]

theorem lookup_eq_none_of_table {T : List Ix → Option (Ix → W)} {ρ π : List Ix}
    (ht : T ρ = none) : lookup F T ρ π = none := by
  cases π <;> simp [lookup, ht]

/-- Walking down the heap and walking down the paths come to the same. -/
theorem lookup_eq_descend {ρ π : List Ix} {l : Loc} (hl : follow F σ 0 root ρ = some l) :
    lookup F (tableAt F σ root) ρ π = descend F σ ρ.length l π := by
  induction π generalizing ρ l with
  | nil => rfl
  | cons i π ih =>
      have hT : tableAt F σ root ρ = σ l := tableAt_of_follow hl
      cases ht : σ l with
      | none => simp [lookup, descend, hT, ht]
      | some t =>
          cases hd : F.decode ρ.length (t i) with
          | empty => simp [lookup, descend, hT, ht, hd]
          | leaf => simp [lookup, descend, hT, ht, hd]
          | node c =>
              have hc : follow F σ 0 root (ρ ++ [i]) = some c :=
                follow_snoc_eq_some.mpr ⟨l, t, hl, ht, hd⟩
              simp [lookup, descend, hT, ht, hd, ih hc]

/-- Two stores with the same tables at the locations on the way answer alike. -/
theorem descend_congr {n : ℕ} {l : Loc} {ν : List Ix}
    (h : ∀ π c, π <+: ν → follow F σ n l π = some c → τ c = σ c) :
    descend F τ n l ν = descend F σ n l ν := by
  induction ν generalizing n l with
  | nil => rfl
  | cons i ν ih =>
      have hl : τ l = σ l := h [] l (List.nil_prefix) rfl
      cases ht : σ l with
      | none => simp [descend, hl, ht]
      | some t =>
          cases hd : F.decode n (t i) with
          | empty => simp [descend, hl, ht, hd]
          | leaf => simp [descend, hl, ht, hd]
          | node m =>
              have hm : descend F τ (n + 1) m ν = descend F σ (n + 1) m ν :=
                ih fun π c hπ hc ↦ h (i :: π) c (List.cons_prefix_cons.mpr ⟨rfl, hπ⟩)
                  (follow_cons_eq_some.mpr ⟨t, m, ht, hd, hc⟩)
              simp [descend, hl, ht, hd, hm]

/-- A walk that ends in a leaf ends in it in every larger store. -/
theorem descend_of_le (h : ∀ c t, σ c = some t → τ c = some t) {n : ℕ} {l : Loc} {ν : List Ix}
    {r : List W × W} (hr : descend F σ n l ν = some r) : descend F τ n l ν = some r := by
  induction ν generalizing n l r with
  | nil => exact hr
  | cons i ν ih =>
      cases ht : σ l with
      | none => simp [descend, ht] at hr
      | some t =>
          have ht' := h l t ht
          cases hd : F.decode n (t i) with
          | empty => simp [descend, ht, hd] at hr
          | leaf => simpa [descend, ht, ht', hd] using hr
          | node m =>
              simp only [descend, ht, Option.bind_some, hd, Option.map_eq_some_iff] at hr
              obtain ⟨r', hr', rfl⟩ := hr
              simp [descend, ht', hd, ih hr']

/-- A lookup below a table of the tree passes the words on the way to it. -/
theorem lookup_append {ρ π ν : List Ix} {t : Ix → W}
    (h : tableAt F σ root (ρ ++ π) = some t) :
    lookup F (tableAt F σ root) ρ (π ++ ν) =
      (lookup F (tableAt F σ root) (ρ ++ π) ν).map
        fun r ↦ (trail (tableAt F σ root) ρ π ++ r.1, r.2) := by
  induction π generalizing ρ with
  | nil => simp [trail]
  | cons i π ih =>
      have hi : ρ ++ i :: π = (ρ ++ [i]) ++ π := by simp
      rw [hi] at h
      obtain ⟨t₁, ht₁⟩ := exists_tableAt_of_isPrefix h (List.prefix_append _ _)
      obtain ⟨t₀, c, ht₀, hd⟩ := exists_of_tableAt_snoc ht₁
      rw [hi]
      rw [List.cons_append, lookup_of_node ht₀ hd, ih h, Option.map_map]
      simp [trail, ht₀, Function.comp_def]

/-- Lookups through a free slot find nothing. -/
theorem lookup_eq_none_of_free {l : Loc} {π ν : List Ix} {i : Ix}
    {t : Ix → W} (hl : follow F σ 0 root π = some l) (ht : σ l = some t)
    (he : F.decode π.length (t i) = .empty) (hp : π ++ [i] <+: ν) :
    lookup F (tableAt F σ root) [] ν = none := by
  obtain ⟨τ, rfl⟩ := hp
  have hT : tableAt F σ root ([] ++ π) = some t := (tableAt_of_follow hl).trans ht
  rw [List.append_assoc, lookup_append hT, List.singleton_append,
    lookup_eq_none_of_empty (by simpa using hT) (by simpa using he)]
  rfl

/-- On the way to a table one word is passed for each index. -/
theorem length_trail {ρ π : List Ix} {t : Ix → W} (h : tableAt F σ root (ρ ++ π) = some t) :
    (trail (tableAt F σ root) ρ π).length = π.length := by
  induction π generalizing ρ with
  | nil => rfl
  | cons i π ih =>
      have hi : ρ ++ i :: π = (ρ ++ [i]) ++ π := by simp
      rw [hi] at h
      obtain ⟨t₁, ht₁⟩ := exists_tableAt_of_isPrefix h (List.prefix_append _ _)
      obtain ⟨t₀, c, ht₀, hd⟩ := exists_of_tableAt_snoc ht₁
      simp [trail, ht₀, ih h]

/-- The leaf a lookup ends in is a leaf of some table of the tree. -/
theorem exists_of_lookup {T : List Ix → Option (Ix → W)} {ρ π : List Ix} {ws : List W} {x : W}
    (h : lookup F T ρ π = some (ws, x)) :
    ∃ τ i t, T (ρ ++ τ) = some t ∧ t i = x ∧ ρ ++ τ ++ [i] <+: ρ ++ π ∧
      F.decode (ρ ++ τ).length x = .leaf ∧ ws.length = τ.length := by
  induction π generalizing ρ ws with
  | nil => simp [lookup] at h
  | cons i π ih =>
      cases ht : T ρ with
      | none => simp [lookup_eq_none_of_table ht] at h
      | some t =>
          cases hd : F.decode ρ.length (t i) with
          | empty => simp [lookup_eq_none_of_empty ht hd] at h
          | leaf =>
              rw [lookup_isSome_of_leaf ht hd] at h
              obtain ⟨rfl, rfl⟩ := Prod.mk.inj (Option.some.inj h)
              exact ⟨[], i, t, by simpa using ht, rfl, by simp, by simpa using hd, rfl⟩
          | node c =>
              rw [lookup_of_node ht hd, Option.map_eq_some_iff] at h
              obtain ⟨⟨ws', x'⟩, hr, hws⟩ := h
              obtain ⟨rfl, rfl⟩ := Prod.mk.inj hws
              obtain ⟨τ, j, t', h₁, h₂, h₃, h₄, h₅⟩ := ih hr
              exact ⟨i :: τ, j, t', by simpa using h₁, h₂, by simpa using h₃, by simpa using h₄,
                by simpa using h₅⟩

/-- Every link a lookup passes is a link of some table of the tree. -/
theorem exists_of_mem_lookup {T : List Ix → Option (Ix → W)} {ρ π : List Ix} {ws : List W}
    {e x : W} (h : lookup F T ρ π = some (ws, e)) (hx : x ∈ ws) :
    ∃ τ i t c, T (ρ ++ τ) = some t ∧ t i = x ∧ ρ ++ τ ++ [i] <+: ρ ++ π ∧
      F.decode (ρ ++ τ).length x = .node c := by
  induction π generalizing ρ ws with
  | nil => simp [lookup] at h
  | cons i π ih =>
      cases ht : T ρ with
      | none => simp [lookup_eq_none_of_table ht] at h
      | some t =>
          cases hd : F.decode ρ.length (t i) with
          | empty => simp [lookup_eq_none_of_empty ht hd] at h
          | leaf =>
              rw [lookup_isSome_of_leaf ht hd] at h
              simp only [Option.some.injEq, Prod.mk.injEq] at h
              simp [← h.1] at hx
          | node c =>
              rw [lookup_of_node ht hd, Option.map_eq_some_iff] at h
              obtain ⟨⟨ws', e'⟩, hr, hws⟩ := h
              obtain ⟨rfl, rfl⟩ := Prod.mk.inj hws
              rcases List.mem_cons.mp hx with rfl | hx
              · exact ⟨[], i, t, c, by simpa using ht, rfl, by simp, by simpa using hd⟩
              · obtain ⟨τ, j, t', c', h₁, h₂, h₃, h₄⟩ := ih hr hx
                exact ⟨i :: τ, j, t', c', by simpa using h₁, h₂, by simpa using h₃,
                  by simpa using h₄⟩

end Radix
