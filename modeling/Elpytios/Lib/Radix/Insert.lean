import Elpytios.Lib.Radix.Growth

/-!
# Inserting into a radix tree

`insert` walks down a path, asks the supply for a table wherever a link is
missing, and stores its word in the last slot if that is free.  It can fail in two
ways: the path is taken already, or a table was needed and none was to be had.

`insert_spec` says what an insertion does: `Inserted` lists the three outcomes, each
with the state it leaves, in terms of the growth and filling steps of the tree.
Everything else about insertion follows from the lemmas about those steps.
-/

universe u v w

namespace Radix

/-- Why an insertion failed. -/
inductive Refusal (W : Type w) where
  | /-- A table was needed and none was to be had. -/
    noTable
  | /-- The walk met a leaf, the given word, in a table at the given depth. -/
    occupied (depth : ℕ) (word : W)
deriving DecidableEq

variable {Loc : Type u} {Ix : Type v} {W : Type w} [DecidableEq Loc] [DecidableEq Ix]

/-- Store `x` in the slot a path leads to from the table at `l`, at depth `n`.  Without a
table at a location the walk reaches, or without a slot to name, there is no result. -/
def insert (F : Format Loc W) (supply : Supply Loc) (x : W) :
    ℕ → Loc → List Ix → State Loc Ix W → Option (Except (Refusal W) Unit × State Loc Ix W)
  | _, _, [], _ => none
  | n, l, [i], s => (s.store l).bind fun t ↦
      match F.decode n (t i) with
      | .empty => some (.ok (), s.fill l i x)
      | _ => some (.error (.occupied n (t i)), s)
  | n, l, i :: j :: π, s => (s.store l).bind fun t ↦
      match F.decode n (t i) with
      | .empty =>
          match supply s.calls with
          | none => some (.error .noTable, s.refuse)
          | some a => insert F supply x (n + 1) a (j :: π) (s.link F l i a)
      | .leaf => some (.error (.occupied n (t i)), s)
      | .node c => insert F supply x (n + 1) c (j :: π) s

variable {F : Format Loc W} {supply : Supply Loc} {root : Loc} {D : Domain Ix}

/-- The outcomes of inserting `x` at path `ν`. -/
inductive Inserted (F : Format Loc W) (supply : Supply Loc) (root : Loc) (D : Domain Ix) (x : W)
    (ν : List Ix) (s : State Loc Ix W) : Except (Refusal W) Unit → State Loc Ix W → Prop
  | /-- The path was taken, and nothing happened. -/
    occupied {ws : List W} {e : W} (h : lookup F (s.table F root) [] ν = some (ws, e)) :
      Inserted F supply root D x ν s (.error (.occupied ws.length e)) s
  | /-- The path was free, and a table needed for it was refused. -/
    noTable {s₁ : State Loc Ix W} (h : lookup F (s.table F root) [] ν = none)
      (hg : GrowAlong F supply root D ν s s₁) (hm : 0 < missing F s₁.store root ν)
      (hr : supply s₁.calls = none) :
      Inserted F supply root D x ν s (.error .noTable) s₁.refuse
  | /-- The path was free and the word was stored. -/
    ok {s₁ s₂ : State Loc Ix W} (h : lookup F (s.table F root) [] ν = none)
      (hg : GrowAlong F supply root D ν s s₁) (hf : Fill F root D x ν s₁ s₂) :
      Inserted F supply root D x ν s (.ok ()) s₂

/-- An insertion that starts with a growth step is one from the state before it. -/
theorem Inserted.of_grow {x : W} {ν π : List Ix} {s s₁ s' : State Loc Ix W}
    {r : Except (Refusal W) Unit} (hs : s.Good F supply root D) (hν : ν ∈ D)
    (hg : Grow F supply root D π s s₁) (hp : π <+: ν)
    (hfree : lookup F (s.table F root) [] ν = none)
    (h : Inserted F supply root D x ν s₁ r s') : Inserted F supply root D x ν s r s' := by
  have hlook := (hg.lookup_eq hs.sound hs.tree hν).trans hfree
  cases h with
  | occupied h => simp [hlook] at h
  | noTable _ hrun hm hr => exact .noTable hfree (hrun.head ⟨π, hp, hg⟩) hm hr
  | ok _ hrun hf => exact .ok hfree (hrun.head ⟨π, hp, hg⟩) hf

/-- Insertion into a tree has a result, and it is one of the outcomes listed. -/
theorem insert_spec (x : W) {s : State Loc Ix W} (hs : s.Good F supply root D)
    (ρ : List Ix) {π : List Ix} {l : Loc} (hπ : π ≠ []) (hD : ρ ++ π ∈ D)
    (hlen : ρ.length + π.length = F.bottom + 1) (hl : follow F s.store 0 root ρ = some l) :
    ∃ r s', insert F supply x ρ.length l π s = some (r, s') ∧
      Inserted F supply root D x (ρ ++ π) s r s' := by
  induction π generalizing ρ l s with
  | nil => exact absurd rfl hπ
  | cons i π ih =>
      have hρ : ρ ∈ D := D.mem_of_isPrefix hD (List.prefix_append _ _)
      have hρi : ρ ++ [i] ∈ D := D.mem_of_isPrefix hD (by simp)
      obtain ⟨t, ht⟩ := hs.tree.exists_table hρ hl
      have hT : tableAt F s.store root ([] ++ ρ) = some t := (tableAt_of_follow hl).trans ht
      have hleaf : F.decode ρ.length (t i) = .leaf →
          ∃ ws, lookup F (s.table F root) [] (ρ ++ i :: π) = some (ws, t i) ∧
            ws.length = ρ.length := fun hd ↦
        ⟨_, by rw [lookup_append hT, lookup_isSome_of_leaf hT hd]; rfl, by simp [length_trail hT]⟩
      cases π with
      | nil =>
          have hb : ρ.length = F.bottom := by simpa using hlen
          cases hd : F.decode ρ.length (t i) with
          | empty =>
              refine ⟨_, _, by simp [insert, ht, hd], .ok ?_ .refl (.intro hρi hb hl ht hd)⟩
              exact lookup_eq_none_of_free hl ht hd List.prefix_rfl
          | leaf =>
              obtain ⟨ws, hws, hlen'⟩ := hleaf hd
              exact ⟨_, _, by simp [insert, ht, hd, hlen'], .occupied hws⟩
          | node c => exact absurd hd (F.decode_bottom _ hb.ge _ c)
      | cons j π =>
          have hb : ρ.length < F.bottom := by simp at hlen; omega
          have happ : ρ ++ i :: j :: π = (ρ ++ [i]) ++ (j :: π) := by simp
          have hlen' : (ρ ++ [i]).length + (j :: π).length = F.bottom + 1 := by
            simp at hlen ⊢; omega
          have hsucc : ρ.length + 1 = (ρ ++ [i]).length := by simp
          cases hd : F.decode ρ.length (t i) with
          | empty =>
              have hfree := lookup_eq_none_of_free hl ht hd
                (show ρ ++ [i] <+: ρ ++ i :: j :: π by simp)
              cases ha : supply s.calls with
              | none =>
                  refine ⟨_, _, by simp [insert, ht, hd, ha], .noTable hfree .refl ?_ ha⟩
                  apply missing_pos (show ρ ++ [i] <+: _ by simp) (by simp; omega)
                  rw [follow_snoc, hl]
                  simp [ht, hd, Slot.child?]
              | some a =>
                  have hg : Grow F supply root D (ρ ++ [i]) s (s.link F l i a) :=
                    .intro hρi hb hl ht hd ha
                  obtain ⟨b, hb', hfb, -⟩ := hg.follow_self hs.sound hs.tree
                  obtain rfl : a = b := Option.some.inj (ha.symm.trans hb')
                  obtain ⟨r, s', hrun, hins⟩ :=
                    ih (hg.good hs) (ρ ++ [i]) (by simp) (happ ▸ hD) hlen' hfb
                  rw [← happ] at hins
                  refine ⟨r, s', ?_, hins.of_grow hs hD hg (by simp) hfree⟩
                  rw [insert, ht, Option.bind_some, hd]
                  simp only [ha, hsucc]
                  exact hrun
          | leaf =>
              obtain ⟨ws, hws, hlen'⟩ := hleaf hd
              exact ⟨_, _, by simp [insert, ht, hd, hlen'], .occupied hws⟩
          | node c =>
              have hc : follow F s.store 0 root (ρ ++ [i]) = some c :=
                follow_snoc_eq_some.mpr ⟨l, t, hl, ht, hd⟩
              obtain ⟨r, s', hrun, hins⟩ := ih hs (ρ ++ [i]) (by simp) (happ ▸ hD) hlen' hc
              rw [← happ] at hins
              refine ⟨r, s', ?_, hins⟩
              rw [insert, ht, Option.bind_some, hd, hsucc]
              exact hrun

/-! ## Consequences -/

section Inserted

variable {x : W} {ν : List Ix} {s s' : State Loc Ix W} {r : Except (Refusal W) Unit}

theorem Inserted.calls_le (h : Inserted F supply root D x ν s r s') : s.calls ≤ s'.calls := by
  cases h with
  | occupied => exact le_rfl
  | noTable _ hg _ _ => exact (GrowAlong.calls_le hg).trans (Nat.le_succ _)
  | ok _ hg hf => exact (GrowAlong.calls_le hg).trans hf.calls_eq.ge

/-- Whatever the outcome, what could be followed is followed to the same place. -/
theorem Inserted.follow_eq (h : Inserted F supply root D x ν s r s')
    (hs : s.Good F supply root D) {ρ : List Ix} {m : Loc} (hρ : ρ ∈ D)
    (hm : follow F s.store 0 root ρ = some m) : follow F s'.store 0 root ρ = some m := by
  cases h with
  | occupied => exact hm
  | noTable _ hg _ _ => exact GrowAlong.follow_eq hg hs hρ hm
  | ok _ hg hf =>
      exact (hf.extends (GrowAlong.good hg hs).tree).follow_eq hρ (GrowAlong.follow_eq hg hs hρ hm)

/-- A failed insertion is invisible to lookups. -/
theorem Inserted.lookup_of_error {e : Refusal W}
    (h : Inserted F supply root D x ν s (.error e) s') (hs : s.Good F supply root D)
    {μ : List Ix} (hμ : μ ∈ D) :
    lookup F (s'.table F root) [] μ = lookup F (s.table F root) [] μ := by
  cases h with
  | occupied => rfl
  | noTable _ hg _ _ => exact GrowAlong.lookup_eq hg hs hμ

/-- A successful insertion answers at its own path with the word stored. -/
theorem Inserted.lookup_self (h : Inserted F supply root D x ν s (.ok ()) s')
    (hs : s.Good F supply root D) (hx : F.decode F.bottom x = .leaf) :
    ∃ ws, lookup F (s'.table F root) [] ν = some (ws, x) ∧ ws.length = F.bottom := by
  cases h with
  | ok _ hg hf => exact hf.lookup_self (GrowAlong.good hg hs).tree hx

/-- A successful insertion changes no other answer. -/
theorem Inserted.lookup_of_not_isPrefix (h : Inserted F supply root D x ν s (.ok ()) s')
    (hs : s.Good F supply root D) {μ : List Ix} (hμ : μ ∈ D) (hn : ¬ ν <+: μ) :
    lookup F (s'.table F root) [] μ = lookup F (s.table F root) [] μ := by
  cases h with
  | ok _ hg hf =>
      exact ((hf.extends (GrowAlong.good hg hs).tree).lookup_eq hμ hn).trans
        (GrowAlong.lookup_eq hg hs hμ)

/-- An insertion with a result makes one request for each table missing. -/
theorem Inserted.calls_of_ok (h : Inserted F supply root D x ν s (.ok ()) s')
    (hs : s.Good F supply root D) (hlen : F.bottom < ν.length) :
    s'.calls = s.calls + missing F s.store root ν := by
  cases h with
  | ok _ hg hf =>
      rw [GrowAlong.missing_eq hg hs hf.mem hlen, hf.missing_eq, hf.calls_eq, Nat.add_zero]

/-- A table is refused only for one that is missing. -/
theorem Inserted.exists_refused (h : Inserted F supply root D x ν s (.error .noTable) s')
    (hs : s.Good F supply root D) (hν : ν ∈ D) (hlen : F.bottom < ν.length) :
    ∃ n, s.calls ≤ n ∧ n < s.calls + missing F s.store root ν ∧ supply n = none := by
  cases h with
  | @noTable s₁ _ hg hm hr =>
      have hmiss := GrowAlong.missing_eq hg hs hν hlen
      exact ⟨s₁.calls, GrowAlong.calls_le hg, by omega, hr⟩

/-- An insertion succeeds if its path is free and there is a table for each one missing. -/
theorem Inserted.eq_ok (h : Inserted F supply root D x ν s r s') (hs : s.Good F supply root D)
    (hν : ν ∈ D) (hlen : F.bottom < ν.length) (hfree : lookup F (s.table F root) [] ν = none)
    (hall : ∀ n, s.calls ≤ n → n < s.calls + missing F s.store root ν → supply n ≠ none) :
    r = .ok () := by
  cases h with
  | occupied h => simp [hfree] at h
  | noTable h hg hm hr =>
      obtain ⟨n, hn, hn', hnone⟩ := (Inserted.noTable (x := x) h hg hm hr).exists_refused hs hν hlen
      exact absurd hnone (hall n hn hn')
  | ok => rfl

/-- An insertion with a result was granted every request. -/
theorem Inserted.granted_of_ok (h : Inserted F supply root D x ν s (.ok ()) s')
    (hs : s.Good F supply root D) (hlen : F.bottom < ν.length) {n : ℕ} (hn : s.calls ≤ n)
    (hn' : n < s.calls + missing F s.store root ν) : supply n ≠ none := by
  rw [← h.calls_of_ok hs hlen] at hn'
  cases h with
  | ok _ hg hf =>
      obtain ⟨a, -, -, ha, -⟩ := GrowAlong.granted hg hs hn (hf.calls_eq ▸ hn')
      simp [ha]

/-- A path that is taken stays taken by the same word. -/
theorem Inserted.lookup_of_some (h : Inserted F supply root D x ν s r s')
    (hs : s.Good F supply root D) {μ : List Ix} (hμ : μ ∈ D) (hlen : μ.length = ν.length)
    {w : List W × W} (hw : lookup F (s.table F root) [] μ = some w) :
    lookup F (s'.table F root) [] μ = some w := by
  cases r with
  | error e => rw [h.lookup_of_error hs hμ, hw]
  | ok =>
      rw [h.lookup_of_not_isPrefix hs hμ, hw]
      intro hp
      obtain rfl := hp.eq_of_length hlen.symm
      cases h with
      | ok hfree _ _ => simp [hfree] at hw

theorem Inserted.links {P : W → Prop} (h : Inserted F supply root D x ν s r s')
    (hs : s.Good F supply root D) (hP : ∀ a, F.Linkable a → P (F.link a))
    (hlinks : Links F s.store root D P) :
    Links F s'.store root D P := by
  cases h with
  | occupied => exact hlinks
  | noTable _ hg _ _ =>
      have h₁ := GrowAlong.links hg hs hP hlinks
      exact h₁
  | ok _ hg hf => exact hf.links (GrowAlong.good hg hs) (GrowAlong.links hg hs hP hlinks)

/-- The only leaf an insertion adds is the word inserted. -/
theorem Inserted.leaves {P : ℕ → W → Prop} (h : Inserted F supply root D x ν s r s')
    (hs : s.Good F supply root D) (hP : P F.bottom x) (hleaves : Leaves F s.store root D P) :
    Leaves F s'.store root D P := by
  cases h with
  | occupied => exact hleaves
  | noTable _ hg _ _ =>
      have h₁ := GrowAlong.leaves hg hs hleaves
      exact h₁
  | ok _ hg hf => exact hf.leaves (GrowAlong.good hg hs) hP (GrowAlong.leaves hg hs hleaves)

end Inserted

end Radix
