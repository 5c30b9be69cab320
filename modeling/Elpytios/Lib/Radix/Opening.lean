import Elpytios.Lib.Radix.Count

/-!
# Insertion, seen from the paths

What an insertion does to the tables of a tree can be said without tables: a path is open if
there is a table at it.  An insertion opens the paths on its way that are not open yet, from the
root down, with one request for each, and gives up at the first request that is refused
(`Openings.extend`).

So which insertions are refused a table, and how many requests are made, follows from the paths
that are open and the number of requests before (`Inserted.extend_eq`).
-/

universe u v w

namespace Radix

/-- The paths that are open, and how many requests were made. -/
@[ext]
structure Openings (Ix : Type v) where
  opened : Finset (List Ix)
  requests : ℕ

variable {Loc : Type u} {Ix : Type v} {W : Type w}

/-- Open the paths of a list that are not open yet.  The answer is whether all requests were
granted. -/
def Openings.extend [DecidableEq Ix] (granted : ℕ → Bool) :
    List (List Ix) → Openings Ix → Bool × Openings Ix
  | [], o => (true, o)
  | π :: πs, o =>
      if π ∈ o.opened then extend granted πs o
      else if granted o.requests then
        extend granted πs ⟨Insert.insert π o.opened, o.requests + 1⟩
      else (false, ⟨o.opened, o.requests + 1⟩)

/-- The paths on the way to `ν` from depth `k` on. -/
def waypoints (F : Format Loc W) (ν : List Ix) (k : ℕ) : List (List Ix) :=
  (List.range' k (F.bottom + 1 - k)).map ν.take

/-- The openings of a tree in a state. -/
structure Openings.Of (F : Format Loc W) (root : Loc) (D : Domain Ix) (s : State Loc Ix W)
    (o : Openings Ix) : Prop where
  mem_opened : ∀ ρ ∈ D, ρ ≠ [] → (ρ ∈ o.opened ↔ ∃ l, follow F s.store 0 root ρ = some l)
  requests_eq : o.requests = s.calls

variable {F : Format Loc W} {supply : Supply Loc} {root : Loc} {D : Domain Ix}
  {s s₁ s' : State Loc Ix W} {π ν : List Ix} {o : Openings Ix} {k : ℕ}

theorem waypoints_succ (h : k ≤ F.bottom) :
    waypoints F ν k = ν.take k :: waypoints F ν (k + 1) := by
  have hlen : F.bottom + 1 - k = (F.bottom + 1 - (k + 1)) + 1 := by omega
  rw [waypoints, waypoints, hlen, List.range'_succ, List.map_cons]

theorem waypoints_eq_nil (h : F.bottom < k) : waypoints F ν k = [] := by
  rw [waypoints, Nat.sub_eq_zero_of_le h]
  rfl

/-- Only the tree counts, wherever it is. -/
theorem Openings.Of.congr {root' : Loc} (ho : o.Of F root D s) (hcalls : s'.calls = s.calls)
    (hfollow : ∀ ρ ∈ D, ρ ≠ [] → follow F s'.store 0 root' ρ = follow F s.store 0 root ρ) :
    o.Of F root' D s' where
  mem_opened ρ hρ hne := by rw [hfollow ρ hρ hne, ho.mem_opened ρ hρ hne]
  requests_eq := ho.requests_eq.trans hcalls.symm

theorem Openings.Of.refuse (ho : o.Of F root D s) :
    Openings.Of F root D s.refuse ⟨o.opened, o.requests + 1⟩ where
  mem_opened := ho.mem_opened
  requests_eq := congrArg (· + 1) ho.requests_eq

variable [DecidableEq Loc] [DecidableEq Ix]

/-- A slot that grows is the first on its path that has no table. -/
theorem Grow.exists_take (h : Grow F supply root D π s s') (hp : π <+: ν) :
    ∃ k l, π = ν.take (k + 1) ∧ follow F s.store 0 root (ν.take k) = some l ∧
      follow F s.store 0 root π = none := by
  cases h with
  | @intro _ π i l _ t _ _ hl ht he _ =>
      have htake : π ++ [i] = ν.take (π.length + 1) := by
        rw [List.prefix_iff_eq_take.mp hp, List.length_append, List.length_singleton]
      have hparent : π = ν.take π.length :=
        List.prefix_iff_eq_take.mp ((List.prefix_append π [i]).trans hp)
      refine ⟨π.length, l, htake, hparent ▸ hl, ?_⟩
      rw [follow_snoc, hl, Option.bind_some, ht, Option.bind_some, Nat.zero_add, he]
      rfl

/-- It is at the depth of the first table that is missing. -/
theorem Grow.eq_take (h : Grow F supply root D π s s') (hp : π <+: ν)
    (hclosed : follow F s.store 0 root (ν.take k) = none)
    (hbefore : ∀ j < k, ∃ l, follow F s.store 0 root (ν.take j) = some l) : π = ν.take k := by
  obtain ⟨j, l, rfl, hl, hfree⟩ := h.exists_take hp
  have hjk : j < k := by
    by_contra hc
    obtain ⟨m, hm⟩ := exists_follow_of_isPrefix hl
      (List.take_prefix_take_left (by omega : k ≤ j))
    cases hm.symm.trans hclosed
  have hkj : k ≤ j + 1 := by
    by_contra hc
    obtain ⟨m, hm⟩ := hbefore (j + 1) (by omega)
    cases hm.symm.trans hfree
  rw [show k = j + 1 by omega]

omit [DecidableEq Loc] [DecidableEq Ix] in
theorem missing_eq_zero_of_follow {σ : Store Loc Ix W}
    (h : ∀ k ≤ F.bottom, ∃ l, follow F σ 0 root (ν.take k) = some l) :
    missing F σ root ν = 0 := by
  rw [missing, Finset.card_eq_zero, Finset.filter_eq_empty_iff]
  intro k hk
  obtain ⟨l, hl⟩ := h k (Nat.lt_succ_iff.mp (Finset.mem_range.mp hk))
  rw [hl]
  exact Bool.false_ne_true

/-- Where nothing is missing nothing grows. -/
theorem GrowAlong.eq_of_missing_eq_zero (h : GrowAlong F supply root D ν s s')
    (hs : s.Good F supply root D) (hν : ν ∈ D) (hlen : F.bottom < ν.length)
    (hzero : missing F s.store root ν = 0) : s = s' := by
  rcases Relation.ReflTransGen.cases_head h with rfl | ⟨s₂, ⟨π, hp, hg⟩, -⟩
  · rfl
  · cases (hg.missing_eq hs hν hlen hp).symm.trans hzero

theorem Openings.Of.grow (ho : o.Of F root D s) (h : Grow F supply root D π s s')
    (hs : s.Good F supply root D) :
    Openings.Of F root D s' ⟨Insert.insert π o.opened, o.requests + 1⟩ where
  mem_opened ρ hρ hne := by
    rw [Finset.mem_insert, ho.mem_opened ρ hρ hne]
    constructor
    · rintro (rfl | ⟨l, hl⟩)
      · obtain ⟨a, -, ha, -⟩ := h.follow_self hs.sound hs.tree
        exact ⟨a, ha⟩
      · exact ⟨l, (h.extends hs.sound hs.tree).follow_eq hρ hl⟩
    · rintro ⟨l, hl⟩
      exact (h.follow_new hs hρ hl).imp id fun hl ↦ ⟨l, hl⟩
  requests_eq := by rw [h.calls_eq, ← ho.requests_eq]

theorem Openings.Of.fill {x : W} (ho : o.Of F root D s) (h : Fill F root D x π s s')
    (hs : s.Good F supply root D) : o.Of F root D s' where
  mem_opened ρ hρ hne := by
    rw [ho.mem_opened ρ hρ hne]
    exact ⟨fun ⟨l, hl⟩ ↦ ⟨l, (h.extends hs.tree).follow_eq hρ hl⟩,
      fun ⟨l, hl⟩ ↦ ⟨l, h.follow_new hs hρ hl⟩⟩
  requests_eq := by rw [h.calls_eq, ho.requests_eq]

variable {granted : ℕ → Bool} (hgranted : ∀ n, granted n = (supply n).isSome)

include hgranted

/-- Growing on the way to `ν`, until no table is missing or one is refused, opens the paths on
the way from the first that may be closed.  The induction is on how many are left. -/
theorem Openings.Of.growAlong (hν : ν ∈ D) {answer : Bool} (hlen : F.bottom < ν.length)
    (hend : answer = true ∧ s' = s₁ ∧ missing F s₁.store root ν = 0 ∨
      answer = false ∧ s' = s₁.refuse ∧ 0 < missing F s₁.store root ν ∧ supply s₁.calls = none)
    {n : ℕ} (hn : F.bottom + 1 - k = n) (hk : 0 < k) (ho : o.Of F root D s)
    (hs : s.Good F supply root D) (h : GrowAlong F supply root D ν s s₁)
    (hbefore : ∀ j < k, ∃ l, follow F s.store 0 root (ν.take j) = some l) :
    ∃ o', o.extend granted (waypoints F ν k) = (answer, o') ∧ o'.Of F root D s' := by
  induction n generalizing s k o with
  | zero =>
      have hzero : missing F s.store root ν = 0 :=
        missing_eq_zero_of_follow fun j hj ↦ hbefore j (by omega)
      obtain rfl := h.eq_of_missing_eq_zero hs hν hlen hzero
      rw [waypoints_eq_nil (by omega)]
      rcases hend with ⟨rfl, rfl, -⟩ | ⟨-, -, hpos, -⟩
      · exact ⟨o, rfl, ho⟩
      · omega
  | succ n ih =>
      have hmem : ν.take k ∈ D := D.mem_of_isPrefix hν (List.take_prefix k ν)
      have hne : ν.take k ≠ [] := by
        rw [← List.length_pos_iff, List.length_take]
        omega
      rw [waypoints_succ (by omega), Openings.extend]
      by_cases hopen : ν.take k ∈ o.opened
      · obtain ⟨l, hl⟩ := (ho.mem_opened _ hmem hne).mp hopen
        rw [if_pos hopen]
        refine ih (by omega) (Nat.succ_pos k) ho hs h fun j hj ↦ ?_
        rcases Nat.lt_succ_iff_lt_or_eq.mp hj with hj | rfl
        · exact hbefore j hj
        · exact ⟨l, hl⟩
      · have hclosed : follow F s.store 0 root (ν.take k) = none :=
          Option.eq_none_iff_forall_ne_some.mpr fun l hl ↦
            hopen ((ho.mem_opened _ hmem hne).mpr ⟨l, hl⟩)
        have hpos : 0 < missing F s.store root ν :=
          missing_pos (List.take_prefix k ν) (by rw [List.length_take]; omega) hclosed
        rw [if_neg hopen]
        rcases Relation.ReflTransGen.cases_head h with rfl | ⟨s₂, ⟨π, hp, hg⟩, hrest⟩
        · rcases hend with ⟨-, -, hzero⟩ | ⟨rfl, rfl, -, hnone⟩
          · omega
          · have hfalse : granted o.requests = false := by
              rw [hgranted, ho.requests_eq, hnone]
              rfl
            rw [hfalse, if_neg Bool.false_ne_true]
            exact ⟨_, rfl, ho.refuse⟩
        · obtain rfl := hg.eq_take hp hclosed hbefore
          obtain ⟨a, ha, hself, -⟩ := hg.follow_self hs.sound hs.tree
          have htrue : granted o.requests = true := by
            rw [hgranted, ho.requests_eq, ha]
            rfl
          rw [htrue, if_pos rfl]
          refine ih (by omega) (Nat.succ_pos _) (ho.grow hg hs) (hg.good hs) hrest fun i hi ↦ ?_
          rcases Nat.lt_succ_iff_lt_or_eq.mp hi with hi | rfl
          · obtain ⟨m, hm⟩ := hbefore i hi
            exact ⟨m, (hg.extends hs.sound hs.tree).follow_eq
              (D.mem_of_isPrefix hν (List.take_prefix i ν)) hm⟩
          · exact ⟨a, hself⟩

/-- An insertion at a free path opens the paths on its way, and fails if that does. -/
theorem Inserted.extend_eq {x : W} {r : Except (Refusal W) Unit}
    (h : Inserted F supply root D x ν s r s') (hs : s.Good F supply root D) (hν : ν ∈ D)
    (hlen : F.bottom < ν.length) (hfree : lookup F (s.table F root) [] ν = none)
    (ho : o.Of F root D s) :
    ∃ answer o', o.extend granted (waypoints F ν 1) = (answer, o') ∧ o'.Of F root D s' ∧
      r = if answer then .ok () else .error .noTable := by
  have hbefore : ∀ j < 1, ∃ l, follow F s.store 0 root (ν.take j) = some l := fun j hj ↦ by
    obtain rfl := Nat.lt_one_iff.mp hj
    exact ⟨root, rfl⟩
  cases h with
  | occupied h => cases h.symm.trans hfree
  | noTable _ hg hm hr =>
      obtain ⟨o', ho', hof⟩ := ho.growAlong hgranted hν hlen (.inr ⟨rfl, rfl, hm, hr⟩) rfl
        Nat.one_pos hs hg hbefore
      exact ⟨false, o', ho', hof, rfl⟩
  | ok _ hg hf =>
      obtain ⟨o', ho', hof⟩ := ho.growAlong hgranted hν hlen (.inl ⟨rfl, rfl, hf.missing_eq⟩) rfl
        Nat.one_pos hs hg hbefore
      exact ⟨true, o', ho', hof.fill hf (GrowAlong.good hg hs), rfl⟩

end Radix
