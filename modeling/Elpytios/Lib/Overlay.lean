import Mathlib.Data.List.Basic
import Mathlib.Logic.Function.Basic
import Mathlib.Tactic.Common
import Std.Data.ExtTreeMap.Lemmas

/-!
# Changes of a map

A map gives values to keys.  A change sets the value of a key, or removes it.  Changes of
different keys can be kept in a map of their own and made to another map later: each key then has
the value its change says, or the one it had (`toFun_foldl`).
-/

universe u v

namespace Overlay

variable {K : Type u} {V : Type v} [DecidableEq K]

/-- Make changes one after the other. -/
def applyAll (changes : List (K × Option V)) (m : K → Option V) : K → Option V :=
  changes.foldl (fun m change ↦ Function.update m change.1 change.2) m

theorem applyAll_of_notMem {changes : List (K × Option V)} {m : K → Option V} {key : K}
    (h : ∀ value, (key, value) ∉ changes) : applyAll changes m key = m key := by
  induction changes generalizing m with
  | nil => rfl
  | cons change changes ih =>
      have hne : key ≠ change.1 := fun heq ↦ h change.2 (heq ▸ List.mem_cons_self ..)
      have htail : ∀ value, (key, value) ∉ changes :=
        fun value hmem ↦ h value (List.mem_cons_of_mem change hmem)
      exact (ih htail).trans (Function.update_of_ne hne ..)

/-- Changes of different keys do not disturb each other. -/
theorem applyAll_of_mem {changes : List (K × Option V)} {m : K → Option V} {key : K}
    {value : Option V} (hkeys : changes.Pairwise fun a b ↦ a.1 ≠ b.1)
    (h : (key, value) ∈ changes) : applyAll changes m key = value := by
  induction changes generalizing m with
  | nil => cases h
  | cons change changes ih =>
      obtain ⟨hhead, htail⟩ := List.pairwise_cons.mp hkeys
      rcases List.mem_cons.mp h with rfl | hmem
      · have hrest : ∀ value', (key, value') ∉ changes := fun _ hmem ↦ hhead _ hmem rfl
        exact (applyAll_of_notMem hrest).trans (Function.update_self ..)
      · exact ih htail hmem

/-- Each key has the value its change says, or the one it had. -/
def overlaid (changes : K → Option (Option V)) (m : K → Option V) : K → Option V :=
  fun key ↦ (changes key).getD (m key)

/-- A change replaces the one before. -/
theorem overlaid_update (changes : K → Option (Option V)) (m : K → Option V) (key : K)
    (value : Option V) :
    overlaid (Function.update changes key (some value)) m =
      Function.update (overlaid changes m) key value := by
  funext other
  by_cases hother : other = key
  · subst hother
    rw [overlaid, Function.update_self, Function.update_self]
    rfl
  · rw [overlaid, Function.update_of_ne hother, Function.update_of_ne hother]
    rfl

/-- Forgetting the change of a key that had no value removes it. -/
theorem overlaid_forget (changes : K → Option (Option V)) {m : K → Option V} {key : K}
    (h : m key = none) :
    overlaid (Function.update changes key none) m =
      Function.update (overlaid changes m) key none := by
  funext other
  by_cases hother : other = key
  · subst hother
    rw [overlaid, Function.update_self, Function.update_self]
    exact h
  · rw [overlaid, Function.update_of_ne hother, Function.update_of_ne hother]
    rfl

section

variable [Ord K] [Std.TransOrd K] [Std.LawfulEqOrd K]

/-- The values of a map. -/
def toFun (m : Std.ExtTreeMap K V) : K → Option V := fun key ↦ m[key]?

omit [DecidableEq K] [Std.LawfulEqOrd K] in
@[simp] theorem toFun_empty : toFun (∅ : Std.ExtTreeMap K V) = fun _ ↦ none :=
  funext fun _ ↦ Std.ExtTreeMap.getElem?_empty

@[simp] theorem toFun_insert (m : Std.ExtTreeMap K V) (key : K) (value : V) :
    toFun (m.insert key value) = Function.update (toFun m) key (some value) := by
  funext other
  rw [toFun, Std.ExtTreeMap.getElem?_insert, Function.update_apply]
  simp only [Std.compare_eq_iff_eq, eq_comm (a := key)]
  rfl

@[simp] theorem toFun_erase (m : Std.ExtTreeMap K V) (key : K) :
    toFun (m.erase key) = Function.update (toFun m) key none := by
  funext other
  rw [toFun, Std.ExtTreeMap.getElem?_erase, Function.update_apply]
  simp only [Std.compare_eq_iff_eq, eq_comm (a := key)]
  rfl

/-- Make a change to a map. -/
def change (m : Std.ExtTreeMap K V) (key : K) : Option V → Std.ExtTreeMap K V
  | some value => m.insert key value
  | none => m.erase key

theorem toFun_change (m : Std.ExtTreeMap K V) (key : K) (value : Option V) :
    toFun (change m key value) = Function.update (toFun m) key value := by
  rcases value with - | value
  · exact toFun_erase m key
  · exact toFun_insert m key value

/-- The changes that are kept in a map are made to another one. -/
theorem toFun_foldl (changes : Std.ExtTreeMap K (Option V)) (m : Std.ExtTreeMap K V) :
    toFun (changes.foldl change m) = overlaid (toFun changes) (toFun m) := by
  have hfold (l : List (K × Option V)) (m : Std.ExtTreeMap K V) :
      toFun (l.foldl (fun m c ↦ change m c.1 c.2) m) = applyAll l (toFun m) := by
    induction l generalizing m with
    | nil => rfl
    | cons c l ih => rw [List.foldl_cons, ih, toFun_change]; rfl
  have hkeys : changes.toList.Pairwise fun a b ↦ a.1 ≠ b.1 :=
    changes.distinct_keys_toList.imp Std.ReflCmp.ne_of_cmp_ne_eq
  funext key
  rw [Std.ExtTreeMap.foldl_eq_foldl_toList, hfold, overlaid]
  rcases hvalue : toFun changes key with - | value
  · refine applyAll_of_notMem fun value hmem ↦ ?_
    cases hvalue.symm.trans (Std.ExtTreeMap.mem_toList_iff_getElem?_eq_some.mp hmem)
  · exact applyAll_of_mem hkeys (Std.ExtTreeMap.mem_toList_iff_getElem?_eq_some.mpr hvalue)

end

end Overlay
