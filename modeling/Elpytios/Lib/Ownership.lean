import Mathlib.Data.List.Basic
import Mathlib.Data.List.Perm.Basic
import Mathlib.Tactic.Common

/-!
# Values that are made, kept and dropped

A component makes values, keeps them in several places, and drops them.  Its books are in
order (`Owned`) if every value that was made is kept in exactly one place, or has been dropped
exactly once.  Making a value, moving it and dropping it leave them in order.
-/

universe u

variable {α : Type u}

/-- The values that were made are those that are kept and those that were dropped. -/
structure Owned (made kept dropped : List α) : Prop where
  nodup : made.Nodup
  perm : made.Perm (kept ++ dropped)

namespace Owned

variable {made kept kept' dropped : List α} {value : α}

theorem nil : Owned ([] : List α) [] [] := ⟨.nil, .nil⟩

/-- It does not matter where a value is kept. -/
theorem move (h : Owned made kept dropped) (hkept : kept.Perm kept') :
    Owned made kept' dropped :=
  ⟨h.nodup, h.perm.trans (hkept.append_right dropped)⟩

theorem make (h : Owned made kept dropped) (hvalue : value ∉ made) :
    Owned (value :: made) (value :: kept) dropped :=
  ⟨List.nodup_cons.mpr ⟨hvalue, h.nodup⟩, h.perm.cons value⟩

theorem drop (h : Owned made (value :: kept) dropped) : Owned made kept (value :: dropped) :=
  ⟨h.nodup, h.perm.trans List.perm_middle.symm⟩

theorem nodup_append (h : Owned made kept dropped) : (kept ++ dropped).Nodup :=
  h.perm.nodup_iff.mp h.nodup

/-- No value is used after it was dropped. -/
theorem notMem_dropped (h : Owned made kept dropped) (hvalue : value ∈ kept) : value ∉ dropped :=
  fun hdropped ↦ (List.nodup_append.mp h.nodup_append).2.2 value hvalue value hdropped rfl

end Owned
