import Mathlib.Algebra.Order.Group.Nat
import Mathlib.Data.List.Flatten
import Mathlib.Tactic.Common

/-!
# Blocks one after another

Where each block of a list lies when the blocks are put one after another.
-/

universe u

namespace Blocks

variable {α : Type u} {blocks blocks' : List (List α)} {block : List α} {k n size : ℕ}

/-- Where a block begins. -/
def place (blocks : List (List α)) (k : ℕ) : ℕ := (blocks.take k).flatten.length

theorem drop_place (blocks : List (List α)) (k : ℕ) :
    blocks.flatten.drop (place blocks k) = (blocks.drop k).flatten := by
  conv_lhs => rw [← List.take_append_drop k blocks, List.flatten_append]
  rw [place, List.take_append_drop]
  exact List.drop_left

/-- A block is found in its place. -/
theorem exists_drop_place (h : blocks[k]? = some block) :
    ∃ rest, blocks.flatten.drop (place blocks k) = block ++ rest := by
  obtain ⟨hk, rfl⟩ := List.getElem?_eq_some_iff.mp h
  rw [drop_place, List.drop_eq_getElem_cons hk, List.flatten_cons]
  exact ⟨_, rfl⟩

theorem take_drop_place (h : blocks[k]? = some block) (hn : block.length = n) :
    (blocks.flatten.drop (place blocks k)).take n = block := by
  obtain ⟨rest, hrest⟩ := exists_drop_place h
  rw [hrest, List.take_left' hn]

theorem place_le (blocks : List (List α)) (k : ℕ) : place blocks k ≤ blocks.flatten.length := by
  conv_rhs => rw [← List.take_append_drop k blocks, List.flatten_append, List.length_append]
  exact Nat.le_add_right _ _

theorem place_add_length_le (h : blocks[k]? = some block) :
    place blocks k + block.length ≤ blocks.flatten.length := by
  obtain ⟨rest, hrest⟩ := exists_drop_place h
  have hle := place_le blocks k
  have hlen := congrArg List.length hrest
  rw [List.length_drop, List.length_append] at hlen
  omega

theorem place_append_left (hk : k ≤ blocks.length) :
    place (blocks ++ blocks') k = place blocks k := by
  rw [place, List.take_append_of_le_length hk, place]

theorem place_append_right (blocks blocks' : List (List α)) (k : ℕ) :
    place (blocks ++ blocks') (blocks.length + k) = blocks.flatten.length + place blocks' k := by
  rw [place, List.take_length_add_append, List.flatten_append, List.length_append, place]

theorem length_flatten_of_length (h : ∀ block ∈ blocks, block.length = size) :
    blocks.flatten.length = size * blocks.length := by
  induction blocks with
  | nil => rfl
  | cons block blocks ih =>
      obtain ⟨hblock, hblocks⟩ := List.forall_mem_cons.mp h
      rw [List.flatten_cons, List.length_append, List.length_cons, hblock, ih hblocks, Nat.mul_succ,
        Nat.add_comm]

/-- Where a block begins if all have the same length. -/
theorem place_of_length (h : ∀ block ∈ blocks, block.length = size) (hk : k ≤ blocks.length) :
    place blocks k = size * k := by
  rw [place, length_flatten_of_length fun block hblock ↦ h block (List.mem_of_mem_take hblock),
    List.length_take_of_le hk]

end Blocks
