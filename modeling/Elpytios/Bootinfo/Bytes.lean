import Elpytios.Bootinfo.Paddr
import Mathlib.Data.Nat.Notation
import Mathlib.Tactic.Common

/-!
# Memory

Memory is a byte for every physical address.
-/

namespace Elpytios

/-- Physical memory. -/
abbrev Bytes := ℕ → Byte

namespace Bytes

/-- The bytes from an address on. -/
def read (mem : Bytes) (p n : ℕ) : List Byte := (List.range n).map fun j ↦ mem (p + j)

def copyFromNonoverlapping (mem : Bytes) (dst : ℕ) (data : List Byte) : Bytes := fun a ↦
  if dst ≤ a then (data[a - dst]?).getD (mem a) else mem a

def writeBytes (mem : Bytes) (dst : ℕ) (val : Byte) (count : ℕ) : Bytes := fun a ↦
  if dst ≤ a ∧ a < dst + count then val else mem a

theorem read_congr {mem mem' : Bytes} {p n : ℕ} (h : ∀ j < n, mem' (p + j) = mem (p + j)) :
    mem'.read p n = mem.read p n :=
  List.map_congr_left fun j hj ↦ h j (List.mem_range.mp hj)

theorem read_eq {mem : Bytes} {p n : ℕ} {data : List Byte} (hn : data.length = n)
    (h : ∀ (j : ℕ) (hj : j < data.length), mem (p + j) = data[j]) : mem.read p n = data := by
  subst hn
  apply List.ext_getElem
  · rw [read, List.length_map, List.length_range]
  · intro j _ hj
    simp only [read, List.getElem_map, List.getElem_range, h j hj]

theorem copyFromNonoverlapping_of_notMem (mem : Bytes) {dst a : ℕ} {data : List Byte}
    (h : ¬ (dst ≤ a ∧ a < dst + data.length)) : mem.copyFromNonoverlapping dst data a = mem a := by
  rw [copyFromNonoverlapping]
  split_ifs with hle
  · rw [List.getElem?_eq_none (by omega), Option.getD_none]
  · rfl

theorem copyFromNonoverlapping_add (mem : Bytes) (dst : ℕ) {k : ℕ} {data : List Byte}
    (h : k < data.length) : mem.copyFromNonoverlapping dst data (dst + k) = data[k] := by
  rw [copyFromNonoverlapping, if_pos (Nat.le_add_right _ _), Nat.add_sub_cancel_left,
    List.getElem?_eq_getElem h, Option.getD_some]

/-- What a byte becomes does not depend on other bytes. -/
theorem copyFromNonoverlapping_congr {mem mem' : Bytes} {a : ℕ} (h : mem' a = mem a) (dst : ℕ)
    (data : List Byte) :
    mem'.copyFromNonoverlapping dst data a = mem.copyFromNonoverlapping dst data a := by
  rw [copyFromNonoverlapping, copyFromNonoverlapping, h]

theorem writeBytes_congr {mem mem' : Bytes} {a : ℕ} (h : mem' a = mem a) (dst : ℕ) (val : Byte)
    (count : ℕ) : mem'.writeBytes dst val count a = mem.writeBytes dst val count a := by
  rw [writeBytes, writeBytes, h]

theorem writeBytes_of_notMem (mem : Bytes) {dst a : ℕ} {val : Byte} {count : ℕ}
    (h : ¬ (dst ≤ a ∧ a < dst + count)) : mem.writeBytes dst val count a = mem a := if_neg h

theorem writeBytes_of_mem (mem : Bytes) {dst a : ℕ} {val : Byte} {count : ℕ}
    (h : dst ≤ a ∧ a < dst + count) : mem.writeBytes dst val count a = val := if_pos h

end Bytes

end Elpytios
