import Elpytios.Bootinfo.Phys
import Elpytios.Lib.Radix.Insert

/-!
# The four-level walk

What the processor does with a table tree, from the x86-64 manuals: bits 39 to 47,
30 to 38, 21 to 29 and 12 to 20 of an address select an entry of the PML4, of a
PDPT, of a PD and of a PT.  An entry with bit 0 clear ends the walk with nothing.
Bit 7 makes an entry of a PDPT or of a PD a leaf that maps 1 GiB or 2 MiB; in the
PML4 it is reserved and faults.

`walk` is written out level by level.  `walk_eq_lookup` shows that it is the lookup of
the radix tree whose words are read by the format `x86`, which is how the rest of the
development reasons about it.
-/

namespace Elpytios

open Radix

/-- Where a page table is kept: in the page at a physical address, or, for the PML4 of a
`VirtualMapBuilder`, inside the builder. -/
inductive Loc where
  | /-- The builder's own `RefCell<Pml4Table>`. -/
    own
  | /-- The page at a physical address. -/
    page (a : PAddr)
deriving DecidableEq, Repr

/-- A page table: 512 entries of 8 bytes fill a page. -/
abbrev PageTable := Fin 512 → Word

/-- The memory of page tables.  A location that holds no page table is not to be
dereferenced. -/
abbrev Memory := Store Loc (Fin 512) Word

/-- A page of zeros. -/
def PageTable.zeroed : PageTable := fun _ ↦ 0

/-! ## Entries -/

/-- Bit 0: the entry is present. -/
def present (e : Word) : Bool := e.getLsbD 0

/-- Bit 7: the entry is a leaf, where there can be one. -/
def pageSize (e : Word) : Bool := e.getLsbD 7

/-- The table an entry points to, bits 12 to 51. -/
def nextTable (e : Word) : Loc := .page (PAddr.frame ⟨e⟩)

/-- How the processor reads an entry of a table at depth `n`, the PML4 being at depth 0. -/
def decode : ℕ → Word → Slot Loc
  | 0, e => if present e then if pageSize e then .empty else .node (nextTable e) else .empty
  | 1, e | 2, e => if present e then if pageSize e then .leaf else .node (nextTable e) else .empty
  | _, e => if present e then .leaf else .empty

/-- The word that links to a table, as `VirtualMap::map` writes it. -/
def linkEntry : Loc → Word
  | .own => 0
  | .page a => (NodeEntry.new Entry.WRITABLE a).bits

@[simp] theorem present_zeroed (i : Fin 512) : present (PageTable.zeroed i) = false := by
  simp [PageTable.zeroed, present]

theorem nextTable_new (entry : Entry) (a : PAddr) :
    nextTable (NodeEntry.new entry a).bits = .page a.frame :=
  congrArg Loc.page (NodeEntry.child_addr_new entry a)

theorem present_new (entry : Entry) (a : PAddr) : present (NodeEntry.new entry a).bits = true := by
  rw [present, NodeEntry.getLsbD_new]; simp

theorem pageSize_new (entry : Entry) (a : PAddr) :
    pageSize (NodeEntry.new entry a).bits = entry.bits.getLsbD 7 := by
  rw [pageSize, NodeEntry.getLsbD_new]; simp

theorem decode_of_node {n : ℕ} (hn : n < 3) {e : Word} (h₁ : present e = true)
    (h₂ : pageSize e = false) : decode n e = .node (nextTable e) := by
  obtain rfl | rfl | rfl : n = 0 ∨ n = 1 ∨ n = 2 := by omega
  all_goals simp [decode, h₁, h₂]

theorem decode_of_not_present {n : ℕ} {e : Word} (h : present e = false) :
    decode n e = .empty := by
  match n with
  | 0 | 1 | 2 | _ + 3 => simp [decode, h]

theorem decode_of_leaf {n : ℕ} (hn : n = 1 ∨ n = 2) {e : Word} (h₁ : present e = true)
    (h₂ : pageSize e = true) : decode n e = .leaf := by
  rcases hn with rfl | rfl <;> simp [decode, h₁, h₂]

theorem decode_bottom {e : Word} (h : present e = true) : decode 3 e = .leaf := by
  simp [decode, h]

theorem decode_eq_node {n : ℕ} {e : Word} {l : Loc} (h : decode n e = .node l) :
    n < 3 ∧ present e = true ∧ pageSize e = false ∧ l = nextTable e := by
  match n with
  | 0 | 1 | 2 =>
      cases h₁ : present e <;> cases h₂ : pageSize e <;> simp_all [decode]
  | n + 3 => cases h₁ : present e <;> simp_all [decode]

/-- The entries of the four kinds of table as the words of a radix tree. -/
def x86 : Format Loc Word where
  decode := decode
  bottom := 3
  link := linkEntry
  blank := 0
  Linkable
    | .own => False
    | .page a => a.IsPage
  decode_link := by
    rintro n hn (_ | a) ha
    · exact ha.elim
    · rw [linkEntry, decode_of_node hn (present_new _ _) (by rw [pageSize_new]; rfl), nextTable_new,
        PAddr.frame_eq_self ha]
  decode_blank n := decode_of_not_present rfl
  decode_bottom n hn w l h := absurd (decode_eq_node h).1 (by omega)

@[simp] theorem x86_decode : x86.decode = decode := rfl

/-! ## The walk -/

/-- The entries above the leaf and the leaf entry a walk ends in. -/
abbrev Walk := List Word × Word

/-- Put an entry on top of those walked below it. -/
def Walk.under (e : Word) (w : Walk) : Walk := (e :: w.1, w.2)

theorem Walk.under_eq (e : Word) : Walk.under e = fun w ↦ (e :: w.1, w.2) := rfl

/-- Walk a PT. -/
def walkPt (mem : Memory) (pt : Loc) (v : VAddr) : Option Walk :=
  (mem pt).bind fun t ↦
    let e := t (v.slot 0)
    if present e then some ([], e) else none

/-- Walk a PD. -/
def walkPd (mem : Memory) (pd : Loc) (v : VAddr) : Option Walk :=
  (mem pd).bind fun t ↦
    let e := t (v.slot 1)
    if present e then
      if pageSize e then some ([], e) else (walkPt mem (nextTable e) v).map (Walk.under e)
    else none

/-- Walk a PDPT. -/
def walkPdpt (mem : Memory) (pdpt : Loc) (v : VAddr) : Option Walk :=
  (mem pdpt).bind fun t ↦
    let e := t (v.slot 2)
    if present e then
      if pageSize e then some ([], e) else (walkPd mem (nextTable e) v).map (Walk.under e)
    else none

/-- Walk the tables from a PML4 for an address. -/
def walk (mem : Memory) (pml4 : Loc) (v : VAddr) : Option Walk :=
  (mem pml4).bind fun t ↦
    let e := t (v.slot 3)
    if present e then
      if pageSize e then none else (walkPdpt mem (nextTable e) v).map (Walk.under e)
    else none

/-- The physical base of the region a leaf maps, given how many entries stand above it:
1 GiB below one entry, 2 MiB below two and 4 KiB below three. -/
def leafBase (above : ℕ) (e : Word) : PAddr :=
  match above with
  | 1 => ⟨e &&& (((1 : Word) <<< 22) - 1) <<< 30⟩
  | 2 => ⟨e &&& (((1 : Word) <<< 31) - 1) <<< 21⟩
  | _ => ⟨e &&& (((1 : Word) <<< 40) - 1) <<< 12⟩

/-- The size of that region. -/
def leafSize (above : ℕ) : ℕ :=
  match above with
  | 1 => 2 ^ 30
  | 2 => 2 ^ 21
  | _ => 2 ^ 12

/-- The physical address a virtual address translates to. -/
def translate (mem : Memory) (root : Loc) (v : VAddr) : Option PAddr :=
  (walk mem root v).map fun w ↦
    ⟨(leafBase w.1.length w.2).addr + BitVec.ofNat 64 (v.addr.toNat % leafSize w.1.length)⟩

theorem walkPt_eq (mem : Memory) (l : Loc) (v : VAddr) :
    walkPt mem l v = descend x86 mem 3 l [v.slot 0] := by
  rw [walkPt, descend]
  congr 1
  funext t
  cases h : present (t (v.slot 0)) <;> simp [decode, h]

theorem walkPd_eq (mem : Memory) (l : Loc) (v : VAddr) :
    walkPd mem l v = descend x86 mem 2 l [v.slot 1, v.slot 0] := by
  rw [walkPd, descend]
  congr 1
  funext t
  cases h : present (t (v.slot 1)) <;> cases h' : pageSize (t (v.slot 1)) <;>
    simp [decode, h, h', walkPt_eq, Walk.under_eq]

theorem walkPdpt_eq (mem : Memory) (l : Loc) (v : VAddr) :
    walkPdpt mem l v = descend x86 mem 1 l [v.slot 2, v.slot 1, v.slot 0] := by
  rw [walkPdpt, descend]
  congr 1
  funext t
  cases h : present (t (v.slot 2)) <;> cases h' : pageSize (t (v.slot 2)) <;>
    simp [decode, h, h', walkPd_eq, Walk.under_eq]

/-- The walk is the lookup in the tree of tables. -/
theorem walk_eq_lookup (mem : Memory) (root : Loc) (v : VAddr) :
    walk mem root v = lookup x86 (tableAt x86 mem root) [] v.path := by
  rw [lookup_eq_descend (follow_nil 0 root), walk, VAddr.path, descend]
  congr 1
  funext t
  cases h : present (t (v.slot 3)) <;> cases h' : pageSize (t (v.slot 3)) <;>
    simp [decode, h, h', walkPdpt_eq, Walk.under_eq]

/-- A walk that finds something finds it among more tables. -/
theorem walk_of_le {mem mem' : Memory} (h : ∀ l t, mem l = some t → mem' l = some t) {root : Loc}
    {v : VAddr} {w : Walk} (hw : walk mem root v = some w) : walk mem' root v = some w := by
  rw [walk_eq_lookup, lookup_eq_descend (follow_nil 0 root)] at hw ⊢
  exact descend_of_le h hw

end Elpytios
