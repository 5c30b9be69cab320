import Elpytios.Bootinfo.Vaddr

/-!
# Page table entries

The entries of the four kinds of table, from `phys.rs`.  All of them are transparent
wrappers around a word; the unions `PdptEntry` and `PdEntry` are read as a node or as
a leaf according to bit 7.
-/

namespace Elpytios

def UNION_IS_LEAF : Word := (1 : Word) <<< 7

/-- The flag bits common to all entries. -/
@[ext]
structure Entry where
  bits : Word
deriving DecidableEq, Repr

namespace Entry

def PRESENT : Entry := ⟨(1 : Word) <<< 0⟩
def WRITABLE : Entry := ⟨(1 : Word) <<< 1⟩
def USER_MODE : Entry := ⟨(1 : Word) <<< 2⟩
def WRITE_THROUGH : Entry := ⟨(1 : Word) <<< 3⟩
def CACHE_DISABLED : Entry := ⟨(1 : Word) <<< 4⟩
def ACCESSED : Entry := ⟨(1 : Word) <<< 5⟩

def empty : Entry := ⟨0⟩

instance : OrOp Entry := ⟨fun a b ↦ ⟨a.bits ||| b.bits⟩⟩

@[simp] theorem bits_or (a b : Entry) : (a ||| b).bits = a.bits ||| b.bits := rfl

/-- `impl From<VFlags> for Entry`. -/
def ofVFlags (value : VFlags) : Entry :=
  let out := empty
  let out := if value.contains VFlags.WRITABLE then out ||| WRITABLE else out
  let out := if value.contains VFlags.USER_MODE then out ||| USER_MODE else out
  let out := if value.contains VFlags.WRITE_THROUGH then out ||| WRITE_THROUGH else out
  let out := if value.contains VFlags.CACHE_DISABLED then out ||| CACHE_DISABLED else out
  let out := if value.contains VFlags.ACCESSED then out ||| ACCESSED else out
  out

end Entry

/-- An entry that points to a table. -/
@[ext]
structure NodeEntry where
  bits : Word
deriving DecidableEq, Repr

namespace NodeEntry

def ADDRESS_MASK : Word := (((1 : Word) <<< 40) - 1) <<< 12

def new (entry : Entry) (addr : PAddr) : NodeEntry :=
  ⟨(entry.bits ||| Entry.PRESENT.bits) &&& ~~~ADDRESS_MASK ||| addr.addr &&& ADDRESS_MASK⟩

def child_addr (self : NodeEntry) : PAddr := PAddr.new (self.bits &&& ADDRESS_MASK)

def is_present (self : NodeEntry) : Bool := self.bits &&& Entry.PRESENT.bits != 0

end NodeEntry

/-- An entry read as a node or as a leaf. -/
inductive UnionEntry (Node Leaf : Type) where
  | Node (e : Node)
  | Leaf (e : Leaf)

/-- A leaf of a PDPT, which maps 1 GiB. -/
@[ext]
structure PdptLeafEntry where
  bits : Word
deriving DecidableEq, Repr

namespace PdptLeafEntry

def ADDRESS_MASK : Word := (((1 : Word) <<< 22) - 1) <<< 30

def addr (self : PdptLeafEntry) : PAddr := PAddr.new (self.bits &&& ADDRESS_MASK)

end PdptLeafEntry

/-- An entry of a PDPT. -/
@[ext]
structure PdptEntry where
  bits : Word
deriving DecidableEq, Repr

namespace PdptEntry

def node (node : NodeEntry) : PdptEntry := ⟨node.bits⟩

def kind (self : PdptEntry) : UnionEntry NodeEntry PdptLeafEntry :=
  if self.bits &&& UNION_IS_LEAF != 0 then .Leaf ⟨self.bits⟩ else .Node ⟨self.bits⟩

def is_present (self : PdptEntry) : Bool := self.bits &&& Entry.PRESENT.bits != 0

end PdptEntry

/-- A leaf of a PD, which maps 2 MiB. -/
@[ext]
structure PdLeafEntry where
  bits : Word
deriving DecidableEq, Repr

namespace PdLeafEntry

def ADDRESS_MASK : Word := (((1 : Word) <<< 31) - 1) <<< 21

def addr (self : PdLeafEntry) : PAddr := PAddr.new (self.bits &&& ADDRESS_MASK)

end PdLeafEntry

/-- An entry of a PD. -/
@[ext]
structure PdEntry where
  bits : Word
deriving DecidableEq, Repr

namespace PdEntry

def node (node : NodeEntry) : PdEntry := ⟨node.bits⟩

def kind (self : PdEntry) : UnionEntry NodeEntry PdLeafEntry :=
  if self.bits &&& UNION_IS_LEAF != 0 then .Leaf ⟨self.bits⟩ else .Node ⟨self.bits⟩

def is_present (self : PdEntry) : Bool := self.bits &&& Entry.PRESENT.bits != 0

end PdEntry

/-- An entry of a PT, which maps 4 KiB. -/
@[ext]
structure PtEntry where
  bits : Word
deriving DecidableEq, Repr

namespace PtEntry

def GLOBAL : PtEntry := ⟨(1 : Word) <<< 8⟩

def ADDRESS_MASK : Word := (((1 : Word) <<< 40) - 1) <<< 12

def empty : PtEntry := ⟨0⟩

instance : OrOp PtEntry := ⟨fun a b ↦ ⟨a.bits ||| b.bits⟩⟩

@[simp] theorem bits_or (a b : PtEntry) : (a ||| b).bits = a.bits ||| b.bits := rfl

def new (entry : Entry) (addr : PAddr) : PtEntry :=
  ⟨(entry.bits ||| Entry.PRESENT.bits) &&& ~~~ADDRESS_MASK ||| addr.addr &&& ADDRESS_MASK⟩

def addr (self : PtEntry) : PAddr := PAddr.new (self.bits &&& ADDRESS_MASK)

def is_present (self : PtEntry) : Bool := self.bits &&& Entry.PRESENT.bits != 0

end PtEntry

/-! ## The bits of an entry -/

namespace VFlags

@[simp] theorem contains_WRITABLE (f : VFlags) : f.contains WRITABLE = f.bits.getLsbD 0 :=
  Bits.and_bit_beq _ (by decide)

@[simp] theorem contains_USER_MODE (f : VFlags) : f.contains USER_MODE = f.bits.getLsbD 1 :=
  Bits.and_bit_beq _ (by decide)

@[simp] theorem contains_WRITE_THROUGH (f : VFlags) :
    f.contains WRITE_THROUGH = f.bits.getLsbD 2 := Bits.and_bit_beq _ (by decide)

@[simp] theorem contains_CACHE_DISABLED (f : VFlags) :
    f.contains CACHE_DISABLED = f.bits.getLsbD 3 := Bits.and_bit_beq _ (by decide)

@[simp] theorem contains_ACCESSED (f : VFlags) : f.contains ACCESSED = f.bits.getLsbD 4 :=
  Bits.and_bit_beq _ (by decide)

@[simp] theorem contains_GLOBAL (f : VFlags) : f.contains GLOBAL = f.bits.getLsbD 5 :=
  Bits.and_bit_beq _ (by decide)

end VFlags

@[simp] theorem NodeEntry.is_present_eq (e : NodeEntry) : e.is_present = e.bits.getLsbD 0 :=
  Bits.and_bit_ne_zero _ (by decide)

@[simp] theorem PdptEntry.is_present_eq (e : PdptEntry) : e.is_present = e.bits.getLsbD 0 :=
  Bits.and_bit_ne_zero _ (by decide)

@[simp] theorem PdEntry.is_present_eq (e : PdEntry) : e.is_present = e.bits.getLsbD 0 :=
  Bits.and_bit_ne_zero _ (by decide)

@[simp] theorem PtEntry.is_present_eq (e : PtEntry) : e.is_present = e.bits.getLsbD 0 :=
  Bits.and_bit_ne_zero _ (by decide)

theorem and_UNION_IS_LEAF (w : Word) : (w &&& UNION_IS_LEAF != 0) = w.getLsbD 7 :=
  Bits.and_bit_ne_zero _ (by decide)

theorem PdptEntry.kind_eq (e : PdptEntry) :
    e.kind = if e.bits.getLsbD 7 then .Leaf ⟨e.bits⟩ else .Node ⟨e.bits⟩ := by
  rw [kind, and_UNION_IS_LEAF]

theorem PdEntry.kind_eq (e : PdEntry) :
    e.kind = if e.bits.getLsbD 7 then .Leaf ⟨e.bits⟩ else .Node ⟨e.bits⟩ := by
  rw [kind, and_UNION_IS_LEAF]

/-- The address field of a 4 KiB entry and of a node is bits 12 to 51. -/
theorem getLsbD_ADDRESS_MASK (i : Nat) :
    NodeEntry.ADDRESS_MASK.getLsbD i = (decide (12 ≤ i) && decide (i < 52)) := by
  rw [NodeEntry.ADDRESS_MASK, Bits.getLsbD_fieldMask 40 12 i (by decide)]
  by_cases h : i < 52
  · simp [h, show i < 64 by omega]
  · simp [h]

/-- The five flags of `VFlags` below `GLOBAL` stand one bit higher in an entry. -/
theorem Entry.bits_ofVFlags (f : VFlags) : (Entry.ofVFlags f).bits = (f.bits &&& 31) <<< 1 := by
  have hmask : ∀ i, (31 : Word).getLsbD i = decide (i < 5) := fun i ↦ by
    rw [show (31 : Word) = BitVec.ofNat 64 (2 ^ 5 - 1) from rfl, BitVec.getLsbD_ofNat,
      Nat.testBit_two_pow_sub_one]
    by_cases h : i < 5
    · simp [h, show i < 64 by omega]
    · simp [h]
  apply BitVec.eq_of_getLsbD_eq
  intro i hi
  have hor : ∀ (c : Bool) (a b : Entry) (k : Nat), b.bits = (1 : Word) <<< k →
      (if c then a ||| b else a).bits.getLsbD i = (a.bits.getLsbD i || (c && decide (i = k))) := by
    intro c a b k hb
    cases c with
    | false => simp
    | true =>
        rw [if_pos rfl, bits_or, BitVec.getLsbD_or, hb, Bits.getLsbD_one_shiftLeft]
        simp only [hi, decide_true, Bool.true_and]
  simp only [ofVFlags, hor _ _ ACCESSED 5 rfl, hor _ _ CACHE_DISABLED 4 rfl,
    hor _ _ WRITE_THROUGH 3 rfl, hor _ _ USER_MODE 2 rfl, hor _ _ WRITABLE 1 rfl, empty,
    VFlags.contains_WRITABLE, VFlags.contains_USER_MODE, VFlags.contains_WRITE_THROUGH,
    VFlags.contains_CACHE_DISABLED, VFlags.contains_ACCESSED, BitVec.getLsbD_shiftLeft,
    BitVec.getLsbD_and, hmask]
  rcases i with _ | _ | _ | _ | _ | _ | i <;> simp

namespace NodeEntry

theorem getLsbD_new (entry : Entry) (a : PAddr) (i : Nat) :
    (new entry a).bits.getLsbD i =
      if 12 ≤ i ∧ i < 52 then a.addr.getLsbD i else entry.bits.getLsbD i || decide (i = 0) := by
  by_cases hi : i < 64
  · rw [new, BitVec.getLsbD_or, BitVec.getLsbD_and, BitVec.getLsbD_and, BitVec.getLsbD_not,
      getLsbD_ADDRESS_MASK, BitVec.getLsbD_or, Entry.PRESENT, Bits.getLsbD_one_shiftLeft]
    by_cases h₁ : 12 ≤ i <;> by_cases h₂ : i < 52 <;> simp [h₁, h₂, hi]
  · rw [if_neg (by omega), BitVec.getLsbD_of_ge _ _ (Nat.le_of_not_lt hi),
      BitVec.getLsbD_of_ge _ _ (Nat.le_of_not_lt hi)]
    simp; omega

@[simp] theorem child_addr_new (entry : Entry) (a : PAddr) :
    (new entry a).child_addr = ⟨a.addr &&& ADDRESS_MASK⟩ :=
  congrArg PAddr.mk (Bits.and_or_and_not _ _ _)

end NodeEntry

namespace PtEntry

theorem getLsbD_new (entry : Entry) (a : PAddr) (i : Nat) :
    (new entry a).bits.getLsbD i =
      if 12 ≤ i ∧ i < 52 then a.addr.getLsbD i else entry.bits.getLsbD i || decide (i = 0) :=
  NodeEntry.getLsbD_new entry a i

end PtEntry

/-! ## Pages -/

/-- The address of a page an entry has room for: 4 KiB aligned and below 2^52. -/
def PAddr.IsPage (a : PAddr) : Prop := a.addr.toNat % PAGE_SIZE = 0 ∧ a.addr.toNat < 2 ^ 52

instance (a : PAddr) : Decidable a.IsPage := inferInstanceAs (Decidable (_ ∧ _))

/-- The frame an address lies in, as an entry records it. -/
def PAddr.frame (a : PAddr) : PAddr := ⟨a.addr &&& NodeEntry.ADDRESS_MASK⟩

theorem PAddr.toNat_frame (a : PAddr) :
    a.frame.addr.toNat = a.addr.toNat % 2 ^ 52 / PAGE_SIZE * PAGE_SIZE :=
  Bits.toNat_and_fieldMask a.addr 40 12 (by decide)

theorem PAddr.isPage_frame (a : PAddr) : a.frame.IsPage := by
  rw [IsPage, toNat_frame, PAGE_SIZE]; omega

theorem PAddr.frame_eq_self {a : PAddr} (h : a.IsPage) : a.frame = a := by
  obtain ⟨h₁, h₂⟩ := h
  apply PAddr.ext
  apply BitVec.eq_of_toNat_eq
  rw [toNat_frame]
  simp only [PAGE_SIZE] at h₁ ⊢
  omega

end Elpytios
