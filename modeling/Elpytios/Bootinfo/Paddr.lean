/-!
# Physical addresses

`usize` is 64 bits wide on the only supported target (`x86_64/mod.rs` asserts it), so
a word is a `BitVec 64` and its arithmetic wraps.
-/

namespace Elpytios

/-- A `usize`. -/
abbrev Word := BitVec 64

/-- A byte. -/
abbrev Byte := BitVec 8

/-- `bootinfo/src/lib.rs`. -/
def PAGE_SIZE : Nat := 4096

/-- `bootinfo/src/lib.rs`. -/
def MAX_MEMORY_REGIONS : Nat := 128

/-- A physical address. -/
@[ext]
structure PAddr where
  /-- The address. -/
  addr : Word
deriving DecidableEq, Repr, Inhabited

namespace PAddr

def new (addr : Word) : PAddr := ⟨addr⟩

def byte_add (self : PAddr) (offset : Word) : PAddr := ⟨self.addr + offset⟩

@[simp] theorem addr_new (a : Word) : (PAddr.new a).addr = a := rfl

end PAddr

end Elpytios
