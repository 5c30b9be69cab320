import Elpytios.Paging.Walk

/-!
# Mapping a page

`VirtualMap::map`, its two mappers and `VirtualMapBuilder`, from `virt.rs`.

The state is the memory of page tables and the number of calls made to
`new_page_table`, whose answers are a parameter.  A `&mut` to a table is what the mapper
makes of it: `LocalMapper` computes the physical address of the table, while
`RecursiveMapper` computes a virtual address, which the processor resolves through the
tables as they are at each access (`VirtualMapper.deref`).

`undefined` stands for what the source leaves undefined: an access through a
reference that reaches no table, and the `unreachable_unchecked` of the accessors.
-/

namespace Elpytios

open Radix

/-- The page tables, and how many of them have been asked for. -/
abbrev Tables := State Loc (Fin 512) Word

/-- The answers of `new_page_table`, first call to last. -/
abbrev NewPageTable := ℕ → Option PAddr

/-- How a computation ends when it does not return a value. -/
inductive Stop where
  | /-- Undefined behaviour. -/
    undefined
  | /-- A panic. -/
    panic
  | /-- An `Err` is returned. -/
    error (e : VirtualMapError)
deriving DecidableEq, Repr

/-- Computations on page tables. -/
abbrev MapM := EStateM Stop Tables

/-- The state a computation leaves behind, however it ends. -/
def after {σ α : Type} : EStateM.Result Stop σ α → σ
  | .ok _ s => s
  | .error _ s => s

@[simp] theorem after_ok {σ α : Type} (a : α) (s : σ) :
    after (.ok a s : EStateM.Result Stop σ α) = s := rfl

@[simp] theorem after_error {σ α : Type} (e : Stop) (s : σ) :
    after (.error e s : EStateM.Result Stop σ α) = s := rfl

/-- What a computation ends with. -/
def answer {σ α : Type} : EStateM.Result Stop σ α → Except Stop α
  | .ok a _ => .ok a
  | .error e _ => .error e

@[simp] theorem answer_ok {σ α : Type} (a : α) (s : σ) :
    answer (.ok a s : EStateM.Result Stop σ α) = .ok a := rfl

@[simp] theorem answer_error {σ α : Type} (e : Stop) (s : σ) :
    answer (.error e s : EStateM.Result Stop σ α) = .error e := rfl

theorem eq_ok_of_answer {σ α : Type} {r : EStateM.Result Stop σ α} {a : α}
    (h : answer r = .ok a) : r = .ok a (after r) := by
  cases r with
  | ok b s =>
      obtain rfl : b = a := by simpa using h
      rfl
  | error => simp at h

theorem eq_error_of_answer {σ α : Type} {r : EStateM.Result Stop σ α} {e : Stop}
    (h : answer r = .error e) : r = .error e (after r) := by
  cases r with
  | ok => simp at h
  | error e' s =>
      obtain rfl : e' = e := by simpa using h
      rfl

theorem run_bind_ok {σ α β : Type} {x : EStateM Stop σ α} {f : α → EStateM Stop σ β} {s s' : σ}
    {a : α} (h : x s = .ok a s') : (x >>= f) s = f a s' := by
  change EStateM.bind x f s = _
  rw [EStateM.bind, h]

theorem run_bind_error {σ α β : Type} {x : EStateM Stop σ α} {f : α → EStateM Stop σ β} {s s' : σ}
    {e : Stop} (h : x s = .error e s') : (x >>= f) s = .error e s' := by
  change EStateM.bind x f s = _
  rw [EStateM.bind, h]

/-- A sequence that returns was two computations that did. -/
theorem exists_of_run_bind_ok {σ α β : Type} {x : EStateM Stop σ α} {f : α → EStateM Stop σ β}
    {s s' : σ} {b : β} (h : (x >>= f) s = .ok b s') :
    ∃ a s₁, x s = .ok a s₁ ∧ f a s₁ = .ok b s' := by
  change EStateM.bind x f s = _ at h
  rw [EStateM.bind] at h
  cases hx : x s with
  | ok a s₁ => exact ⟨a, s₁, rfl, by simpa only [hx] using h⟩
  | error e s₁ => simp [hx] at h

@[simp] theorem run_pure {α : Type} (a : α) (s : Tables) : (pure a : MapM α) s = .ok a s := rfl

@[simp] theorem run_throw {α : Type} (e : Stop) (s : Tables) :
    (throw e : MapM α) s = .error e s := rfl

/-- Call `new_page_table`.  By its contract the page it returns is zeroed. -/
def newPageTable (new_page_table : NewPageTable) : MapM PAddr := fun s ↦
  match new_page_table s.calls with
  | none => .error (.error .PageTable) s.refuse
  | some a =>
      .ok a { store := s.store.put (.page a) PageTable.zeroed, calls := s.calls + 1 }

/-- Index a table of 512 entries, with a bounds check. -/
def index (i : Word) : MapM (Fin 512) :=
  if h : i.toNat < 512 then pure ⟨i.toNat, h⟩ else throw .panic

/-- Index a table of 512 entries; `unwrap_unchecked` makes a failed bounds check undefined. -/
def indexUnchecked (i : Word) : MapM (Fin 512) :=
  if h : i.toNat < 512 then pure ⟨i.toNat, h⟩ else throw .undefined

/-- Read an entry of the table at a location. -/
def readAt (l : Option Loc) (i : Fin 512) : MapM Word := fun s ↦
  match l.bind s.store with
  | none => .error .undefined s
  | some t => .ok (t i) s

/-- Write an entry of the table at a location. -/
def writeAt (l : Option Loc) (i : Fin 512) (e : Word) : MapM Unit := fun s ↦
  match l with
  | none => .error .undefined s
  | some l =>
      match s.store l with
      | none => .error .undefined s
      | some _ => .ok () (s.fill l i e)

/-! ## Mappers -/

/-- `sealed::VirtualMapper`.  `Ref` is what a `&mut` to a page table is. -/
class VirtualMapper (T : Type) (Ref : outParam Type) where
  reserved : T → VAddr → Bool
  pml4 : T → MapM Ref
  pdpt : T → (pml4_index : Word) → MapM Ref
  pd : T → (pml4_index pdpt_index : Word) → MapM Ref
  pt : T → (pml4_index pdpt_index pd_index : Word) → MapM Ref
  /-- The table an access through a reference goes to. -/
  deref : T → Ref → Memory → Option Loc

section

variable {T Ref : Type} [VirtualMapper T Ref]

/-- Read an entry through a reference. -/
def readEntry (mapper : T) (table : Ref) (i : Fin 512) : MapM Word := do
  readAt (VirtualMapper.deref mapper table (← get).store) i

/-- Write an entry through a reference. -/
def writeEntry (mapper : T) (table : Ref) (i : Fin 512) (e : Word) : MapM Unit := do
  writeAt (VirtualMapper.deref mapper table (← get).store) i e

end

/-- The mapper of a `VirtualMapBuilder`. -/
structure LocalMapper where
  /-- Where the `RefCell<Pml4Table>` is. -/
  table : Loc
  recursion_index : Word
deriving DecidableEq, Repr

namespace LocalMapper

def reserved (self : LocalMapper) (v_addr : VAddr) : Bool :=
  v_addr.info.pml4_index == self.recursion_index

def pml4 (self : LocalMapper) : MapM Loc := pure self.table

def pdpt (self : LocalMapper) (pml4_index : Word) : MapM Loc := do
  let e ← readAt self.table (← indexUnchecked pml4_index)
  return .page (NodeEntry.mk e).child_addr

def pd (self : LocalMapper) (pml4_index pdpt_index : Word) : MapM Loc := do
  let pdpt ← self.pdpt pml4_index
  let e ← readAt pdpt (← indexUnchecked pdpt_index)
  match (PdptEntry.mk e).kind with
  | .Node e => return .page e.child_addr
  | .Leaf _ => throw .undefined

def pt (self : LocalMapper) (pml4_index pdpt_index pd_index : Word) : MapM Loc := do
  let pd ← self.pd pml4_index pdpt_index
  let e ← readAt pd (← indexUnchecked pd_index)
  match (PdEntry.mk e).kind with
  | .Node e => return .page e.child_addr
  | .Leaf _ => throw .undefined

instance : VirtualMapper LocalMapper Loc where
  reserved := reserved
  pml4 := pml4
  pdpt := pdpt
  pd := pd
  pt := pt
  deref _ l _ := some l

end LocalMapper

/-- The mapper of a loaded `VirtualMap`. -/
structure RecursiveMapper where
  recursion_index : Word
  /-- Not a field of the source: the PML4 the processor walks from. -/
  cr3 : PAddr
deriving DecidableEq, Repr

namespace RecursiveMapper

def reserved (self : RecursiveMapper) (v_addr : VAddr) : Bool :=
  v_addr.info.pml4_index == self.recursion_index

def pml4 (self : RecursiveMapper) : VAddr := .from_info
  { page_offset := 0
    pt_index := self.recursion_index
    pd_index := self.recursion_index
    pdpt_index := self.recursion_index
    pml4_index := self.recursion_index }

def pdpt (self : RecursiveMapper) (pml4_index : Word) : VAddr := .from_info
  { page_offset := 0
    pt_index := pml4_index
    pd_index := self.recursion_index
    pdpt_index := self.recursion_index
    pml4_index := self.recursion_index }

def pd (self : RecursiveMapper) (pml4_index pdpt_index : Word) : VAddr := .from_info
  { page_offset := 0
    pt_index := pdpt_index
    pd_index := pml4_index
    pdpt_index := self.recursion_index
    pml4_index := self.recursion_index }

def pt (self : RecursiveMapper) (pml4_index pdpt_index pd_index : Word) : VAddr := .from_info
  { page_offset := 0
    pt_index := pd_index
    pd_index := pdpt_index
    pdpt_index := pml4_index
    pml4_index := self.recursion_index }

/-- The processor resolves a virtual address by the walk; an address that is not
canonical faults. -/
def deref (self : RecursiveMapper) (v : VAddr) (mem : Memory) : Option Loc :=
  if v.Canonical then (translate mem (.page self.cr3) v).map .page else none

instance : VirtualMapper RecursiveMapper VAddr where
  reserved := reserved
  pml4 self := pure self.pml4
  pdpt self i := pure (self.pdpt i)
  pd self i j := pure (self.pd i j)
  pt self i j k := pure (self.pt i j k)
  deref := deref

end RecursiveMapper

/-! ## `VirtualMap::map` -/

/-- What the `match`es of `map` see in an entry. -/
inductive Arm where
  | /-- The entry is not present. -/
    absent
  | /-- The entry maps memory at the given address. -/
    leaf (addr : PAddr)
  | /-- The entry points to a table. -/
    node
deriving DecidableEq, Repr

/-- The entry of a PML4 is never taken for a leaf. -/
def pml4Arm (e : Word) : Arm := if !(NodeEntry.mk e).is_present then .absent else .node

def pdptArm (e : Word) : Arm :=
  if !(PdptEntry.mk e).is_present then .absent
  else match (PdptEntry.mk e).kind with
    | .Leaf e => .leaf e.addr
    | .Node _ => .node

def pdArm (e : Word) : Arm :=
  if !(PdEntry.mk e).is_present then .absent
  else match (PdEntry.mk e).kind with
    | .Leaf e => .leaf e.addr
    | .Node _ => .node

def ptArm (e : Word) : Arm :=
  if (PtEntry.mk e).is_present then .leaf (PtEntry.mk e).addr else .absent

/-- The entry `map` stores in a PT. -/
def leafEntry (p_addr : PAddr) (flags : VFlags) : PtEntry :=
  PtEntry.new (Entry.ofVFlags flags) p_addr |||
    if flags.contains VFlags.GLOBAL then PtEntry.GLOBAL else PtEntry.empty

section Map

variable {T Ref : Type} [VirtualMapper T Ref] (mapper : T) (new_page_table : NewPageTable)
  (p_addr : PAddr) (v_addr : VAddr) (flags : VFlags)

/-- One of the first three `match`es of `map`: make sure the entry points to a table. -/
def matchNode (arm : Word → Arm) (table : Ref) (i : Word) : MapM Unit := do
  let i ← index i
  match arm (← readEntry mapper table i) with
  | .absent =>
      let a ← newPageTable new_page_table
      writeEntry mapper table i (NodeEntry.new Entry.WRITABLE a).bits
  | .leaf existing => throw (.error (.AlreadyMapped p_addr v_addr existing))
  | .node => pure ()

/-- The last `match` of `map`: store the entry of the page. -/
def matchLeaf (table : Ref) (i : Word) : MapM Unit := do
  let i ← index i
  match ptArm (← readEntry mapper table i) with
  | .leaf existing => throw (.error (.AlreadyMapped p_addr v_addr existing))
  | _ => writeEntry mapper table i (leafEntry p_addr flags).bits

def VirtualMap.map : MapM Unit :=
  if VirtualMapper.reserved mapper v_addr then throw (.error (.Reserved p_addr v_addr))
  else do
    let i := v_addr.info
    let pml4 ← VirtualMapper.pml4 mapper
    matchNode mapper new_page_table p_addr v_addr pml4Arm pml4 i.pml4_index
    let pdpt ← VirtualMapper.pdpt mapper i.pml4_index
    matchNode mapper new_page_table p_addr v_addr pdptArm pdpt i.pdpt_index
    let pd ← VirtualMapper.pd mapper i.pml4_index i.pdpt_index
    matchNode mapper new_page_table p_addr v_addr pdArm pd i.pd_index
    let pt ← VirtualMapper.pt mapper i.pml4_index i.pdpt_index i.pd_index
    matchLeaf mapper p_addr v_addr flags pt i.pt_index

end Map

/-! ## `VirtualMapBuilder` -/

/-- The builder.  The page tables it has made are in the state. -/
structure VirtualMapBuilder where
  map : LocalMapper
  new_page_table : NewPageTable

namespace VirtualMapBuilder

def new (recursion_index : Word) (new_page_table : NewPageTable) : VirtualMapBuilder where
  map := { table := .own, recursion_index }
  new_page_table

/-- The tables of a new builder: its own PML4, all zeros. -/
def tables : Tables where
  store := fun l ↦ if l = .own then some PageTable.zeroed else none
  calls := 0

/-- `VirtualMapBuilder::map`. -/
def mapPage (self : VirtualMapBuilder) (p_addr : PAddr) (v_addr : VAddr) (flags : VFlags) :
    MapM Unit :=
  VirtualMap.map self.map self.new_page_table p_addr v_addr flags

/-- Move the builder's own PML4 into the page at `a`. -/
def intoPage (a : PAddr) : MapM Unit := fun s ↦
  match s.store (.page a) with
  | none => .error .undefined s
  | some _ => .ok () { s with
      store := fun l ↦
        if l = .own then none else if l = .page a then s.store .own else s.store l }

def finish (self : VirtualMapBuilder) : MapM (PAddr × RecursiveMapper) := do
  let pml4_phys ← newPageTable self.new_page_table
  let i ← index self.map.recursion_index
  let e ← readAt self.map.table i
  if (NodeEntry.mk e).is_present then throw .panic
  else
    writeAt self.map.table i (NodeEntry.new Entry.WRITABLE pml4_phys).bits
    intoPage pml4_phys
    return (pml4_phys, { recursion_index := self.map.recursion_index, cr3 := pml4_phys })

end VirtualMapBuilder

/-! ## Sequences of calls -/

/-- The arguments of a call of `map`. -/
structure Call where
  p_addr : PAddr
  v_addr : VAddr
  flags : VFlags
deriving DecidableEq, Repr

/-- The tables after a sequence of calls of `map`, some of which may have failed. -/
def mapAll {T Ref : Type} [VirtualMapper T Ref] (mapper : T) (new_page_table : NewPageTable)
    (calls : List Call) (s : Tables) : Tables :=
  calls.foldl
    (fun s c ↦ after (VirtualMap.map mapper new_page_table c.p_addr c.v_addr c.flags s)) s

end Elpytios
