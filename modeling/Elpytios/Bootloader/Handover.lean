import Elpytios.Bootloader.View

/-!
# Handing over to the kernel

`switch_to_kernel` is three instructions that load the page tables of the kernel, its stack and
its entry point.  The second and the third of them are fetched through the page tables that the
first one loads, so that the page they are on has to be where it is in both address spaces.  The
kernel begins with a jump to `main`, in the bytes of its file.

The processor here is one that executes just these instructions, from the bytes it finds in
memory through its page tables (`Processor.step`).  Started as `entry` starts it, it arrives at
`main` on the stack of the kernel (`kernel_started`).
-/

namespace Elpytios

open ByteOrder

/-! ## A processor -/

/-- The instructions of `switch_to_kernel` and of `jump_from_bootloader`. -/
inductive Instr where
  | /-- `mov cr3, rdi` -/
    movCr3Rdi
  | /-- `lea rsp, [rsi + disp]` -/
    leaRspRsi (disp : BitVec 8)
  | /-- `jmp rdx` -/
    jmpRdx
  | /-- `jmp`, by a distance from the instruction after it -/
    jmp (distance : BitVec 32)
deriving DecidableEq, Repr

namespace Instr

def encode : Instr → List Byte
  | .movCr3Rdi => [0x0F, 0x22, 0xDF]
  | .leaRspRsi disp => [0x48, 0x8D, 0x66, disp]
  | .jmpRdx => [0xFF, 0xE2]
  | .jmp distance => 0xE9 :: bytesOf .little 4 distance.toNat

/-- The instruction that some bytes begin with, and how many of them it is. -/
def decode : List Byte → Option (Instr × ℕ)
  | 0x0F :: 0x22 :: 0xDF :: _ => some (.movCr3Rdi, 3)
  | 0x48 :: 0x8D :: 0x66 :: disp :: _ => some (.leaRspRsi disp, 4)
  | 0xFF :: 0xE2 :: _ => some (.jmpRdx, 2)
  | 0xE9 :: a :: b :: c :: d :: _ => some (.jmp (field .little [a, b, c, d] 0 4), 5)
  | _ => none

theorem length_encode_le (instr : Instr) : instr.encode.length ≤ 15 := by
  cases instr <;> simp [encode]

/-- Instructions are decoded as what they were encoded from, whatever comes after them. -/
theorem decode_encode (instr : Instr) (rest : List Byte) :
    decode (instr.encode ++ rest) = some (instr, instr.encode.length) := by
  cases instr with
  | movCr3Rdi => rfl
  | leaRspRsi disp => rfl
  | jmpRdx => rfl
  | jmp distance =>
      have hslice : slice (bytesOf .little 4 distance.toNat) 0 4 =
          bytesOf .little 4 distance.toNat :=
        List.take_of_length_le (length_bytesOf .little 4 _).le
      have hfield : field .little (bytesOf .little 4 distance.toNat) 0 4 = distance :=
        field_of_slice (n := 4) hslice
      change some (Instr.jmp (field .little (bytesOf .little 4 distance.toNat) 0 4), 5) = _
      rw [hfield, encode, List.length_cons, length_bytesOf]

end Instr

/-- The registers that matter. -/
structure Processor where
  cr3 : PAddr
  rip : Word
  rsp : Word
  rdi : Word
  rsi : Word
  rdx : Word
deriving DecidableEq, Repr

namespace Processor

variable (mem : Bytes)

/-- The byte at an address, through the page tables in memory that are active. -/
def read (self : Processor) (a : Word) : Option Byte :=
  readVirtual mem self.cr3 ⟨a⟩

/-- At most `n` bytes from an address on, as far as they can be read. -/
def fetch (self : Processor) : ℕ → Word → List Byte
  | 0, _ => []
  | n + 1, a =>
      match self.read mem a with
      | none => []
      | some byte => byte :: fetch self n (a + 1)

/-- What an instruction of the given length does. -/
def execute (self : Processor) (length : ℕ) : Instr → Processor
  | .movCr3Rdi =>
      { self with cr3 := PAddr.frame ⟨self.rdi⟩, rip := self.rip + BitVec.ofNat 64 length }
  | .leaRspRsi disp =>
      { self with rsp := self.rsi + disp.signExtend 64, rip := self.rip + BitVec.ofNat 64 length }
  | .jmpRdx => { self with rip := self.rdx }
  | .jmp distance =>
      { self with rip := self.rip + BitVec.ofNat 64 length + distance.signExtend 64 }

/-- Execute an instruction.  An instruction is at most 15 bytes long. -/
def step (self : Processor) : Option Processor :=
  (Instr.decode (self.fetch mem 15 self.rip)).map fun r ↦ self.execute r.2 r.1

/-- Execute a number of instructions. -/
def steps : ℕ → Processor → Option Processor
  | 0, self => some self
  | n + 1, self => (self.step mem).bind (steps n)

variable {mem} {self : Processor}

/-- The bytes of an instruction are at an address. -/
def Holds (mem : Bytes) (self : Processor) (a : Word) (bytes : List Byte) : Prop :=
  ∀ (i : ℕ) (h : i < bytes.length), self.read mem (a + BitVec.ofNat 64 i) = some bytes[i]

theorem fetch_of_holds {a : Word} {bytes : List Byte} (h : self.Holds mem a bytes) {n : ℕ}
    (hn : bytes.length ≤ n) : ∃ rest, self.fetch mem n a = bytes ++ rest := by
  induction bytes generalizing a n with
  | nil => exact ⟨_, rfl⟩
  | cons byte bytes ih =>
      obtain ⟨n, rfl⟩ := Nat.exists_eq_add_of_le' (show 1 ≤ n from le_trans (by simp) hn)
      have hbyte : self.read mem a = some byte := by
        have h₀ := h 0 (Nat.succ_pos _)
        rwa [BitVec.add_zero] at h₀
      have hrest : self.Holds mem (a + 1) bytes := fun i hi ↦ by
        have hi' := h (i + 1) (by simpa using hi)
        rw [show BitVec.ofNat 64 (i + 1) = (1 : Word) + BitVec.ofNat 64 i by
          rw [Nat.add_comm, BitVec.ofNat_add]; rfl, ← BitVec.add_assoc] at hi'
        exact hi'
      obtain ⟨rest, hfetch⟩ := ih hrest (Nat.le_of_succ_le_succ (by simpa using hn))
      exact ⟨rest, by rw [fetch, hbyte, hfetch]; rfl⟩

/-- A processor executes the instruction it holds at its instruction pointer. -/
theorem step_of_holds (instr : Instr) (h : self.Holds mem self.rip instr.encode) :
    self.step mem = some (self.execute instr.encode.length instr) := by
  obtain ⟨rest, hfetch⟩ := fetch_of_holds h instr.length_encode_le
  rw [step, hfetch, Instr.decode_encode]
  rfl

theorem steps_succ (n : ℕ) :
    self.steps mem (n + 1) = (self.steps mem n).bind (step mem) := by
  induction n generalizing self with
  | zero =>
      rw [steps, steps, Option.bind_some]
      exact Option.bind_fun_some _
  | succ n ih =>
      rw [steps, steps, Option.bind_assoc]
      exact congrArg _ (funext fun _ ↦ ih)

end Processor

/-! ## The switch -/

/-- `switch_to_kernel`. -/
def switchToKernel : List Instr := [.movCr3Rdi, .leaRspRsi (-8), .jmpRdx]

/-- The code of `switch_to_kernel`. -/
def switcherCode : List Byte := switchToKernel.flatMap Instr.encode

/-- The processor as `entry` calls `switch_to_kernel`, with whatever page tables and stack. -/
def entryProcessor (firmware : Firmware) (kernel_entry : Word) (out : Handover) (cr3 : PAddr)
    (rsp : Word) : Processor where
  cr3
  rip := firmware.switcher_addr
  rsp
  rdi := out.pml4_phys.addr
  rsi := out.kernel_stack_base.addr
  rdx := kernel_entry

/-- In memory there is the code of the switcher, and page tables that leave its page where it
is. -/
structure Switches (firmware : Firmware) (cr3 : PAddr) (mem : Bytes) : Prop where
  code : ∀ (i : ℕ) (h : i < switcherCode.length),
    mem (firmware.switcher_addr.toNat + i) = switcherCode[i]
  identity : ∀ i < PAGE_SIZE, translate mem.tables (.page cr3)
    ⟨firmware.switcher_addr + BitVec.ofNat 64 i⟩ =
      some ⟨firmware.switcher_addr + BitVec.ofNat 64 i⟩

/-- The processor after `switch_to_kernel`. -/
def Processor.switched (kernel_entry : Word) (out : Handover) : Processor where
  cr3 := out.pml4_phys
  rip := kernel_entry
  rsp := out.kernel_stack_base.addr - 8
  rdi := out.pml4_phys.addr
  rsi := out.kernel_stack_base.addr
  rdx := kernel_entry

section

variable {segments : List ElfSegment64} {virtual_base next_v_addr : Word} {firmware : Firmware}
  {out : Handover} {mem : Bytes} {cr3 : PAddr} {self : Processor}
  (hboot : Bootable segments virtual_base next_v_addr firmware)
  (h : LaidOut segments virtual_base next_v_addr firmware out mem.tables)
  (hm : Switches firmware cr3 mem)

include hboot

theorem Bootable.toNat_switcher {i : ℕ} (hi : i < PAGE_SIZE) :
    (firmware.switcher_addr + BitVec.ofNat 64 i).toNat = firmware.switcher_addr.toNat + i := by
  have hlt := hboot.switcher_lt
  rw [BitVec.toNat_add, BitVec.toNat_ofNat]
  simp only [PAGE_SIZE] at hi
  omega

include h

/-- The page of the switcher is where it is for the kernel too. -/
theorem LaidOut.translate_switcher {i : ℕ} (hi : i < PAGE_SIZE) :
    translate mem.tables (.page out.pml4_phys) ⟨firmware.switcher_addr + BitVec.ofNat 64 i⟩ =
      some ⟨firmware.switcher_addr + BitVec.ofNat 64 i⟩ := by
  have hlt := hboot.switcher_lt
  have haligned := hboot.switcher
  have haddr := hboot.toNat_switcher hi
  simp only [PAGE_SIZE] at hi haligned
  have hintended : Intended segments virtual_base next_v_addr firmware _ _ _ := Intended.switcher
  have hpage : VAddr.pageNumber ⟨firmware.switcher_addr + BitVec.ofNat 64 i⟩ * PAGE_SIZE =
      firmware.switcher_addr.toNat := by
    rw [VAddr.pageNumber, haddr, PAGE_SIZE]
    omega
  obtain ⟨x, hx, hval⟩ := h.translate_eq
    (u := ⟨firmware.switcher_addr + BitVec.ofNat 64 i⟩) (by
      rw [Ne, Fin.ext_iff]
      change ¬ (firmware.switcher_addr + BitVec.ofNat 64 i).toNat / 2 ^ 39 % 512 = 510
      omega) (Or.inl (by rw [haddr]; omega)) (hpage.symm ▸ hintended)
  rw [hx]
  refine congrArg some (PAddr.ext (BitVec.eq_of_toNat_eq ?_))
  rw [hval, hpage]
  change firmware.switcher_addr.toNat +
      (firmware.switcher_addr + BitVec.ofNat 64 i).toNat % PAGE_SIZE =
    (firmware.switcher_addr + BitVec.ofNat 64 i).toNat
  rw [haddr, PAGE_SIZE]
  omega

include hm

/-- The code of the switcher is read at its own address, through either page tables. -/
theorem holds_switcher (self : Processor) (hcr3 : self.cr3 = cr3 ∨ self.cr3 = out.pml4_phys)
    (pre code post : List Byte) (hcode : switcherCode = pre ++ (code ++ post)) :
    self.Holds mem (firmware.switcher_addr + BitVec.ofNat 64 pre.length) code := by
  intro i hi
  have hlen : switcherCode.length = 9 := rfl
  rw [hcode, List.length_append, List.length_append] at hlen
  have hoff : pre.length + i < PAGE_SIZE := by
    rw [PAGE_SIZE]
    omega
  have hread : translate mem.tables (.page self.cr3)
      ⟨firmware.switcher_addr + BitVec.ofNat 64 (pre.length + i)⟩ =
        some ⟨firmware.switcher_addr + BitVec.ofNat 64 (pre.length + i)⟩ := by
    rcases hcr3 with hcr3 | hcr3
    · rw [hcr3, hm.identity _ hoff]
    · rw [hcr3, h.translate_switcher hboot hoff]
  have hbyte := hm.code (pre.length + i) (by rw [hcode]; simp; omega)
  rw [BitVec.add_assoc, ← BitVec.ofNat_add, Processor.read, readVirtual, hread, Option.map_some,
    hboot.toNat_switcher hoff, hbyte]
  simp [hcode, hi]

/-- The three instructions of the switcher. -/
theorem steps_switcher (hpage : out.pml4_phys.IsPage) (kernel_entry rsp : Word) :
    (entryProcessor firmware kernel_entry out cr3 rsp).steps mem 3 =
      some (.switched kernel_entry out) := by
  let cpu₀ := entryProcessor firmware kernel_entry out cr3 rsp
  let cpu₁ := cpu₀.execute 3 .movCr3Rdi
  let cpu₂ := cpu₁.execute 4 (.leaRspRsi (-8))
  have hcr3 : cpu₁.cr3 = out.pml4_phys := PAddr.frame_eq_self hpage
  have h₁ : cpu₀.step mem = some cpu₁ := by
    apply Processor.step_of_holds .movCr3Rdi
    have hholds := holds_switcher hboot h hm cpu₀ (Or.inl rfl) [] Instr.movCr3Rdi.encode _ rfl
    rwa [List.length_nil, BitVec.add_zero] at hholds
  have h₂ : cpu₁.step mem = some cpu₂ := by
    apply Processor.step_of_holds (.leaRspRsi (-8))
    exact holds_switcher hboot h hm cpu₁ (Or.inr hcr3) Instr.movCr3Rdi.encode
      (Instr.leaRspRsi (-8)).encode _ rfl
  have h₃ : cpu₂.step mem = some (cpu₂.execute 2 .jmpRdx) := by
    apply Processor.step_of_holds .jmpRdx
    have hholds := holds_switcher hboot h hm cpu₂ (Or.inr hcr3)
      (Instr.movCr3Rdi.encode ++ (Instr.leaRspRsi (-8)).encode) Instr.jmpRdx.encode [] rfl
    have hrip : cpu₂.rip = firmware.switcher_addr + BitVec.ofNat 64 7 := by
      change firmware.switcher_addr + BitVec.ofNat 64 3 + BitVec.ofNat 64 4 = _
      rw [BitVec.add_assoc]
      rfl
    rw [hrip]
    exact hholds
  rw [Processor.steps, h₁, Option.bind_some, Processor.steps, h₂, Option.bind_some,
    Processor.steps, h₃, Option.bind_some, Processor.steps]
  have hrsp : out.kernel_stack_base.addr + (-8 : BitVec 8).signExtend 64 =
      out.kernel_stack_base.addr - 8 := by
    rw [BitVec.sub_eq_add_neg]
    rfl
  change some (Processor.mk cpu₁.cr3 kernel_entry
    (out.kernel_stack_base.addr + (-8 : BitVec 8).signExtend 64) _ _ _) = _
  rw [hcr3, hrsp]
  rfl

end

/-! ## The kernel -/

/-- The entry point of the kernel is a jump to `main`, in the file and not under the boot
information. -/
structure StartsAt (file : List Byte) (k : Build) (boot_info : List Byte) (main : Word) : Prop where
  exists_jump : ∃ i < (programTable file).count, ∃ distance,
    (programHeader file i).segment_virtual_address.toNat ≤ k.program_entry.toNat ∧
    k.program_entry.toNat + 5 ≤ (programHeader file i).segment_virtual_address.toNat +
      (programHeader file i).segment_file_size.toNat ∧
    slice file ((programHeader file i).segment_offset.toNat +
      (k.program_entry.toNat - (programHeader file i).segment_virtual_address.toNat)) 5 =
        (Instr.jmp distance).encode ∧
    main = k.program_entry + 5 + distance.signExtend 64
  not_boot_info : k.program_entry.toNat + 5 ≤ k.bootinfo_address.toNat ∨
    k.bootinfo_address.toNat + boot_info.length ≤ k.program_entry.toNat

/-- The addresses of the stack can be read and written, and lead to the pages for it. -/
structure StackMapped (next_v_addr : Word) (firmware : Firmware) (out : Handover)
    (tables : Memory) : Prop where
  size : out.kernel_stack_base.addr.toNat = next_v_addr.toNat + KERNEL_STACK_PAGES * PAGE_SIZE
  mapped : ∀ a : VAddr, next_v_addr.toNat ≤ a.addr.toNat →
    a.addr.toNat < out.kernel_stack_base.addr.toNat →
    ∃ x w, translate tables (.page out.pml4_phys) a = some x ∧
      x.addr.toNat = firmware.stack_ptr.toNat + (a.addr.toNat - next_v_addr.toNat) ∧
      walk tables (.page out.pml4_phys) a = some w ∧ VirtualMapBuilder.Writable w

section

variable {segments : List ElfSegment64} {virtual_base next_v_addr : Word} {firmware : Firmware}
  {out : Handover} {tables : Memory}

theorem LaidOut.stackMapped (hboot : Bootable segments virtual_base next_v_addr firmware)
    (h : LaidOut segments virtual_base next_v_addr firmware out tables) :
    StackMapped next_v_addr firmware out tables where
  size := h.kernel_stack_base
  mapped a hlo hhi := by
    have hupper := hboot.next_upper
    have hnext := hboot.linked.next_aligned
    have hbase := h.kernel_stack_base
    simp only [PAGE_SIZE, KERNEL_STACK_PAGES] at hnext hbase
    have hslot : a.slot 3 ≠ 510 := slot_ne_of_upper (hupper.trans hlo)
    have hcanonical : a.Canonical := Or.inr (by omega)
    have hi : (a.addr.toNat - next_v_addr.toNat) / PAGE_SIZE < KERNEL_STACK_PAGES := by
      simp only [PAGE_SIZE, KERNEL_STACK_PAGES]
      omega
    have hintended : Intended segments virtual_base next_v_addr firmware _ _ _ :=
      Intended.stack hi
    rw [show next_v_addr.toNat + (a.addr.toNat - next_v_addr.toNat) / PAGE_SIZE * PAGE_SIZE =
      a.pageNumber * PAGE_SIZE by simp only [VAddr.pageNumber, PAGE_SIZE]; omega] at hintended
    obtain ⟨x, hx, hval⟩ := h.translate_eq hslot hcanonical hintended
    obtain ⟨w, hw, -, -, -, hwritable⟩ := h.mapped hslot hcanonical hintended
    refine ⟨x, w, hx, hval.trans ?_, hw, hwritable.mpr (by decide)⟩
    simp only [PAGE_SIZE]
    omega

end

/-- The bytes at the entry point are those of the file. -/
theorem KernelView.read_entry {file : List Byte} {k : Build} {firmware : Firmware}
    {boot_info : List Byte} {cr3 : PAddr} {mem : Bytes} (hbuilt : Built file k)
    (hboot : Bootable k.kernel_segments k.virtual_base k.next_v_addr firmware)
    (hloadable : Loadable k boot_info) (hview : KernelView file k boot_info cr3 mem)
    {i : ℕ} (hi : i < (programTable file).count) {code : List Byte}
    (hlo : (programHeader file i).segment_virtual_address.toNat ≤ k.program_entry.toNat)
    (hhi : k.program_entry.toNat + 5 ≤ (programHeader file i).segment_virtual_address.toNat +
      (programHeader file i).segment_file_size.toNat)
    (hcode : slice file ((programHeader file i).segment_offset.toNat +
      (k.program_entry.toNat - (programHeader file i).segment_virtual_address.toNat)) 5 = code)
    (hinfo : k.program_entry.toNat + 5 ≤ k.bootinfo_address.toNat ∨
      k.bootinfo_address.toNat + boot_info.length ≤ k.program_entry.toNat)
    {j : ℕ} (hj : j < code.length) :
    readVirtual mem cr3 ⟨k.program_entry + BitVec.ofNat 64 j⟩ = some code[j] := by
  obtain ⟨-, hcontents, -⟩ := hbuilt.buildable i hi
  have hmem : (segmentOf file (programHeader file i)) ∈ k.kernel_segments :=
    List.mem_of_getElem? (hbuilt.getElem? i hi)
  have hsize : (programHeader file i).segment_file_size.toNat ≤
      (programHeader file i).segment_memory_size.toNat := by
    have hlen : (slice file _ _).length ≤ _ := hloadable.length_le _ hmem
    rw [slice, List.length_take, List.length_drop] at hlen
    change _ ≤ (programHeader file i).segment_memory_size.toNat at hlen
    omega
  have hstop : (programHeader file i).segment_virtual_address.toNat +
      (programHeader file i).segment_memory_size.toNat ≤ k.next_v_addr.toNat :=
    hboot.linked.stop_le (segmentOf file (programHeader file i))
      (hbuilt.loads_eq.symm ▸ hmem)
  have hnext := k.next_v_addr.isLt
  have hj' : j < 5 := lt_of_lt_of_le hj (hcode ▸ length_slice_le ..)
  have haddr : (k.program_entry + BitVec.ofNat 64 j).toNat = k.program_entry.toNat + j := by
    rw [BitVec.toNat_add, BitVec.toNat_ofNat]
    omega
  have hbyte := slice_getElem? file ((programHeader file i).segment_offset.toNat +
    (k.program_entry.toNat - (programHeader file i).segment_virtual_address.toNat)) hj' (by omega)
  rw [hcode, List.getElem?_eq_getElem hj, Option.some_inj] at hbyte
  have hread := hview.segment i hi ⟨k.program_entry + BitVec.ofNat 64 j⟩
  rw [haddr] at hread
  rw [hread (by omega) (by omega) (by omega), if_pos (by omega), hbyte]
  congr 2
  omega

/-- When the bootloader begins, the code of the switcher is in memory, and so are page tables that
leave its page where it is, those of the firmware.  Nothing is allocated on top of them. -/
structure Resident (alloc : NewPageTable) (k : Build) (firmware : Firmware) (cr3 : PAddr)
    (mem : Bytes) : Prop where
  code : ∀ (i : ℕ) (h : i < switcherCode.length),
    mem (firmware.switcher_addr.toNat + i) = switcherCode[i]
  code_spared : ∀ i < switcherCode.length,
    Spared alloc k firmware (firmware.switcher_addr.toNat + i)
  exists_tables : ∃ tables : Memory,
    (∀ l t, tables l = some t → ∃ a, l = .page a ∧ mem.tables l = some t ∧
      ∀ j < PAGE_SIZE, Spared alloc k firmware (a.addr.toNat + j)) ∧
    ∀ i < PAGE_SIZE, translate tables (.page cr3) ⟨firmware.switcher_addr + BitVec.ofNat 64 i⟩ =
      some ⟨firmware.switcher_addr + BitVec.ofNat 64 i⟩

/-- They are still there when the bootloader has finished. -/
theorem Resident.switches {alloc : NewPageTable} {k : Build} {firmware : Firmware} {cr3 : PAddr}
    {mem mem' : Bytes} (h : Resident alloc k firmware cr3 mem)
    (hmem : ∀ p, Spared alloc k firmware p → mem' p = mem p) : Switches firmware cr3 mem' where
  code i hi := (hmem _ (h.code_spared i hi)).trans (h.code i hi)
  identity i hi := by
    obtain ⟨tables, htables, hidentity⟩ := h.exists_tables
    have hle : ∀ l t, tables l = some t → mem'.tables l = some t := fun l t ht ↦ by
      obtain ⟨a, rfl, hpage, hspared⟩ := htables l t ht
      exact (Bytes.tables_congr fun j hj ↦ hmem _ (hspared j hj)).trans hpage
    obtain ⟨w, hw, hx⟩ := Option.map_eq_some_iff.mp (hidentity i hi)
    rw [translate, walk_of_le hle hw, Option.map_some, hx]

/-- From the file of the kernel to its `main`: the bootloader does not panic, and a processor
that executes `switch_to_kernel` as it is called arrives after four instructions at the address
that the entry of the file jumps to, with the page tables that were built and with the stack
pointer just below the end of the stack, all of which is mapped to be written. -/
theorem kernel_started {file : List Byte} {k : Build} (h : build file = some k)
    {alloc : NewPageTable} (halloc : Documented alloc) {firmware : Firmware}
    (hboot : Bootable k.kernel_segments k.virtual_base k.next_v_addr firmware)
    (happart : Apart alloc firmware.kernel_ptr.toNat
      (imageEnd firmware.kernel_ptr k.virtual_base k.next_v_addr)) {boot_info : List Byte}
    (hloadable : Loadable k boot_info) {mem : Bytes}
    (hall : Ram.Granted alloc (bootKernel alloc k firmware boot_info) (Ram.start mem))
    {main : Word} (hmain : StartsAt file k boot_info main) {cr3 : PAddr}
    (hresident : Resident alloc k firmware cr3 mem) (rsp : Word) :
    ∃ out m cpu, bootKernel alloc k firmware boot_info (Ram.start mem) = .ok out m ∧
      (entryProcessor firmware k.program_entry out cr3 rsp).steps m.mem 4 = some cpu ∧
      cpu.cr3 = out.pml4_phys ∧ cpu.rip = main ∧ cpu.rsp = out.kernel_stack_base.addr - 8 ∧
      StackMapped k.next_v_addr firmware out m.mem.tables := by
  obtain ⟨out, m, s, hok, hbooted, hview, hspared⟩ :=
    exists_bootKernel h halloc hboot happart hloadable hall
  have hlaid := hbooted.laidOut_mem hboot
  have hswitch := steps_switcher hboot hlaid (hresident.switches hspared) hbooted.isPage
    k.program_entry rsp
  obtain ⟨⟨i, hi, distance, hlo, hhi, hjump, rfl⟩, hinfo⟩ := hmain
  have hstep : (Processor.switched k.program_entry out).step m.mem =
      some ((Processor.switched k.program_entry out).execute 5 (.jmp distance)) := by
    apply Processor.step_of_holds (.jmp distance)
    intro j hj
    exact hview.read_entry (built_of_build h) hboot hloadable hi hlo hhi hjump hinfo hj
  refine ⟨out, m, (Processor.switched k.program_entry out).execute 5 (.jmp distance), hok, ?_, rfl,
    rfl, rfl, hlaid.stackMapped hboot⟩
  rw [Processor.steps_succ, hswitch]
  exact hstep

/-! ## The small kernel is started -/

/-- Page tables that leave the first GiB where it is. -/
def firmwareTables : Memory
  | .page ⟨0x9000⟩ => some fun i ↦ if i.val = 0 then 0xA003 else 0
  | .page ⟨0xA000⟩ => some fun i ↦ if i.val = 0 then 0x83 else 0
  | _ => none

/-- Memory with these tables and the code of the switcher. -/
def firmwareMemory : Bytes :=
  (Bytes.copyFromNonoverlapping (fun _ ↦ 0xCC) 0x6000000 switcherCode).putTables firmwareTables

theorem translate_firmwareTables {v : VAddr} (hv : v.addr.toNat < 2 ^ 30) :
    translate firmwareTables (.page ⟨0x9000⟩) v = some ⟨v.addr⟩ := by
  have h3 : v.slot 3 = 0 := Fin.ext (by
    change v.addr.toNat / 2 ^ 39 % 512 = 0
    omega)
  have h2 : v.slot 2 = 0 := Fin.ext (by
    change v.addr.toNat / 2 ^ 30 % 512 = 0
    omega)
  have hwalk : walk firmwareTables (.page ⟨0x9000⟩) v = some ([0xA003], 0x83) := by
    rw [walk, h3]
    change (walkPdpt firmwareTables (.page ⟨0xA000⟩) v).map (Walk.under 0xA003) = _
    rw [walkPdpt, h2]
    rfl
  rw [translate, hwalk, Option.map_some]
  have hoff : v.addr.toNat % leafSize 1 = v.addr.toNat := Nat.mod_eq_of_lt hv
  change some (PAddr.mk (0#64 + BitVec.ofNat 64 (v.addr.toNat % leafSize 1))) = _
  rw [hoff, BitVec.zero_add, BitVec.ofNat_toNat, BitVec.setWidth_eq]

theorem spared_smallKernel {p : ℕ} (h : 0x8000 ≤ p) (h' : p < 0x100000 ∨ 0x102000 ≤ p) :
    Spared (firstPages 7) smallKernelBuild smallFirmware p := by
  refine ⟨fun ⟨hp, n, hn⟩ ↦ ?_, fun ⟨hlo, hhi⟩ ↦ ?_⟩
  · obtain ⟨hlt, haddr⟩ := toNat_of_firstPages (by omega) hn
    rw [toNat_pageOf hp] at haddr
    simp only [PAGE_SIZE] at haddr
    omega
  · have hstart : smallFirmware.kernel_ptr.toNat = 0x100000 := rfl
    have hend : imageEnd smallFirmware.kernel_ptr smallKernelBuild.virtual_base
        smallKernelBuild.next_v_addr = 0x102000 := by decide
    omega

theorem resident_smallKernel :
    Resident (firstPages 7) smallKernelBuild smallFirmware ⟨0x9000⟩ firmwareMemory where
  code i hi := by
    have hcode : ∀ i < 9, firmwareMemory (0x6000000 + i) = switcherCode.getD i 0 := by
      decide +kernel
    rw [← List.getD_eq_getElem _ 0 hi]
    exact hcode i hi
  code_spared i hi := spared_smallKernel (by change _ ≤ 0x6000000 + i; omega)
    (Or.inr (by change _ ≤ 0x6000000 + i; omega))
  exists_tables := by
    refine ⟨firmwareTables, fun l t ht ↦ ?_, fun i hi ↦ translate_firmwareTables ?_⟩
    · obtain ⟨a, rfl, ha⟩ : ∃ a, l = .page a ∧ (a = ⟨0x9000⟩ ∨ a = ⟨0xA000⟩) := by
        unfold firmwareTables at ht
        split at ht
        · exact ⟨_, rfl, Or.inl rfl⟩
        · exact ⟨_, rfl, Or.inr rfl⟩
        · cases ht
      have hpage : a.IsPage := by rcases ha with rfl | rfl <;> decide
      have haddr : 0x9000 ≤ a.addr.toNat ∧ a.addr.toNat ≤ 0xA000 := by
        rcases ha with rfl | rfl <;> decide
      refine ⟨a, rfl, Bytes.tables_putTables hpage ht, fun j hj ↦ ?_⟩
      rw [PAGE_SIZE] at hj
      exact spared_smallKernel (by omega) (Or.inl (by omega))
    · rw [bootable_smallKernel.toNat_switcher hi]
      rw [PAGE_SIZE] at hi
      change 0x6000000 + i < _
      omega

theorem startsAt_smallKernel :
    StartsAt smallKernel smallKernelBuild [1, 2, 3] 0xffffffff80000005 where
  exists_jump := ⟨0, by decide +kernel, 0, by decide +kernel, by decide +kernel, by decide +kernel,
    by decide +kernel⟩
  not_boot_info := Or.inl (by decide)

theorem kernel_started_smallKernel :
    ∃ out m cpu, bootKernel (firstPages 7) smallKernelBuild smallFirmware [1, 2, 3]
        (Ram.start firmwareMemory) = .ok out m ∧
      (entryProcessor smallFirmware smallKernelBuild.program_entry out ⟨0x9000⟩ 0).steps m.mem 4 =
        some cpu ∧
      cpu.cr3 = out.pml4_phys ∧ cpu.rip = 0xffffffff80000005 ∧
      cpu.rsp = out.kernel_stack_base.addr - 8 ∧
      StackMapped smallKernelBuild.next_v_addr smallFirmware out m.mem.tables :=
  kernel_started build_smallKernel (documented_firstPages (by omega)) bootable_smallKernel
    apart_smallKernel loadable_smallKernel (granted_smallKernel _)
    startsAt_smallKernel resident_smallKernel 0

end Elpytios
