import Elpytios.Bootinfo.Paddr
import Mathlib.Data.List.Zip
import Mathlib.Logic.Function.Basic

/-!
# System calls on x86-64

The drivers of `abi/src/userspace/x86_64.rs`.  Each is an `asm!` block that puts the number of the
call and its arguments into registers and executes `syscall`.  The instruction overwrites `rcx` and
`r11`, which the blocks do not say.
-/

namespace Elpytios

inductive Register where
  | rax | rbx | rcx | rdx | rsi | rdi | rbp | rsp
  | r8 | r9 | r10 | r11 | r12 | r13 | r14 | r15
deriving DecidableEq, Repr

abbrev Registers := Register → Word

/-- The input operands of an `asm!` block. -/
abbrev Operands := List (Register × Word)

/-- The registers as the instruction finds them. -/
def Operands.load (operands : Operands) (regs : Registers) : Registers :=
  operands.foldl (fun regs operand ↦ Function.update regs operand.1 operand.2) regs

/-- The instruction `syscall` keeps the address to return to, and the flags. -/
def syscall (rip rflags : Word) (regs : Registers) : Registers :=
  Function.update (Function.update regs .rcx rip) .r11 rflags

/-- The registers as the kernel finds them. -/
def Operands.enter (operands : Operands) (rip rflags : Word) (regs : Registers) : Registers :=
  syscall rip rflags (operands.load regs)

def syscall0 (sys : Word) : Operands := [(.rax, sys)]

def syscall1 (sys a0 : Word) : Operands := [(.rax, sys), (.rdi, a0)]

def syscall2 (sys a0 a1 : Word) : Operands := [(.rax, sys), (.rdi, a0), (.rsi, a1)]

def syscall3 (sys a0 a1 a2 : Word) : Operands :=
  [(.rax, sys), (.rdi, a0), (.rsi, a1), (.rdx, a2)]

def syscall4 (sys a0 a1 a2 a3 : Word) : Operands :=
  [(.rax, sys), (.rdi, a0), (.rsi, a1), (.rdx, a2), (.r10, a3)]

def syscall5 (sys a0 a1 a2 a3 a4 : Word) : Operands :=
  [(.rax, sys), (.rdi, a0), (.rsi, a1), (.rdx, a2), (.r10, a3), (.r8, a4)]

def syscall6 (sys a0 a1 a2 a3 a4 a5 : Word) : Operands :=
  [(.rax, sys), (.rdi, a0), (.rsi, a1), (.rdx, a2), (.r10, a3), (.r8, a4), (.r9, a5)]

/-- The registers of the arguments, in order. -/
def argumentRegisters : List Register := [.rdi, .rsi, .rdx, .r10, .r8, .r9]

/-- The driver for a number of arguments.  There is none for more than six. -/
def driver (sys : Word) : List Word → Option Operands
  | [] => some (syscall0 sys)
  | [a0] => some (syscall1 sys a0)
  | [a0, a1] => some (syscall2 sys a0 a1)
  | [a0, a1, a2] => some (syscall3 sys a0 a1 a2)
  | [a0, a1, a2, a3] => some (syscall4 sys a0 a1 a2 a3)
  | [a0, a1, a2, a3, a4] => some (syscall5 sys a0 a1 a2 a3 a4)
  | [a0, a1, a2, a3, a4, a5] => some (syscall6 sys a0 a1 a2 a3 a4 a5)
  | _ => none

/-- All drivers are alike. -/
theorem driver_eq (sys : Word) {args : List Word} (h : args.length ≤ 6) :
    driver sys args = some ((.rax, sys) :: argumentRegisters.zip args) := by
  match args, h with
  | [], _ | [_], _ | [_, _], _ | [_, _, _], _ | [_, _, _, _], _ | [_, _, _, _, _], _
  | [_, _, _, _, _, _], _ => rfl
  | _ :: _ :: _ :: _ :: _ :: _ :: _ :: _, h => exact absurd h (by simp)

/-! ## What the registers hold -/

theorem load_cons (operand : Register × Word) (operands : Operands) (regs : Registers) :
    Operands.load (operand :: operands) regs =
      Operands.load operands (Function.update regs operand.1 operand.2) := rfl

/-- A register that no operand is for is as it was. -/
theorem load_of_notMem {operands : Operands} {r : Register} (h : r ∉ operands.map Prod.fst)
    (regs : Registers) : operands.load regs r = regs r := by
  induction operands generalizing regs with
  | nil => rfl
  | cons operand operands ih =>
      obtain ⟨hne, hnot⟩ := not_or.mp (mt List.mem_cons.mpr h)
      rw [load_cons, ih hnot, Function.update_of_ne hne]

/-- A register that one operand is for holds it. -/
theorem load_of_mem {operands : Operands} (hnodup : (operands.map Prod.fst).Nodup)
    {operand : Register × Word} (h : operand ∈ operands) (regs : Registers) :
    operands.load regs operand.1 = operand.2 := by
  induction operands generalizing regs with
  | nil => exact absurd h List.not_mem_nil
  | cons operand' operands ih =>
      obtain ⟨hnot, hnodup⟩ := List.nodup_cons.mp hnodup
      rw [load_cons]
      rcases List.mem_cons.mp h with rfl | h
      · rw [load_of_notMem hnot, Function.update_self]
      · exact ih hnodup h _

/-- The registers in which a call leaves its number and its arguments, for the kernel.  Those that
the instruction needs are lost, and no others. -/
structure Passes (sys : Word) (args : List Word) (rip rflags : Word) (regs regs' : Registers) :
    Prop where
  number : regs' .rax = sys
  argument : ∀ (k : ℕ) r a, argumentRegisters[k]? = some r → args[k]? = some a →
    regs' r = a
  rip : regs' .rcx = rip
  rflags : regs' .r11 = rflags
  others : ∀ r, r ∉ [.rax, .rcx, .r11] → r ∉ argumentRegisters.take args.length →
    regs' r = regs r

theorem syscall_of_notMem {r : Register} (h : r ∉ [.rcx, .r11]) (rip rflags : Word)
    (regs : Registers) : syscall rip rflags regs r = regs r := by
  have hne : r ≠ .rcx ∧ r ≠ .r11 := by simpa using h
  rw [syscall, Function.update_of_ne hne.2, Function.update_of_ne hne.1]

/-- The registers that a block says it uses. -/
theorem map_fst_operands (sys : Word) {args : List Word} (h : args.length ≤ 6) :
    ((Register.rax, sys) :: argumentRegisters.zip args).map Prod.fst =
      .rax :: argumentRegisters.take args.length := by
  have hmin : min argumentRegisters.length args.length = args.length := Nat.min_eq_right h
  rw [List.map_cons, List.zip_eq_zip_take_min, hmin, List.take_length,
    List.map_fst_zip (List.length_take_le ..)]

/-- The instruction overwrites none of them. -/
theorem notMem_saved {r : Register} {n : ℕ} (h : r ∈ .rax :: argumentRegisters.take n) :
    r ∉ [Register.rcx, .r11] := by
  have hall : ∀ r ∈ Register.rax :: argumentRegisters, r ∉ [Register.rcx, .r11] := by decide
  exact hall r ((List.Sublist.cons_cons _ (List.take_sublist ..)).subset h)

theorem passes_enter (sys : Word) {args : List Word} (h : args.length ≤ 6) (rip rflags : Word)
    (regs : Registers) :
    Passes sys args rip rflags regs
      (Operands.enter ((.rax, sys) :: argumentRegisters.zip args) rip rflags regs) := by
  have hfst := map_fst_operands sys h
  have hnodup : (((Register.rax, sys) :: argumentRegisters.zip args).map Prod.fst).Nodup := by
    rw [hfst]
    exact (by decide : (Register.rax :: argumentRegisters).Nodup).sublist
      (List.Sublist.cons_cons _ (List.take_sublist ..))
  have hload {operand : Register × Word}
      (hmem : operand ∈ (Register.rax, sys) :: argumentRegisters.zip args) :
      Operands.enter ((.rax, sys) :: argumentRegisters.zip args) rip rflags regs operand.1 =
        operand.2 := by
    have hsaved := notMem_saved (hfst ▸ List.mem_map_of_mem hmem)
    rw [Operands.enter, syscall_of_notMem hsaved, load_of_mem hnodup hmem]
  refine ⟨hload List.mem_cons_self, fun k r a hr ha ↦ ?_, rfl, rfl, fun r hne hr ↦ ?_⟩
  · have hmem : (r, a) ∈ argumentRegisters.zip args :=
      List.mem_of_getElem? (List.getElem?_zip_eq_some.mpr ⟨hr, ha⟩)
    exact hload (List.mem_cons_of_mem _ hmem)
  · obtain ⟨hrax, hsaved⟩ := not_or.mp (mt List.mem_cons.mpr hne)
    rw [Operands.enter, syscall_of_notMem hsaved]
    refine load_of_notMem ?_ regs
    rw [hfst]
    exact mt List.mem_cons.mp (not_or.mpr ⟨hrax, hr⟩)

/-- The number and the arguments can be read off the registers. -/
theorem Passes.inj {sys sys' rip rip' rflags rflags' : Word} {args args' : List Word}
    {regs₀ regs₀' regs : Registers} (h : Passes sys args rip rflags regs₀ regs)
    (h' : Passes sys' args' rip' rflags' regs₀' regs)
    (hlen : args.length = args'.length) (hle : args.length ≤ 6) : sys = sys' ∧ args = args' := by
  refine ⟨h.number.symm.trans h'.number, List.ext_getElem hlen fun k hk hk' ↦ ?_⟩
  have hr : argumentRegisters[k]? = some (argumentRegisters.get ⟨k, Nat.lt_of_lt_of_le hk hle⟩) :=
    List.getElem?_eq_getElem _
  exact (h.argument k _ _ hr (List.getElem?_eq_getElem hk)).symm.trans
    (h'.argument k _ _ hr (List.getElem?_eq_getElem hk'))

end Elpytios
