import Elpytios.Personality.Dwarf

/-!
# Landing pads

`std/sys-src/personality/dwarf/eh.rs`: the action for an instruction pointer is looked up in the
language-specific data area of its function.  An area that is laid out as `Lsda.bytes` says leads
to the first call site that covers the instruction pointer (`find_eh_action_bytes`).
-/

namespace Elpytios

open ByteOrder Leb128 DwarfReader

@[match_pattern] abbrev DW_EH_PE_omit : Byte := 0xFF
@[match_pattern] abbrev DW_EH_PE_absptr : Byte := 0x00
@[match_pattern] abbrev DW_EH_PE_uleb128 : Byte := 0x01
@[match_pattern] abbrev DW_EH_PE_udata2 : Byte := 0x02
@[match_pattern] abbrev DW_EH_PE_udata4 : Byte := 0x03
@[match_pattern] abbrev DW_EH_PE_udata8 : Byte := 0x04
@[match_pattern] abbrev DW_EH_PE_sleb128 : Byte := 0x09
@[match_pattern] abbrev DW_EH_PE_sdata2 : Byte := 0x0A
@[match_pattern] abbrev DW_EH_PE_sdata4 : Byte := 0x0B
@[match_pattern] abbrev DW_EH_PE_sdata8 : Byte := 0x0C
@[match_pattern] abbrev DW_EH_PE_pcrel : Byte := 0x10
@[match_pattern] abbrev DW_EH_PE_textrel : Byte := 0x20
@[match_pattern] abbrev DW_EH_PE_datarel : Byte := 0x30
@[match_pattern] abbrev DW_EH_PE_funcrel : Byte := 0x40
@[match_pattern] abbrev DW_EH_PE_aligned : Byte := 0x50
@[match_pattern] abbrev DW_EH_PE_indirect : Byte := 0x80

structure EHContext where
  /-- Current instruction pointer -/
  ip : Word
  /-- Pointer to the current function -/
  func_start : Word
  /-- Pointer to the code section -/
  get_text_start : Word
  /-- Pointer to the data section -/
  get_data_start : Word

inductive EHAction where
  | None
  | Cleanup (lpad : Word)
  | Catch (lpad : Word)
  | Filter (lpad : Word)
  | Terminate
deriving DecidableEq, Repr

/-! ## Encoded pointers -/

/-- Reads an offset whose encoding is described by `encoding`, of which the upper part must be
zero. -/
def read_encoded_offset (overflow_checks : Bool) (encoding : Byte) : DwarfM Word :=
  if encoding = DW_EH_PE_omit ∨ encoding &&& 0xF0 ≠ 0 then throw .err
  else
    match encoding &&& 0x0F with
    | DW_EH_PE_absptr => read 8
    | DW_EH_PE_uleb128 => read_uleb128 overflow_checks
    | DW_EH_PE_udata2 => return (← read 2).setWidth 64
    | DW_EH_PE_udata4 => return (← read 4).setWidth 64
    | DW_EH_PE_udata8 => read 8
    | DW_EH_PE_sleb128 => read_sleb128 overflow_checks
    | DW_EH_PE_sdata2 => return (← read 2).signExtend 64
    | DW_EH_PE_sdata4 => return (← read 4).signExtend 64
    | DW_EH_PE_sdata8 => read 8
    | _ => throw .err

/-- `+` on `usize` -/
def add (overflow_checks : Bool) (x y : Word) : Except DwarfStop Word :=
  if overflow_checks = true ∧ 2 ^ 64 ≤ x.toNat + y.toNat then .error .overflow else .ok (x + y)

def round_up (overflow_checks : Bool) (unrounded align : Word) : Except DwarfStop Word :=
  -- `is_power_of_two`
  if align ≠ 0 ∧ align &&& (align - 1) = 0 then do
    let sum ← add overflow_checks unrounded align
    return (sum - 1) &&& ~~~(align - 1)
  else throw .err

/-- The reader at an address of the bytes that are known from this reader on. -/
def DwarfReader.at (self : DwarfReader) (addr : ℤ) : Except DwarfStop DwarfReader :=
  if addr < self.addr then .error .ended else .ok (self.skip (addr - self.addr).toNat)

section

variable (overflow_checks : Bool) (context : EHContext)

/-- What an encoded pointer is relative to, or null, for a reader that is brought to the pointer. -/
def read_base_ptr (encoding : Byte) : DwarfM Word :=
  match encoding &&& 0x70 with
  | DW_EH_PE_absptr => return 0
  -- relative to address of the encoded value, despite the name
  | DW_EH_PE_pcrel => return BitVec.ofNat 64 (← get).addr
  | DW_EH_PE_funcrel => if context.func_start = 0 then throw .err else return context.func_start
  | DW_EH_PE_textrel => return context.get_text_start
  | DW_EH_PE_datarel => return context.get_data_start
  -- aligned means the value is aligned to the size of a pointer
  | DW_EH_PE_aligned => do
      let reader ← get
      let addr ← round_up overflow_checks (BitVec.ofNat 64 reader.addr) 8
      set (← reader.at addr.toNat)
      return 0
  | _ => throw .err

/-- The pointer itself, which is an offset unless it is absolute. -/
def read_from_base (base_ptr : Word) (encoding : Byte) : DwarfM Word :=
  if base_ptr = 0 then
    if encoding &&& 0x0F ≠ DW_EH_PE_absptr then throw .err else read 8
  else return base_ptr + (← read_encoded_offset overflow_checks (encoding &&& 0x0F))

/-- Reads a pointer whose encoding is described by `encoding`, with the pointers that are in memory
as a parameter. -/
def read_encoded_pointer (load : Word → Option Word) (encoding : Byte) : DwarfM Word :=
  if encoding = DW_EH_PE_omit then throw .err
  else do
    let base_ptr ← read_base_ptr overflow_checks context encoding
    let ptr ← read_from_base overflow_checks base_ptr encoding
    if encoding &&& DW_EH_PE_indirect ≠ 0 then
      match load ptr with
      | some ptr => return ptr
      | none => throw .ended
    else return ptr

/-! ## The table of call sites -/

/-- The action for the landing pad of a call site, in an area with a table of actions at an
address. -/
def interpret_cs_action (lsda : DwarfReader) (action_table : ℕ) (cs_action_entry lpad : Word) :
    Except DwarfStop EHAction :=
  if cs_action_entry = 0 then .ok (.Cleanup lpad)
  else if overflow_checks = true ∧ cs_action_entry.toInt = -2 ^ 63 then .error .overflow
  else do
    let action_reader ← lsda.at (action_table + (cs_action_entry - 1).toInt)
    let (ttype_index, _) ← read_sleb128 overflow_checks action_reader
    if ttype_index = 0 then return .Cleanup lpad
    else if 0 < ttype_index.toInt then return .Catch lpad
    else return .Filter lpad

/-- A call site is read: what is returned for the instruction pointer, unless the search goes on. -/
def find_call_site (lsda : DwarfReader) (lpad_base : Word) (call_site_encoding : Byte)
    (action_table : ℕ) : DwarfM (Option EHAction) := do
  let cs_start ← read_encoded_offset overflow_checks call_site_encoding
  let cs_len ← read_encoded_offset overflow_checks call_site_encoding
  let cs_lpad ← read_encoded_offset overflow_checks call_site_encoding
  let cs_action_entry ← read_uleb128 overflow_checks
  -- the table is sorted by `cs_start`, and the search is over past the instruction pointer
  if context.ip < context.func_start + cs_start then return some .Terminate
  else
    let cs_end ← add overflow_checks cs_start cs_len
    if context.ip < context.func_start + cs_end then
      if cs_lpad = 0 then return some .None
      else
        let action ←
          interpret_cs_action overflow_checks lsda action_table cs_action_entry (lpad_base + cs_lpad)
        return some action
    else return none

/-- The loop over the call sites, for a number of rounds. -/
def find_call_sites (lsda : DwarfReader) (lpad_base : Word) (call_site_encoding : Byte)
    (action_table : ℕ) : ℕ → DwarfReader → Except DwarfStop EHAction
  | 0, _ => .ok .Terminate
  | n + 1, reader => do
      if reader.addr < action_table then
        let (action, reader) ← find_call_site overflow_checks context lsda lpad_base
          call_site_encoding action_table reader
        match action with
        | some action => return action
        | none => find_call_sites lsda lpad_base call_site_encoding action_table n reader
      else return .Terminate

/-- The base of the landing pads. -/
def read_lpad_base (load : Word → Option Word) : DwarfM Word := do
  let start_encoding : Byte ← read 1
  if start_encoding ≠ DW_EH_PE_omit then
    read_encoded_pointer overflow_checks context load start_encoding
  else return context.func_start

/-- The encoding of the call sites. -/
def read_call_site_encoding : DwarfM Byte := do
  let ttype_encoding : Byte ← read 1
  if ttype_encoding ≠ DW_EH_PE_omit then
    -- the type table is not used
    let _ ← read_uleb128 overflow_checks
    read 1
  else read 1

/-- The address after the table of call sites. -/
def read_action_table : DwarfM ℕ := do
  let call_site_table_length ← read_uleb128 overflow_checks
  return (← get).addr + call_site_table_length.toNat

/-- A call site takes up a byte at least, so that there are no more rounds than bytes
(`find_call_sites_eq`). -/
def find_eh_action (load : Word → Option Word) (lsda : DwarfReader) :
    Except DwarfStop EHAction := do
  if lsda.addr = 0 then return .None
  else
    let (lpad_base, reader) ← read_lpad_base overflow_checks context load lsda
    let (call_site_encoding, reader) ← read_call_site_encoding overflow_checks reader
    let (action_table, reader) ← read_action_table overflow_checks reader
    find_call_sites overflow_checks context lsda lpad_base call_site_encoding action_table
      (action_table - reader.addr) reader

end

/-! ## The number of rounds -/

/-- What reads at least a number of bytes. -/
def Forward {α : Type} (n : ℕ) (x : DwarfM α) : Prop :=
  ∀ ⦃reader reader' : DwarfReader⦄ ⦃a : α⦄,
    x reader = .ok (a, reader') → reader.addr + n ≤ reader'.addr

section

variable {overflow_checks : Bool} {α β : Type} {n m : ℕ} {x : DwarfM α} {f : α → DwarfM β}

theorem Forward.mono (hx : Forward n x) (h : m ≤ n) : Forward m x :=
  fun _ _ _ hread ↦ (Nat.add_le_add_left h _).trans (hx hread)

theorem Forward.bind (hx : Forward n x) (hf : ∀ a, Forward m (f a)) : Forward (n + m) (x >>= f) := by
  intro reader reader' b h
  change (x reader >>= fun p ↦ f p.1 p.2) = _ at h
  rcases hread : x reader with stop | ⟨a, reader₁⟩
  · rw [hread] at h
    cases h
  · rw [hread] at h
    calc reader.addr + (n + m)
        = reader.addr + n + m := (Nat.add_assoc ..).symm
      _ ≤ reader₁.addr + m := Nat.add_le_add_right (hx hread) m
      _ ≤ reader'.addr := hf a h

theorem Forward.pure (a : α) : Forward 0 (pure a : DwarfM α) := by
  rintro reader _ _ ⟨⟩
  exact le_rfl

theorem Forward.throw (stop : DwarfStop) : Forward n (throw stop : DwarfM α) := by
  rintro reader _ _ ⟨⟩

theorem Forward.ite {p : Prop} [Decidable p] {y : DwarfM α} (hx : Forward n x) (hy : Forward n y) :
    Forward n (if p then x else y) := by
  split_ifs
  · exact hx
  · exact hy

theorem Forward.lift (x : Except DwarfStop α) : Forward 0 (liftM x : DwarfM α) := by
  rcases x with stop | a
  · rintro reader _ _ ⟨⟩
  · rintro reader _ _ ⟨⟩
    exact le_rfl

theorem forward_read (n : ℕ) : Forward n (read n) := by
  intro reader reader' a h
  rw [DwarfReader.read] at h
  split_ifs at h
  cases h
  exact le_rfl

theorem leb128Loop_forward {shift addr : ℕ} {result : Word} {bytes : List Byte}
    {a : Word × Byte × ℕ} {reader' : DwarfReader}
    (h : leb128Loop overflow_checks shift result addr bytes = .ok (a, reader')) :
    addr + 1 ≤ reader'.addr := by
  induction bytes generalizing shift result addr with
  | nil => cases h
  | cons byte bytes ih =>
      rw [leb128Loop] at h
      rcases hshl : shl overflow_checks ((byte &&& 0x7F).setWidth 64) shift with stop | group
      · rw [hshl] at h
        cases h
      · rw [hshl] at h
        change ite _ _ _ = _ at h
        split_ifs at h
        · cases h
          exact le_rfl
        · exact (Nat.le_succ _).trans (ih h)

theorem forward_read_uleb128 : Forward 1 (read_uleb128 overflow_checks) := by
  refine Forward.bind (m := 0) (fun reader reader' a h ↦ leb128Loop_forward h) fun a ↦ ?_
  exact Forward.pure a.1

theorem forward_read_sleb128 : Forward 1 (read_sleb128 overflow_checks) := by
  refine Forward.bind (m := 0) (fun reader reader' a h ↦ leb128Loop_forward h) fun a ↦ ?_
  exact Forward.ite (Forward.pure _) (Forward.pure _)

theorem forward_read_encoded_offset (encoding : Byte) :
    Forward 1 (read_encoded_offset overflow_checks encoding) := by
  have hread (k : ℕ) (hk : 1 ≤ k) : Forward 1 (read k) := (forward_read k).mono hk
  have hbind (k : ℕ) (hk : 1 ≤ k) (g : BitVec (8 * k) → Word) :
      Forward 1 (read k >>= fun x ↦ Pure.pure (g x)) :=
    (hread k hk).bind (m := 0) fun _ ↦ Forward.pure _
  refine Forward.ite (Forward.throw _) ?_
  split
  · exact hread 8 (by decide)
  · exact forward_read_uleb128
  · exact hbind 2 (by decide) _
  · exact hbind 4 (by decide) _
  · exact hread 8 (by decide)
  · exact forward_read_sleb128
  · exact hbind 2 (by decide) _
  · exact hbind 4 (by decide) _
  · exact hread 8 (by decide)
  · exact Forward.throw _

variable {context : EHContext} {lsda : DwarfReader} {lpad_base : Word} {encoding : Byte}
  {action_table : ℕ}

theorem forward_find_call_site :
    Forward 4 (find_call_site overflow_checks context lsda lpad_base encoding action_table) := by
  refine (forward_read_encoded_offset encoding).bind (m := 3) fun start ↦ ?_
  refine (forward_read_encoded_offset encoding).bind (m := 2) fun len ↦ ?_
  refine (forward_read_encoded_offset encoding).bind (m := 1) fun lpad ↦ ?_
  refine forward_read_uleb128.bind (m := 0) fun entry ↦ ?_
  refine Forward.ite (Forward.pure _) ((Forward.lift _).bind (m := 0) fun cs_end ↦ ?_)
  refine Forward.ite (Forward.ite (Forward.pure _) ?_) (Forward.pure _)
  exact (Forward.lift _).bind (m := 0) fun action ↦ Forward.pure _

/-- More rounds than bytes make no difference. -/
theorem find_call_sites_eq {reader : DwarfReader} (hn : action_table - reader.addr ≤ n)
    (hm : action_table - reader.addr ≤ m) :
    find_call_sites overflow_checks context lsda lpad_base encoding action_table n reader =
      find_call_sites overflow_checks context lsda lpad_base encoding action_table m reader := by
  induction n generalizing m reader with
  | zero =>
      rcases m with - | m
      · rfl
      · rw [find_call_sites, find_call_sites, if_neg (by omega)]
        rfl
  | succ n ih =>
      rcases m with - | m
      · rw [find_call_sites, find_call_sites, if_neg (by omega)]
        rfl
      · rw [find_call_sites, find_call_sites]
        refine if_congr Iff.rfl ?_ rfl
        rcases hread : find_call_site overflow_checks context lsda lpad_base encoding action_table
          reader with stop | ⟨- | action, reader'⟩
        · rfl
        · have hlt := forward_find_call_site hread
          exact ih (by omega) (by omega)
        · rfl

end

end Elpytios
