import Elpytios.Lib.Bits
import Elpytios.Personality.Eh

/-!
# Language-specific data areas

What the data area of a function says, and how it is laid out at an address.  The base of the
landing pads may be stored in any encoding of a pointer, relative to any of its bases, aligned or
behind another pointer (`EncodedPointer`).  What is laid out is found (`find_eh_action_bytes`).
-/

namespace Elpytios

open ByteOrder Leb128 DwarfReader

/-- What a reader of a stream reads goes to the rest of the program. -/
theorem DwarfM.bind_of_ok {α β : Type} {x : DwarfM α} {f : α → DwarfM β}
    {reader reader' : DwarfReader} {a : α} (h : x reader = .ok (a, reader')) :
    (x >>= f) reader = f a reader' := by
  change (x reader >>= _) = _
  rw [h]
  rfl

/-! ## Encoded offsets -/

/-- The shortest string of bytes for an offset. -/
def offsetBytes (encoding : Byte) (x : Word) : List Byte :=
  match encoding with
  | DW_EH_PE_uleb128 => encode x.toNat
  | DW_EH_PE_sleb128 => encodeSigned x.toInt
  | DW_EH_PE_udata2 | DW_EH_PE_sdata2 => bytesOf .little 2 x.toNat
  | DW_EH_PE_udata4 | DW_EH_PE_sdata4 => bytesOf .little 4 x.toNat
  | _ => bytesOf .little 8 x.toNat

/-- The encoding is that of an offset, and has room for it. -/
def FitsEncoding (encoding : Byte) (x : Word) : Prop :=
  match encoding with
  | DW_EH_PE_absptr | DW_EH_PE_udata8 | DW_EH_PE_sdata8 => True
  | DW_EH_PE_uleb128 | DW_EH_PE_sleb128 => True
  | DW_EH_PE_udata2 => x.toNat < 2 ^ 16
  | DW_EH_PE_udata4 => x.toNat < 2 ^ 32
  | DW_EH_PE_sdata2 => -2 ^ 15 ≤ x.toInt ∧ x.toInt < 2 ^ 15
  | DW_EH_PE_sdata4 => -2 ^ 31 ≤ x.toInt ∧ x.toInt < 2 ^ 31
  | _ => False

section

variable {overflow_checks : Bool} {encoding : Byte} {x : Word} {n : ℕ}

theorem setWidth_ofNat (h : x.toNat < 2 ^ n) : (BitVec.ofNat n x.toNat).setWidth 64 = x := by
  apply BitVec.eq_of_toNat_eq
  rw [BitVec.toNat_setWidth, BitVec.toNat_ofNat, Nat.mod_eq_of_lt h, Nat.mod_eq_of_lt x.isLt]

theorem signExtend_ofNat (hpos : 0 < n) (hn : n ≤ 64)
    (h : -2 ^ (n - 1) ≤ x.toInt ∧ x.toInt < 2 ^ (n - 1)) :
    (BitVec.ofNat n x.toNat).signExtend 64 = x := by
  apply BitVec.eq_of_toInt_eq
  rw [BitVec.toInt_signExtend_of_le hn, BitVec.ofNat_toNat,
    ← BitVec.signExtend_eq_setWidth_of_le x hn]
  calc (x.signExtend n).toInt
      = x.toInt.bmod (2 ^ n) := BitVec.toInt_signExtend_eq_toInt_bmod_of_le x hn
    _ = (BitVec.ofInt n x.toInt).toInt := (BitVec.toInt_ofInt x.toInt).symm
    _ = x.toInt := BitVec.toInt_ofInt_eq_self hpos h.1 h.2

/-- A number of fixed length goes to the rest of the program. -/
theorem read_bind {α : Type} (n k addr : ℕ) (rest : List Byte) (f : BitVec (8 * n) → DwarfM α) :
    (read n >>= f) ⟨addr, bytesOf .little n k ++ rest⟩ =
      f (BitVec.ofNat (8 * n) k) ⟨addr + (bytesOf .little n k).length, rest⟩ := by
  rw [length_bytesOf]
  exact DwarfM.bind_of_ok (read_append n k addr rest)

theorem read_byte (byte : Byte) (addr : ℕ) (rest : List Byte) :
    read 1 ⟨addr, byte :: rest⟩ = .ok (byte, ⟨addr + 1, rest⟩) := by
  have hpos : 1 ≤ (byte :: rest).length := Nat.succ_pos _
  rw [DwarfReader.read, if_pos hpos, field_one]
  rfl

theorem read_word (x : Word) (addr : ℕ) (rest : List Byte) :
    read 8 ⟨addr, bytesOf .little 8 x.toNat ++ rest⟩ =
      .ok (x, ⟨addr + (bytesOf .little 8 x.toNat).length, rest⟩) := by
  rw [length_bytesOf, read_append]
  exact congrArg (fun x ↦ Except.ok (x, _))
    (BitVec.ofNat_toNat 64 x |>.trans (BitVec.setWidth_eq x))

theorem read_uleb128_encode {k : ℕ} (h : k < 2 ^ 64) (addr : ℕ) (rest : List Byte) :
    read_uleb128 overflow_checks ⟨addr, encode k ++ rest⟩ =
      .ok (BitVec.ofNat 64 k, ⟨addr + (encode k).length, rest⟩) := by
  have hlen : (encode k).length ≤ 10 :=
    length_encode_le (k := 9) (h.trans (Nat.pow_lt_pow_right (by decide) (by decide)))
  rw [read_uleb128_of_terminated (terminated_encode k) hlen, unsigned_encode]

theorem read_sleb128_encodeSigned {i : ℤ} (h : -2 ^ 63 ≤ i ∧ i < 2 ^ 63) (addr : ℕ)
    (rest : List Byte) :
    read_sleb128 overflow_checks ⟨addr, encodeSigned i ++ rest⟩ =
      .ok (BitVec.ofInt 64 i, ⟨addr + (encodeSigned i).length, rest⟩) := by
  have hlen : (encodeSigned i).length ≤ 10 :=
    length_encodeSigned_le (k := 9) (by omega) (by omega)
  rw [read_sleb128_of_terminated (terminated_encodeSigned i) hlen, signed_encodeSigned]

theorem read_encoded_offset_bytes (h : FitsEncoding encoding x) (addr : ℕ) (rest : List Byte) :
    read_encoded_offset overflow_checks encoding ⟨addr, offsetBytes encoding x ++ rest⟩ =
      .ok (x, ⟨addr + (offsetBytes encoding x).length, rest⟩) := by
  rw [FitsEncoding.eq_def] at h
  split at h
  · exact read_word x addr rest
  · exact read_word x addr rest
  · exact read_word x addr rest
  · refine (read_uleb128_encode x.isLt addr rest).trans ?_
    rw [BitVec.ofNat_toNat, BitVec.setWidth_eq]
    rfl
  · refine (read_sleb128_encodeSigned ⟨BitVec.le_toInt x, BitVec.toInt_lt⟩ addr rest).trans ?_
    rw [BitVec.ofInt_toInt]
    rfl
  · exact (read_bind 2 x.toNat addr rest _).trans
      (congrArg (fun x ↦ Except.ok (x, _)) (setWidth_ofNat h))
  · exact (read_bind 4 x.toNat addr rest _).trans
      (congrArg (fun x ↦ Except.ok (x, _)) (setWidth_ofNat h))
  · exact (read_bind 2 x.toNat addr rest _).trans
      (congrArg (fun x ↦ Except.ok (x, _)) (signExtend_ofNat (by decide) (by decide) h))
  · exact (read_bind 4 x.toNat addr rest _).trans
      (congrArg (fun x ↦ Except.ok (x, _)) (signExtend_ofNat (by decide) (by decide) h))
  · exact h.elim

end

/-- The reader some bytes after the start of an area. -/
theorem at_append (addr : ℕ) (before after : List Byte) :
    DwarfReader.at ⟨addr, before ++ after⟩ (addr + before.length : ℕ) =
      .ok ⟨addr + before.length, after⟩ := by
  have hskip : (((addr + before.length : ℕ) : ℤ) - (addr : ℤ)).toNat = before.length := by omega
  rw [DwarfReader.at, if_neg (by exact Int.not_lt.mpr (Int.ofNat_le.mpr (Nat.le_add_right _ _)))]
  rw [hskip, skip, List.drop_left]

/-! ## Encoded pointers -/

/-- A pointer as it is stored: an encoding, and a number of that encoding. -/
structure EncodedPointer where
  encoding : Byte
  value : Word
deriving DecidableEq, Repr

namespace EncodedPointer

/-- The bytes before an aligned pointer. -/
def padding (p : EncodedPointer) (addr : ℕ) : ℕ :=
  if p.encoding &&& 0x70 = DW_EH_PE_aligned then (8 - addr % 8) % 8 else 0

/-- The bytes of a pointer that is stored at an address. -/
def bytes (p : EncodedPointer) (addr : ℕ) : List Byte :=
  List.replicate (p.padding addr) 0 ++ offsetBytes (p.encoding &&& 0x0F) p.value

/-- What the number is relative to. -/
def base (p : EncodedPointer) (context : EHContext) (addr : ℕ) : Word :=
  match p.encoding &&& 0x70 with
  | DW_EH_PE_pcrel => BitVec.ofNat 64 addr
  | DW_EH_PE_funcrel => context.func_start
  | DW_EH_PE_textrel => context.get_text_start
  | DW_EH_PE_datarel => context.get_data_start
  | _ => 0

/-- What is pointed to, which may have to be loaded from where the number leads. -/
def target (p : EncodedPointer) (context : EHContext) (load : Word → Option Word) (addr : ℕ) :
    Option Word :=
  if p.encoding &&& DW_EH_PE_indirect = 0 then some (p.base context addr + p.value)
  else load (p.base context addr + p.value)

/-- The encoding is one of a pointer and has room for the number.  Without a base it must be that
of an absolute pointer. -/
structure WellFormed (p : EncodedPointer) (context : EHContext) (addr : ℕ) : Prop where
  encoding_ne : p.encoding ≠ DW_EH_PE_omit
  application : p.encoding &&& 0x70 ∈ [DW_EH_PE_absptr, DW_EH_PE_pcrel, DW_EH_PE_textrel,
    DW_EH_PE_datarel, DW_EH_PE_funcrel, DW_EH_PE_aligned]
  func_start : p.encoding &&& 0x70 = DW_EH_PE_funcrel → context.func_start ≠ 0
  fits : FitsEncoding (p.encoding &&& 0x0F) p.value
  absolute : p.base context addr = 0 → p.encoding &&& 0x0F = DW_EH_PE_absptr

section

variable {overflow_checks : Bool} {p : EncodedPointer} {context : EHContext} {addr : ℕ}

/-- Rounding up to the size of a pointer. -/
theorem round_up_eight {overflow_checks : Bool} (h : addr + 8 < 2 ^ 64) :
    round_up overflow_checks (BitVec.ofNat 64 addr) 8 =
      .ok (BitVec.ofNat 64 (addr + (8 - addr % 8) % 8)) := by
  have haddr : (BitVec.ofNat 64 addr).toNat = addr := Nat.mod_eq_of_lt (by omega)
  have hadd : add overflow_checks (BitVec.ofNat 64 addr) 8 = .ok (BitVec.ofNat 64 addr + 8) := by
    rw [add, if_neg]
    rintro ⟨-, hover⟩
    rw [haddr] at hover
    exact absurd hover (Nat.not_le.mpr h)
  have hlast : (BitVec.ofNat 64 addr + 8 - 1 : Word) = BitVec.ofNat 64 (addr + 7) := by
    apply BitVec.eq_of_toNat_eq
    rw [BitVec.toNat_sub, BitVec.toNat_add, haddr, BitVec.toNat_ofNat]
    change (2 ^ 64 - 1 + (addr + 8) % 2 ^ 64) % 2 ^ 64 = _
    omega
  have hmask := Bits.toNat_and_fieldMask (BitVec.ofNat 64 (addr + 7)) 61 3 (by decide)
  rw [BitVec.toNat_ofNat, Nat.mod_mod, Nat.mod_eq_of_lt (by omega : addr + 7 < 2 ^ 64)] at hmask
  rw [round_up, if_pos (by decide), hadd]
  change Except.ok ((BitVec.ofNat 64 addr + 8 - 1 : Word) &&& ~~~((8 : Word) - 1)) = _
  rw [hlast]
  refine congrArg Except.ok (BitVec.eq_of_toNat_eq ((?_ : _ = _).trans (Nat.mod_eq_of_lt ?_).symm))
  · refine Eq.trans hmask ?_
    omega
  · omega

variable (wf : p.WellFormed context addr) (tail rest : List Byte)

include wf

/-- An aligned pointer takes up eight bytes after the padding. -/
theorem WellFormed.addr_lt (hends : addr + (p.bytes addr).length < 2 ^ 64)
    (h : p.encoding &&& 0x70 = DW_EH_PE_aligned) : addr + 8 < 2 ^ 64 := by
  have hbase : p.base context addr = 0 := by
    rw [base, h]
    rfl
  have hlength : (offsetBytes DW_EH_PE_absptr p.value).length = 8 :=
    length_bytesOf .little 8 p.value.toNat
  rw [bytes, List.length_append, wf.absolute hbase, hlength] at hends
  omega

/-- The reader is brought to the number, and the base is known. -/
theorem WellFormed.read_base_ptr_bytes
    (h : p.encoding &&& 0x70 = DW_EH_PE_aligned → addr + 8 < 2 ^ 64) :
    read_base_ptr overflow_checks context p.encoding
        ⟨addr, List.replicate (p.padding addr) 0 ++ tail⟩ =
      .ok (p.base context addr, ⟨addr + p.padding addr, tail⟩) := by
  have happlication := wf.application
  simp only [List.mem_cons, List.not_mem_nil, or_false] at happlication
  rw [read_base_ptr, padding, base]
  rcases happlication with h₀ | h₀ | h₀ | h₀ | h₀ | h₀
  · rw [h₀]; rfl
  · rw [h₀]; rfl
  · rw [h₀]; rfl
  · rw [h₀]; rfl
  · have hne := wf.func_start h₀
    rw [h₀]
    exact (congrFun (if_neg hne) _).trans rfl
  · have hround : round_up overflow_checks (BitVec.ofNat 64 addr) 8 = _ := round_up_eight (h h₀)
    have haddr := h h₀
    have hmod : (BitVec.ofNat 64 (addr + (8 - addr % 8) % 8)).toNat =
        addr + (8 - addr % 8) % 8 := Nat.mod_eq_of_lt (by omega)
    have hat := at_append addr (List.replicate ((8 - addr % 8) % 8) 0) tail
    rw [List.length_replicate, ← hmod] at hat
    let reader : DwarfReader := ⟨addr, List.replicate ((8 - addr % 8) % 8) 0 ++ tail⟩
    have hlift {α : Type} {x : Except DwarfStop α} {a : α} (hx : x = .ok a) :
        (liftM x : DwarfM α) reader = .ok (a, reader) := by
      rw [hx]
      rfl
    rw [h₀, if_pos rfl]
    refine (DwarfM.bind_of_ok (x := get) (a := reader) rfl).trans ?_
    refine (DwarfM.bind_of_ok (hlift hround)).trans ?_
    exact (DwarfM.bind_of_ok (hlift hat)).trans (by rw [hmod]; rfl)

/-- The pointer is read from the number. -/
theorem WellFormed.read_from_base_bytes (addr' : ℕ) :
    read_from_base overflow_checks (p.base context addr) p.encoding
        ⟨addr', offsetBytes (p.encoding &&& 0x0F) p.value ++ rest⟩ =
      .ok (p.base context addr + p.value,
        ⟨addr' + (offsetBytes (p.encoding &&& 0x0F) p.value).length, rest⟩) := by
  rw [read_from_base]
  by_cases hbase : p.base context addr = 0
  · have habsptr := wf.absolute hbase
    have hzero : (0 : Word) + p.value = p.value := BitVec.zero_add _
    rw [if_pos hbase, if_neg (not_not.mpr habsptr), hbase, habsptr, hzero]
    exact read_word p.value addr' rest
  · rw [if_neg hbase]
    exact (DwarfM.bind_of_ok (read_encoded_offset_bytes wf.fits addr' rest)).trans rfl

/-- A pointer is read as what it points to. -/
theorem WellFormed.read_encoded_pointer_bytes {load : Word → Option Word} {ptr : Word}
    (hends : addr + (p.bytes addr).length < 2 ^ 64)
    (htarget : p.target context load addr = some ptr) :
    read_encoded_pointer overflow_checks context load p.encoding ⟨addr, p.bytes addr ++ rest⟩ =
      .ok (ptr, ⟨addr + (p.bytes addr).length, rest⟩) := by
  have haddr : addr + p.padding addr + (offsetBytes (p.encoding &&& 0x0F) p.value).length =
      addr + (p.bytes addr).length := by
    rw [bytes, List.length_append, List.length_replicate, Nat.add_assoc]
  rw [read_encoded_pointer, if_neg wf.encoding_ne, bytes, List.append_assoc,
    DwarfM.bind_of_ok (wf.read_base_ptr_bytes _ (wf.addr_lt hends)),
    DwarfM.bind_of_ok (wf.read_from_base_bytes rest _), haddr]
  rw [target] at htarget
  by_cases hindirect : p.encoding &&& DW_EH_PE_indirect = 0
  · rw [if_pos hindirect] at htarget
    obtain rfl := Option.some.inj htarget
    rw [if_neg (not_not.mpr hindirect)]
    rfl
  · rw [if_neg hindirect] at htarget
    rw [if_pos hindirect, htarget]
    rfl

end

end EncodedPointer

/-! ## Layout -/

/-- Part of a function, as a distance from its start, with its landing pad. -/
structure CallSite where
  start : Word
  len : Word
  lpad : Word
  /-- The index of the action. -/
  action : Option ℕ
deriving DecidableEq, Repr

/-- What the data area of a function says. -/
structure Lsda where
  /-- The base of the landing pads, if it is not the start of the function. -/
  lpStart : Option EncodedPointer
  /-- The encoding and the place of the type table. -/
  ttype : Option (Byte × ℕ)
  encoding : Byte
  callSites : List CallSite
  /-- For each action the type filter and the distance to the next one. -/
  actions : List (ℤ × ℤ)
deriving DecidableEq, Repr

def actionBytes (record : ℤ × ℤ) : List Byte := encodeSigned record.1 ++ encodeSigned record.2

/-- The instruction pointer is in a call site. -/
def CallSite.Covers (context : EHContext) (site : CallSite) : Prop :=
  context.func_start.toNat + site.start.toNat ≤ context.ip.toNat ∧
    context.ip.toNat < context.func_start.toNat + site.start.toNat + site.len.toNat

instance (context : EHContext) (site : CallSite) : Decidable (site.Covers context) :=
  inferInstanceAs (Decidable (_ ∧ _))

namespace Lsda

/-- Where the record of an action starts, counted from one. -/
def entry (lsda : Lsda) : Option ℕ → ℕ
  | none => 0
  | some i => ((lsda.actions.take i).flatMap actionBytes).length + 1

def siteBytes (lsda : Lsda) (site : CallSite) : List Byte :=
  offsetBytes lsda.encoding site.start ++ (offsetBytes lsda.encoding site.len ++
    (offsetBytes lsda.encoding site.lpad ++ encode (lsda.entry site.action)))

def tableBytes (lsda : Lsda) : List Byte := lsda.callSites.flatMap lsda.siteBytes

/-- The pointer comes after its encoding. -/
def lpStartBytes (lsda : Lsda) (addr : ℕ) : List Byte :=
  match lsda.lpStart with
  | none => [DW_EH_PE_omit]
  | some p => p.encoding :: p.bytes (addr + 1)

def ttypeBytes (lsda : Lsda) : List Byte :=
  match lsda.ttype with
  | none => [DW_EH_PE_omit]
  | some (encoding, offset) => encoding :: encode offset

def headerBytes (lsda : Lsda) (addr : ℕ) : List Byte :=
  lsda.lpStartBytes addr ++ (lsda.ttypeBytes ++ (lsda.encoding :: encode lsda.tableBytes.length))

/-- The bytes of an area at an address. -/
def bytes (lsda : Lsda) (addr : ℕ) : List Byte :=
  lsda.headerBytes addr ++ (lsda.tableBytes ++ lsda.actions.flatMap actionBytes)

/-- The base of the landing pads, for an area at an address. -/
def lpadBase (lsda : Lsda) (context : EHContext) (load : Word → Option Word) (addr : ℕ) :
    Option Word :=
  match lsda.lpStart with
  | none => some context.func_start
  | some p => p.target context load (addr + 1)

/-- The action for a type filter. -/
def filterAction (filter : ℤ) (lpad : Word) : EHAction :=
  if filter = 0 then .Cleanup lpad else if 0 < filter then .Catch lpad else .Filter lpad

/-- The action of a call site. -/
def siteAction (lsda : Lsda) (lpad_base : Word) (site : CallSite) : EHAction :=
  if site.lpad = 0 then .None
  else
    let filter := (site.action.bind (lsda.actions[·]?)).elim 0 Prod.fst
    filterAction filter (lpad_base + site.lpad)

/-- The action of the first call site that covers the instruction pointer.  Elsewhere nothing may
unwind. -/
def action (lsda : Lsda) (context : EHContext) (lpad_base : Word) : EHAction :=
  match lsda.callSites.find? (·.Covers context) with
  | some site => lsda.siteAction lpad_base site
  | none => .Terminate

/-- The area can be laid out at an address, and its call sites are sorted and do not wrap
around. -/
structure WellFormed (lsda : Lsda) (context : EHContext) (addr : ℕ) : Prop where
  lpStart : ∀ p ∈ lsda.lpStart, p.WellFormed context (addr + 1)
  fits : ∀ site ∈ lsda.callSites,
    FitsEncoding lsda.encoding site.start ∧ FitsEncoding lsda.encoding site.len ∧
    FitsEncoding lsda.encoding site.lpad
  sorted : lsda.callSites.Pairwise (·.start.toNat ≤ ·.start.toNat)
  within : ∀ site ∈ lsda.callSites,
    context.func_start.toNat + site.start.toNat + site.len.toNat < 2 ^ 64
  action : ∀ site ∈ lsda.callSites, ∀ i ∈ site.action, i < lsda.actions.length
  filter : ∀ record ∈ lsda.actions, -2 ^ 63 ≤ record.1 ∧ record.1 < 2 ^ 63
  ttype : ∀ encoding offset, lsda.ttype = some (encoding, offset) →
    encoding ≠ DW_EH_PE_omit ∧ offset < 2 ^ 64
  length : (lsda.bytes addr).length < 2 ^ 63
  ends : addr + (lsda.bytes addr).length < 2 ^ 64

/-! ## Reading -/

/-- The bytes from the record of an action on. -/
theorem bytes_eq (lsda : Lsda) (addr : ℕ) {i : ℕ} (hi : i < lsda.actions.length)
    (rest : List Byte) :
    ∃ rest', lsda.bytes addr ++ rest =
      (lsda.headerBytes addr ++ (lsda.tableBytes ++ (lsda.actions.take i).flatMap actionBytes)) ++
        (encodeSigned (lsda.actions.get ⟨i, hi⟩).1 ++ rest') := by
  have hsplit : lsda.actions.flatMap actionBytes =
      (lsda.actions.take i).flatMap actionBytes ++
        (actionBytes (lsda.actions.get ⟨i, hi⟩) ++
          (lsda.actions.drop (i + 1)).flatMap actionBytes) := by
    rw [← List.flatMap_cons, List.get_eq_getElem, ← List.drop_eq_getElem_cons hi,
      ← List.flatMap_append, List.take_append_drop]
  refine ⟨encodeSigned (lsda.actions.get ⟨i, hi⟩).2 ++
    ((lsda.actions.drop (i + 1)).flatMap actionBytes ++ rest), ?_⟩
  rw [bytes, hsplit, actionBytes]
  simp only [List.append_assoc]

theorem siteBytes_pos (lsda : Lsda) (site : CallSite) : 0 < (lsda.siteBytes site).length := by
  have hpos := (terminated_encode (lsda.entry site.action)).length_pos
  rw [siteBytes, List.length_append, List.length_append, List.length_append]
  omega

theorem toInt_ofNat_of_lt {k : ℕ} (h : k < 2 ^ 63) : (BitVec.ofNat 64 k).toInt = k := by
  have hk : (BitVec.ofNat 64 k).toNat = k := Nat.mod_eq_of_lt (h.trans (by decide))
  rw [BitVec.toInt_eq_toNat_of_lt (by omega), hk]

/-- What is done with the filter that is read. -/
theorem filterAction_ofInt {filter : ℤ} (h : -2 ^ 63 ≤ filter ∧ filter < 2 ^ 63) (lpad : Word) :
    (if BitVec.ofInt 64 filter = 0 then EHAction.Cleanup lpad
      else if 0 < (BitVec.ofInt 64 filter).toInt then .Catch lpad else .Filter lpad) =
      filterAction filter lpad := by
  have hint : (BitVec.ofInt 64 filter).toInt = filter :=
    BitVec.toInt_ofInt_eq_self (by decide) h.1 h.2
  have hzero : BitVec.ofInt 64 filter = 0 ↔ filter = 0 := by
    rw [← BitVec.toInt_inj, hint]
    rfl
  rw [filterAction, hint]
  exact if_congr hzero rfl rfl

section

variable {lsda : Lsda} {context : EHContext} {addr : ℕ} (wf : lsda.WellFormed context addr)
  (overflow_checks : Bool) (lpad_base : Word) (rest : List Byte)

include wf

theorem WellFormed.entry_lt (action : Option ℕ) : lsda.entry action < 2 ^ 63 := by
  rcases action with - | i
  · exact Nat.two_pow_pos 63
  · have hle : ((lsda.actions.take i).flatMap actionBytes).length ≤
        (lsda.actions.flatMap actionBytes).length := by
      conv_rhs =>
        rw [← List.take_append_drop i lsda.actions, List.flatMap_append, List.length_append]
      exact Nat.le_add_right _ _
    have hheader : 0 < (lsda.headerBytes addr).length := by
      rw [headerBytes, List.length_append, List.length_append, List.length_cons]
      omega
    have hlength := wf.length
    rw [bytes, List.length_append, List.length_append] at hlength
    rw [entry]
    omega

/-- The record of an action is found. -/
theorem interpret_cs_action_bytes {action : Option ℕ}
    (haction : ∀ i ∈ action, i < lsda.actions.length) (lpad : Word) :
    interpret_cs_action overflow_checks ⟨addr, lsda.bytes addr ++ rest⟩
        (addr + (lsda.headerBytes addr).length + lsda.tableBytes.length)
        (BitVec.ofNat 64 (lsda.entry action)) lpad =
      .ok (filterAction ((action.bind (lsda.actions[·]?)).elim 0 Prod.fst) lpad) := by
  rcases action with - | i
  · rfl
  · have hi : i < lsda.actions.length := haction i rfl
    have hfilter := wf.filter _ (List.get_mem lsda.actions ⟨i, hi⟩)
    obtain ⟨rest', hbytes⟩ := bytes_eq lsda addr hi rest
    have hget : lsda.actions[i]? = some (lsda.actions.get ⟨i, hi⟩) := List.getElem?_eq_getElem hi
    obtain ⟨k, hk⟩ : ∃ k, lsda.entry (some i) = k + 1 := ⟨_, rfl⟩
    have hlt := wf.entry_lt (some i)
    rw [hk] at hlt ⊢
    have hne : BitVec.ofNat 64 (k + 1) ≠ 0 := by
      intro h
      have hint := toInt_ofNat_of_lt hlt
      rw [h, show (0 : Word).toInt = 0 from rfl] at hint
      omega
    have hmin : ¬ (overflow_checks = true ∧ (BitVec.ofNat 64 (k + 1)).toInt = -2 ^ 63) := by
      rw [toInt_ofNat_of_lt hlt]
      omega
    have hpred : (BitVec.ofNat 64 (k + 1) - 1).toInt = k := by
      rw [BitVec.ofNat_add, show (1 : Word) = 1#64 from rfl, BitVec.add_sub_cancel]
      exact toInt_ofNat_of_lt (Nat.lt_of_succ_lt hlt)
    have hplace : ((addr + (lsda.headerBytes addr).length + lsda.tableBytes.length : ℕ) : ℤ) + k =
        ((addr + (lsda.headerBytes addr ++ (lsda.tableBytes ++
          (lsda.actions.take i).flatMap actionBytes)).length : ℕ) : ℤ) := by
      have hlen : k = ((lsda.actions.take i).flatMap actionBytes).length := (Nat.succ.inj hk).symm
      rw [List.length_append, List.length_append, ← hlen]
      omega
    rw [interpret_cs_action, if_neg hne, if_neg hmin, hpred, hplace, hbytes, at_append]
    change (read_sleb128 overflow_checks _ >>= _) = Except.ok (filterAction
      ((lsda.actions[i]?).elim 0 Prod.fst) lpad)
    rw [read_sleb128_encodeSigned hfilter, hget]
    refine Eq.trans ?_ (congrArg Except.ok (filterAction_ofInt hfilter lpad))
    change ite _ _ (ite _ _ _) = _
    split_ifs <;> rfl

/-- A call site is read, and the search stops if it covers the instruction pointer or starts after
it. -/
theorem find_call_site_bytes {site : CallSite} (hsite : site ∈ lsda.callSites) (at_addr : ℕ)
    (tail : List Byte) :
    find_call_site overflow_checks context ⟨addr, lsda.bytes addr ++ rest⟩
        lpad_base lsda.encoding
        (addr + (lsda.headerBytes addr).length + lsda.tableBytes.length)
        ⟨at_addr, lsda.siteBytes site ++ tail⟩ =
      .ok (if context.ip.toNat < context.func_start.toNat + site.start.toNat then some .Terminate
        else if site.Covers context then some (lsda.siteAction lpad_base site) else none,
        ⟨at_addr + (lsda.siteBytes site).length, tail⟩) := by
  obtain ⟨hstart, hlen, hlpad⟩ := wf.fits site hsite
  have hwithin := wf.within site hsite
  have hentry := (wf.entry_lt site.action).trans (by decide : 2 ^ 63 < 2 ^ 64)
  have haddr : at_addr + (offsetBytes lsda.encoding site.start).length +
      (offsetBytes lsda.encoding site.len).length + (offsetBytes lsda.encoding site.lpad).length +
      (encode (lsda.entry site.action)).length = at_addr + (lsda.siteBytes site).length := by
    simp only [siteBytes, List.length_append, Nat.add_assoc]
  have hpast : context.ip < context.func_start + site.start ↔
      context.ip.toNat < context.func_start.toNat + site.start.toNat := by
    rw [BitVec.lt_def, BitVec.toNat_add, Nat.mod_eq_of_lt (by omega)]
  have hend : context.ip < context.func_start + (site.start + site.len) ↔
      context.ip.toNat < context.func_start.toNat + site.start.toNat + site.len.toNat := by
    rw [BitVec.lt_def, BitVec.toNat_add, BitVec.toNat_add,
      Nat.mod_eq_of_lt (by omega : site.start.toNat + site.len.toNat < 2 ^ 64),
      ← Nat.add_assoc, Nat.mod_eq_of_lt hwithin]
  have hadd : add overflow_checks site.start site.len = .ok (site.start + site.len) := by
    rw [add, if_neg (by omega)]
  rw [siteBytes, List.append_assoc, List.append_assoc, List.append_assoc, find_call_site,
    DwarfM.bind_of_ok (read_encoded_offset_bytes hstart _ _),
    DwarfM.bind_of_ok (read_encoded_offset_bytes hlen _ _),
    DwarfM.bind_of_ok (read_encoded_offset_bytes hlpad _ _),
    DwarfM.bind_of_ok (read_uleb128_encode hentry _ _), haddr]
  by_cases h : context.ip.toNat < context.func_start.toNat + site.start.toNat
  · rw [if_pos (hpast.mpr h), if_pos h]
    rfl
  · have hcovers : site.Covers context ↔ context.ip.toNat <
        context.func_start.toNat + site.start.toNat + site.len.toNat :=
      and_iff_right (Nat.not_lt.mp h)
    rw [if_neg (hpast.not.mpr h), if_neg h, hadd]
    change (ite (context.ip < context.func_start + (site.start + site.len)) _ _ : DwarfM _) _ = _
    by_cases hc : site.Covers context
    · rw [if_pos (hend.mpr (hcovers.mp hc)), if_pos hc, siteAction]
      by_cases hzero : site.lpad = 0
      · rw [if_pos hzero, if_pos hzero]
        rfl
      · rw [if_neg hzero, if_neg hzero,
          interpret_cs_action_bytes wf overflow_checks rest (wf.action site hsite)]
        rfl
    · rw [if_neg (hend.not.mpr (hcovers.not.mp hc)), if_neg hc]
      rfl

/-- The search comes to the first call site that covers the instruction pointer, or to the end of
the table. -/
theorem find_call_sites_bytes {sites : List CallSite} (hsites : sites.Sublist lsda.callSites)
    (at_addr : ℕ) (tail : List Byte) {n : ℕ} (hn : (sites.flatMap lsda.siteBytes).length ≤ n)
    (htable : at_addr + (sites.flatMap lsda.siteBytes).length =
      addr + (lsda.headerBytes addr).length + lsda.tableBytes.length) :
    find_call_sites overflow_checks context ⟨addr, lsda.bytes addr ++ rest⟩
        lpad_base lsda.encoding
        (addr + (lsda.headerBytes addr).length + lsda.tableBytes.length) n
        ⟨at_addr, sites.flatMap lsda.siteBytes ++ tail⟩ =
      .ok (match sites.find? (·.Covers context) with
        | some site => lsda.siteAction lpad_base site
        | none => .Terminate) := by
  induction sites generalizing at_addr n with
  | nil =>
      rcases n with - | n
      · rfl
      · have hend : ¬ at_addr < addr + (lsda.headerBytes addr).length + lsda.tableBytes.length :=
          Nat.not_lt.mpr htable.ge
        rw [find_call_sites]
        exact if_neg hend
  | cons site sites ih =>
      have hsite : site ∈ lsda.callSites := hsites.subset List.mem_cons_self
      have hpos := lsda.siteBytes_pos site
      rw [List.flatMap_cons, List.length_append] at hn htable
      obtain ⟨n, rfl⟩ : ∃ m, n = m + 1 := ⟨n - 1, by omega⟩
      have hlt : at_addr < addr + (lsda.headerBytes addr).length + lsda.tableBytes.length := by
        omega
      rw [find_call_sites, if_pos hlt, List.flatMap_cons,
        List.append_assoc, find_call_site_bytes wf overflow_checks lpad_base rest hsite]
      by_cases hpast : context.ip.toNat < context.func_start.toNat + site.start.toNat
      · -- the call sites after this one start no earlier
        have hnone : (site :: sites).find? (·.Covers context) = none := by
          refine List.find?_eq_none.mpr fun site' hsite' hcovers ↦ ?_
          have hstart : site.start.toNat ≤ site'.start.toNat := by
            rcases List.mem_cons.mp hsite' with rfl | hsite'
            · exact le_rfl
            · exact (List.pairwise_cons.mp (wf.sorted.sublist hsites)).1 site' hsite'
          have := (of_decide_eq_true hcovers).1
          omega
        rw [if_pos hpast, hnone]
        rfl
      · rw [if_neg hpast]
        by_cases hcovers : site.Covers context
        · have hfind : (site :: sites).find? (·.Covers context) = some site :=
            List.find?_cons_of_pos (decide_eq_true hcovers)
          rw [if_pos hcovers, hfind]
          rfl
        · have hfind : (site :: sites).find? (·.Covers context) = sites.find? (·.Covers context) :=
            List.find?_cons_of_neg fun h ↦ hcovers (of_decide_eq_true h)
          rw [if_neg hcovers, hfind]
          exact ih ((List.sublist_cons_self site sites).trans hsites)
            (at_addr + (lsda.siteBytes site).length) (by omega) (by omega)

theorem read_lpad_base_bytes {load : Word → Option Word}
    (hbase : lsda.lpadBase context load addr = some lpad_base) :
    read_lpad_base overflow_checks context load ⟨addr, lsda.lpStartBytes addr ++ rest⟩ =
      .ok (lpad_base, ⟨addr + (lsda.lpStartBytes addr).length, rest⟩) := by
  have hends := wf.ends
  have hlpStart := wf.lpStart
  rw [bytes, List.length_append, headerBytes, List.length_append] at hends
  rw [lpadBase] at hbase
  rw [lpStartBytes]
  rcases h : lsda.lpStart with - | p
  · rw [h] at hbase
    obtain rfl := Option.some.inj hbase
    exact DwarfM.bind_of_ok (read_byte DW_EH_PE_omit addr rest)
  · rw [h] at hbase hlpStart
    have hp := hlpStart p rfl
    have hlength : (lsda.lpStartBytes addr).length = (p.bytes (addr + 1)).length + 1 := by
      rw [lpStartBytes, h]
      rfl
    refine (DwarfM.bind_of_ok (read_byte p.encoding addr _)).trans ?_
    rw [if_pos hp.encoding_ne]
    refine (hp.read_encoded_pointer_bytes rest (by omega) hbase).trans ?_
    rw [List.length_cons, Nat.add_assoc, Nat.add_comm 1]

theorem read_call_site_encoding_bytes (at_addr : ℕ) :
    read_call_site_encoding overflow_checks
        ⟨at_addr, lsda.ttypeBytes ++ (lsda.encoding :: rest)⟩ =
      .ok (lsda.encoding, ⟨at_addr + lsda.ttypeBytes.length + 1, rest⟩) := by
  rw [ttypeBytes]
  rcases h : lsda.ttype with - | ⟨encoding, offset⟩
  · refine (DwarfM.bind_of_ok (read_byte DW_EH_PE_omit at_addr _)).trans ?_
    exact read_byte lsda.encoding (at_addr + 1) rest
  · obtain ⟨hne, hoffset⟩ := wf.ttype encoding offset h
    refine (DwarfM.bind_of_ok (read_byte encoding at_addr _)).trans ?_
    rw [if_pos hne]
    refine (DwarfM.bind_of_ok (read_uleb128_encode hoffset (at_addr + 1) _)).trans ?_
    refine (read_byte lsda.encoding _ rest).trans ?_
    rw [List.length_cons, Nat.add_assoc at_addr, Nat.add_comm 1]

theorem read_action_table_bytes (at_addr : ℕ) :
    read_action_table overflow_checks ⟨at_addr, encode lsda.tableBytes.length ++ rest⟩ =
      .ok (at_addr + (encode lsda.tableBytes.length).length + lsda.tableBytes.length,
        ⟨at_addr + (encode lsda.tableBytes.length).length, rest⟩) := by
  have hlt : lsda.tableBytes.length < 2 ^ 64 := by
    have hlength := wf.length
    rw [bytes, List.length_append, List.length_append] at hlength
    omega
  refine (DwarfM.bind_of_ok (read_uleb128_encode hlt at_addr rest)).trans ?_
  change Except.ok (_ + (BitVec.ofNat 64 lsda.tableBytes.length).toNat, _) = _
  rw [BitVec.toNat_ofNat, Nat.mod_eq_of_lt hlt]

end

theorem find_eh_action_of_header {overflow_checks : Bool} {context : EHContext}
    {load : Word → Option Word} {area r₁ r₂ r₃ : DwarfReader} {lpad_base : Word} {encoding : Byte}
    {action_table : ℕ} (haddr : area.addr ≠ 0)
    (h₁ : read_lpad_base overflow_checks context load area = .ok (lpad_base, r₁))
    (h₂ : read_call_site_encoding overflow_checks r₁ = .ok (encoding, r₂))
    (h₃ : read_action_table overflow_checks r₂ = .ok (action_table, r₃)) :
    find_eh_action overflow_checks context load area =
      find_call_sites overflow_checks context area lpad_base encoding action_table
        (action_table - r₃.addr) r₃ := by
  rw [find_eh_action, if_neg haddr, h₁]
  change (read_call_site_encoding overflow_checks r₁ >>= _) = _
  rw [h₂]
  change (read_action_table overflow_checks r₂ >>= _) = _
  rw [h₃]
  rfl

/-- What is laid out is found: the action of the first call site that covers the instruction
pointer. -/
theorem find_eh_action_bytes {lsda : Lsda} {context : EHContext} {addr : ℕ}
    (wf : lsda.WellFormed context addr) (overflow_checks : Bool) {load : Word → Option Word}
    {lpad_base : Word} (hbase : lsda.lpadBase context load addr = some lpad_base) (haddr : addr ≠ 0)
    (rest : List Byte) :
    find_eh_action overflow_checks context load ⟨addr, lsda.bytes addr ++ rest⟩ =
      .ok (lsda.action context lpad_base) := by
  let tail := lsda.actions.flatMap actionBytes ++ rest
  let table := encode lsda.tableBytes.length
  have hbytes : lsda.bytes addr ++ rest = lsda.lpStartBytes addr ++ (lsda.ttypeBytes ++
      (lsda.encoding :: (table ++ (lsda.tableBytes ++ tail)))) := by
    simp only [bytes, headerBytes, List.append_assoc, List.cons_append, table, tail]
  have hheader : addr + (lsda.lpStartBytes addr).length + lsda.ttypeBytes.length + 1 +
      table.length = addr + (lsda.headerBytes addr).length := by
    simp only [headerBytes, List.length_append, List.length_cons, table]
    omega
  have h₁ : read_lpad_base overflow_checks context load ⟨addr, lsda.bytes addr ++ rest⟩ = _ :=
    (congrArg (fun bytes ↦ read_lpad_base overflow_checks context load ⟨addr, bytes⟩) hbytes).trans
      (read_lpad_base_bytes wf overflow_checks lpad_base _ hbase)
  have h₃ := read_action_table_bytes wf overflow_checks (lsda.tableBytes ++ tail)
    (addr + (lsda.lpStartBytes addr).length + lsda.ttypeBytes.length + 1)
  rw [hheader] at h₃
  rw [find_eh_action_of_header haddr h₁ (read_call_site_encoding_bytes wf overflow_checks _ _) h₃]
  refine (find_call_sites_bytes wf overflow_checks lpad_base rest (List.Sublist.refl _)
    (addr + (lsda.headerBytes addr).length) tail ?_ rfl).trans rfl
  exact (Nat.add_sub_cancel_left ..).ge

/-- A function at `0x1000` with a catch for its bytes from `0x10` to `0x2f` and a cleanup after
them.  The base of its landing pads is in memory, eight bytes before the code. -/
def exampleLsda : Lsda where
  lpStart := some ⟨DW_EH_PE_indirect ||| DW_EH_PE_textrel ||| DW_EH_PE_sdata4, -8⟩
  ttype := none
  encoding := DW_EH_PE_uleb128
  callSites := [⟨0x10, 0x20, 0x80, some 1⟩, ⟨0x30, 5, 0x90, none⟩]
  actions := [(0, 0), (1, 0)]

/-- `0x1015` is caught at `0x7080`, as the base of the landing pads is `0x7000`. -/
theorem find_eh_action_bytes_catch :
    let context : EHContext := ⟨0x1015, 0x1000, 0x2000, 0⟩
    let load : Word → Option Word := fun ptr ↦ if ptr = 0x1FF8 then some 0x7000 else none
    exampleLsda.WellFormed context 0x5000 ∧
      exampleLsda.lpadBase context load 0x5000 = some 0x7000 ∧
      find_eh_action true context load ⟨0x5000, exampleLsda.bytes 0x5000 ++ []⟩ =
        .ok (.Catch 0x7080) := by
  intro context load
  have wf : exampleLsda.WellFormed context 0x5000 := by
    refine ⟨?_, fun site _ ↦ ⟨trivial, trivial, trivial⟩, by simp [exampleLsda],
      by simp [exampleLsda, context], by simp [exampleLsda], by simp [exampleLsda],
      by simp [exampleLsda], ?_, ?_⟩
    · rintro p ⟨⟩
      refine ⟨by decide, by decide, by decide, ?_, by decide⟩
      change -2 ^ 31 ≤ (-8 : Word).toInt ∧ (-8 : Word).toInt < 2 ^ 31
      decide
    · decide +kernel
    · decide +kernel
  have hbase : exampleLsda.lpadBase context load 0x5000 = some 0x7000 := by decide
  exact ⟨wf, hbase, (find_eh_action_bytes wf true hbase (by decide) []).trans (by decide)⟩

/-- A base in each of the other encodings. -/
example :
    let context : EHContext := ⟨0x1015, 0x1000, 0x2000, 0x3000⟩
    ([⟨DW_EH_PE_absptr, 7⟩, ⟨DW_EH_PE_pcrel ||| DW_EH_PE_udata2, 7⟩,
        ⟨DW_EH_PE_datarel ||| DW_EH_PE_uleb128, 7⟩, ⟨DW_EH_PE_funcrel ||| DW_EH_PE_sdata8, 7⟩,
        ⟨DW_EH_PE_aligned, 7⟩] : List EncodedPointer).map
      (fun p ↦ (p.target context (fun _ ↦ none) 0x5001, (p.bytes 0x5001).length)) =
      [(some 7, 8), (some 0x5008, 2), (some 0x3007, 1), (some 0x1007, 8), (some 7, 15)] := by
  decide +kernel

end Lsda

end Elpytios
