import Elpytios.Bootinfo.Vaddr
import Elpytios.Bootloader.Recorded
import Elpytios.Kernel.Printing
import Elpytios.Lib.Reading

/-!
# The kernel

`main` from `kernel/src/main.rs` prints what it was handed: its own address, the regions of usable
memory and the range of virtual addresses.  A text reaches `write_str` in pieces.  A build with
debug assertions does not begin before a debugger clears `DEBUG_HALT`, and one that checks for
overflow panics at a region that reaches the end of the address space (`main_shows`).  Nothing is
lost by printing (`readGreeting_greeting`), so that the memory the bootloader has recorded can be
read from the screen (`exists_main_recorded`).
-/

namespace Elpytios

open Reading TextGrid

/-! ## Formatting -/

/-- `{:p}` of an address in a field of some width, which counts the prefix. -/
def pointer (width : ℕ) (a : Word) : String := "0x" ++ String.ofList (padded 16 (width - 2) a.toNat)

/-- `{:#018p}` -/
def PAddr.fmt (self : PAddr) : String := pointer 18 self.addr

/-- `{:#018p}` -/
def VAddr.fmt (self : VAddr) : String := pointer 18 self.addr

example : PAddr.fmt ⟨0x1f000⟩ = "0x000000000001f000" := by decide

/-- `{}` of a `usize`. -/
def decimal (n : Word) : String := n.toNat.repr

namespace Console

/-- `Write::write_fmt`: the pieces of a text, up to the first that is not written. -/
def write_fmt (self : Console) : List String → Except Console (Console × Except FmtError Unit)
  | [] => .ok (self, .ok ())
  | s :: pieces => do
      let (self, result) ← self.write_str s
      match result with
      | .ok () => self.write_fmt pieces
      | .error e => .ok (self, .error e)

theorem exists_of_bind_ok {x : Except Console Console} {f : Console → Except Console Console}
    {con : Console} (h : x >>= f = .ok con) : ∃ con₁, x = .ok con₁ ∧ f con₁ = .ok con := by
  cases x with
  | error con₁ => cases h
  | ok con₁ => exact ⟨con₁, rfl, h⟩

/-- `writeln!(..).unwrap()`, which panics if the line is not written. -/
def writeln (pieces : String → List String) (self : Console) (line : String) :
    Except Console Console := do
  let (self, result) ← self.write_fmt (pieces (line ++ "\n"))
  match result with
  | .ok () => .ok self
  | .error _ => .error self

end Console

/-- The result of an operation on `usize`.  There is none if it overflows and the build checks for
that, otherwise it wraps. -/
def usize (overflow_checks : Bool) (exact : ℕ) : Option Word :=
  if overflow_checks = true ∧ 2 ^ 64 ≤ exact then none else some (BitVec.ofNat 64 exact)

/-! ## What is printed -/

/-- What the kernel reads of what the bootloader has left for it. -/
structure BootInfo where
  graphics_info : GraphicsInfo
  memory_regions : RegionTable
  v_addr_start : VAddr
  v_addr_end : VAddr
deriving DecidableEq, Repr

def BootInfo.v_addr_range (self : BootInfo) : VAddr × VAddr := (self.v_addr_start, self.v_addr_end)

def helloLine (main_addr : Word) : String :=
  "Hello World from the Kernel, calling at address " ++ pointer 0 main_addr ++ "!!!!"

def foundLine (count : ℕ) : String := "Found " ++ count.repr ++ " usable physical memory regions!"

def regionLine (region : MemoryRegion) (stop : PAddr) : String :=
  "Usable physical memory in " ++ region.base.fmt ++ ".." ++ stop.fmt ++ ", " ++
    decimal region.pages ++ " pages!"

def rangeLine (range : VAddr × VAddr) : String :=
  "Higher-half virtual addressing available in range " ++ range.1.fmt ++ ".." ++ range.2.fmt

/-- `region.base.byte_add(region.pages * PAGE_SIZE)` -/
def regionEnd (overflow_checks : Bool) (region : MemoryRegion) : Option PAddr := do
  let size ← usize overflow_checks (region.pages.toNat * PAGE_SIZE)
  let stop ← usize overflow_checks (region.base.addr.toNat + size.toNat)
  return PAddr.new stop

section

variable (overflow_checks : Bool) (pieces : String → List String)

/-- The loop over the regions.  The end of a region is computed before its line is written. -/
def printRegions (self : Console) : List MemoryRegion → Except Console Console
  | [] => .ok self
  | region :: regions =>
      match regionEnd overflow_checks region with
      | none => .error self
      | some stop => do
          let self ← self.writeln pieces (regionLine region stop)
          printRegions self regions

/-- `main` from the first line that it prints on, up to its last loop.  There is nothing if it reads
a region that was not initialised. -/
def mainAfterPause (main_addr : Word) (boot_info : BootInfo) :
    Option (Except Console Console) := do
  let regions ← boot_info.memory_regions.memory_regions
  return do
    let display_writer := Console.new ⟨boot_info.graphics_info, 0, 0⟩
    let display_writer ← display_writer.writeln pieces (helloLine main_addr)
    let display_writer ← display_writer.writeln pieces (foundLine regions.length)
    let display_writer ← printRegions overflow_checks pieces display_writer regions
    display_writer.writeln pieces (rangeLine boot_info.v_addr_range)

end

/-- `pause`, where `debug_halt n` is what read number `n` of `DEBUG_HALT` finds.  There is nothing
if it is still waiting after `fuel` reads. -/
def pause (debug_halt : ℕ → Byte) : ℕ → Option Unit
  | 0 => none
  | fuel + 1 => if debug_halt 0 = 0 then some () else pause (fun n ↦ debug_halt (n + 1)) fuel

/-- What a profile says of a build. -/
structure Profile where
  debug_assertions : Bool
  overflow_checks : Bool
deriving DecidableEq, Repr

/-- `main`, up to its last loop. -/
def main (profile : Profile) (pieces : String → List String) (main_addr : Word)
    (boot_info : BootInfo) (debug_halt : ℕ → Byte) (fuel : ℕ) :
    Option (Except Console Console) := do
  if profile.debug_assertions then pause debug_halt fuel
  mainAfterPause profile.overflow_checks pieces main_addr boot_info

/-- The end of a region, which wraps. -/
def MemoryRegion.wrappedEnd (self : MemoryRegion) : PAddr :=
  self.base.byte_add (self.pages * BitVec.ofNat 64 PAGE_SIZE)

/-- The lines that are printed. -/
def greeting (main_addr : Word) (regions : List MemoryRegion) (range : VAddr × VAddr) :
    List String :=
  helloLine main_addr :: foundLine regions.length ::
    ((regions.map fun region ↦ regionLine region region.wrappedEnd) ++ [rangeLine range])

/-- The bytes of some lines. -/
def linesBytes (lines : List String) : List Byte := lines.flatMap fun line ↦ bytes (line ++ "\n")

theorem linesBytes_cons (line : String) (lines : List String) :
    linesBytes (line :: lines) = bytes (line ++ "\n") ++ linesBytes lines := List.flatMap_cons

theorem linesBytes_append (lines lines' : List String) :
    linesBytes (lines ++ lines') = linesBytes lines ++ linesBytes lines' := List.flatMap_append

/-- The characters of some lines. -/
def linesChars (lines : List String) : List Char := lines.flatMap fun line ↦ (line ++ "\n").toList

/-! ## The text is in the font -/

/-- The characters of a text are in the font. -/
def InFont (s : String) : Prop := ∀ ch ∈ s.toList, ch.toNat ≤ 126

instance (s : String) : Decidable (InFont s) :=
  List.decidableBAll (fun ch : Char ↦ ch.toNat ≤ 126) s.toList

section

variable {s t : String}

theorem InFont.append (hs : InFont s) (ht : InFont t) : InFont (s ++ t) := by
  intro ch hch
  rw [String.toList_append] at hch
  exact (List.mem_append.mp hch).elim (hs ch) (ht ch)

theorem toNat_digitChar_le {d : ℕ} (hd : d < 16) : d.digitChar.toNat ≤ 126 := by
  have hall : ∀ x : Fin 16, (Nat.digitChar x).toNat ≤ 126 := by decide
  exact hall ⟨d, hd⟩

theorem inFont_repr (n : ℕ) : InFont n.repr := by
  intro ch hch
  rw [Nat.toList_repr] at hch
  obtain ⟨d, hd, rfl⟩ := exists_of_mem_toDigits (by decide) hch
  exact toNat_digitChar_le (hd.trans (by decide))

theorem inFont_pointer (width : ℕ) (a : Word) : InFont (pointer width a) := by
  refine InFont.append (by decide) fun ch hch ↦ ?_
  rw [String.toList_ofList] at hch
  obtain ⟨d, hd, rfl⟩ := exists_of_mem_padded (by decide) hch
  exact toNat_digitChar_le hd

theorem inFont_helloLine (main_addr : Word) : InFont (helloLine main_addr) :=
  (InFont.append (by decide) (inFont_pointer _ _)).append (by decide)

theorem inFont_foundLine (count : ℕ) : InFont (foundLine count) :=
  (InFont.append (by decide) (inFont_repr _)).append (by decide)

theorem inFont_regionLine (region : MemoryRegion) (stop : PAddr) :
    InFont (regionLine region stop) :=
  (((((InFont.append (by decide) (inFont_pointer _ _)).append (by decide)).append
    (inFont_pointer _ _)).append (by decide)).append (inFont_repr _)).append (by decide)

theorem inFont_rangeLine (range : VAddr × VAddr) : InFont (rangeLine range) :=
  ((InFont.append (by decide) (inFont_pointer _ _)).append (by decide)).append (inFont_pointer _ _)

theorem inFont_of_mem_greeting {main_addr : Word} {regions : List MemoryRegion}
    {range : VAddr × VAddr} {line : String} (h : line ∈ greeting main_addr regions range) :
    InFont line := by
  simp only [greeting, List.mem_cons, List.mem_append, List.not_mem_nil, or_false,
    List.mem_map] at h
  rcases h with rfl | rfl | ⟨region, -, rfl⟩ | rfl
  · exact inFont_helloLine main_addr
  · exact inFont_foundLine _
  · exact inFont_regionLine region _
  · exact inFont_rangeLine range

end

/-! ## The end of a region -/

section

variable {overflow_checks : Bool} {region : MemoryRegion}

theorem usize_eq_some {exact : ℕ} (h : overflow_checks = true → exact < 2 ^ 64) :
    usize overflow_checks exact = some (BitVec.ofNat 64 exact) :=
  if_neg fun hover ↦ Nat.not_le.mpr (h hover.1) hover.2

theorem regionEnd_eq_some (h : overflow_checks = true → region.stop < 2 ^ 64) :
    regionEnd overflow_checks region = some region.wrappedEnd := by
  have hsize : overflow_checks = true → region.pages.toNat * PAGE_SIZE < 2 ^ 64 :=
    fun hchecks ↦ (Nat.le_add_left _ _).trans_lt (h hchecks)
  have hstop : overflow_checks = true →
      region.base.addr.toNat + (BitVec.ofNat 64 (region.pages.toNat * PAGE_SIZE)).toNat <
        2 ^ 64 := by
    intro hchecks
    rw [BitVec.toNat_ofNat, Nat.mod_eq_of_lt (hsize hchecks)]
    exact h hchecks
  rw [regionEnd, usize_eq_some hsize, Option.bind_eq_bind, Option.bind_some, usize_eq_some hstop]
  change some (PAddr.new _) = _
  rw [MemoryRegion.wrappedEnd, PAddr.byte_add, PAddr.new, BitVec.ofNat_add, BitVec.ofNat_toNat,
    BitVec.ofNat_toNat, BitVec.setWidth_eq, BitVec.setWidth_eq, BitVec.ofNat_mul,
    BitVec.ofNat_toNat, BitVec.setWidth_eq]

/-- A build that checks for overflow finds no end of a region that reaches the end of the address
space. -/
theorem lt_of_regionEnd {stop : PAddr} (h : regionEnd true region = some stop) :
    region.stop < 2 ^ 64 := by
  by_contra hge
  rw [Nat.not_lt] at hge
  rcases Nat.lt_or_ge (region.pages.toNat * PAGE_SIZE) (2 ^ 64) with hlt | hle
  · have hstop : usize true (region.base.addr.toNat +
        (BitVec.ofNat 64 (region.pages.toNat * PAGE_SIZE)).toNat) = none := by
      rw [BitVec.toNat_ofNat, Nat.mod_eq_of_lt hlt]
      exact if_pos ⟨rfl, hge⟩
    rw [regionEnd, usize_eq_some fun _ ↦ hlt, Option.bind_eq_bind, Option.bind_some, hstop] at h
    cases h
  · have hsize : usize true (region.pages.toNat * PAGE_SIZE) = none := if_pos ⟨rfl, hle⟩
    rw [regionEnd, hsize] at h
    cases h

end

/-! ## Typing -/

/-- A text is typed from a cell on: it is drawn, and the cursor is after it. -/
structure Typed {g : GraphicsInfo} (hg : g.Drawable) (c : TextCell g) (text : List Byte)
    (con con' : Console) : Prop where
  writes_eq : con'.writes = con.writes ++ hg.drawn (written 0 c (text.map key))
  at_after : At g (c.after (text.map key)) con'.writer

section

variable {g : GraphicsInfo} {hg : g.Drawable} {c : TextCell g} {text text' : List Byte}
  {con con' con'' : Console}

theorem Typed.nil (h : At g c con.writer) : Typed hg c [] con con where
  writes_eq := by rw [List.map_nil, written, drawn_nil, List.append_nil]
  at_after := h

theorem Typed.append (h : Typed hg c text con con')
    (h' : Typed hg (c.after (text.map key)) text' con' con'') :
    Typed hg c (text ++ text') con con'' where
  writes_eq := by
    rw [h'.writes_eq, h.writes_eq, List.map_append, written_append, drawn_append,
      List.append_assoc]
  at_after := by
    rw [List.map_append, Cell.after_append]
    exact h'.at_after

variable (hg)

/-- The pieces of a text are typed one after the other. -/
theorem exists_write_fmt {pieces : List String} (h : At g c con.writer)
    (hpieces : ∀ s ∈ pieces, ∀ b ∈ bytes s, b ≤ 126) :
    ∃ con', con.write_fmt pieces = .ok (con', .ok ()) ∧
      Typed hg c (pieces.flatMap bytes) con con' := by
  induction pieces generalizing con c with
  | nil => exact ⟨con, rfl, .nil h⟩
  | cons s pieces ih =>
      obtain ⟨writer, hwrite, hat⟩ := writeBytes_eq hg h (hpieces s List.mem_cons_self)
      let con₁ : Console := ⟨writer, con.writes ++ hg.drawn (written 0 c ((bytes s).map key))⟩
      have hcon₁ : At g (c.after ((bytes s).map key)) con₁.writer := hat
      obtain ⟨con', hrest, htyped⟩ := ih hcon₁ fun s hs ↦ hpieces s (List.mem_cons_of_mem _ hs)
      refine ⟨con', ?_, List.flatMap_cons ▸ Typed.append ⟨rfl, hat⟩ htyped⟩
      rw [Console.write_fmt, Console.write_str, hwrite]
      exact hrest

variable {pieces : String → List String} (hpieces : ∀ s, (pieces s).flatMap bytes = bytes s)

include hpieces

/-- A line is typed, however it is cut into pieces. -/
theorem exists_writeln {line : String} (h : At g c con.writer) (hline : InFont line) :
    ∃ con', con.writeln pieces line = .ok con' ∧
      Typed hg c (bytes (line ++ "\n")) con con' := by
  have hbytes : ∀ s ∈ pieces (line ++ "\n"), ∀ b ∈ bytes s, b ≤ 126 := by
    intro s hs b hb
    refine (bytes_le_iff (line ++ "\n")).mpr (hline.append (by decide)) b ?_
    rw [← hpieces]
    exact List.mem_flatMap.mpr ⟨s, hs, hb⟩
  obtain ⟨con', hwrite, htyped⟩ := exists_write_fmt hg h hbytes
  rw [hpieces] at htyped
  refine ⟨con', ?_, htyped⟩
  rw [Console.writeln, hwrite]
  rfl

/-- The lines of the regions are typed if none of these makes the loop panic. -/
theorem exists_printRegions {overflow_checks : Bool} {regions : List MemoryRegion}
    (h : At g c con.writer) (hfits : overflow_checks = true → ∀ region ∈ regions,
      region.stop < 2 ^ 64) :
    ∃ con', printRegions overflow_checks pieces con regions = .ok con' ∧
      Typed hg c (linesBytes (regions.map fun region ↦ regionLine region region.wrappedEnd))
        con con' := by
  induction regions generalizing con c with
  | nil => exact ⟨con, rfl, .nil h⟩
  | cons region regions ih =>
      have hend := regionEnd_eq_some fun hchecks ↦ hfits hchecks region List.mem_cons_self
      obtain ⟨con₁, hline, htyped⟩ :=
        exists_writeln hg hpieces h (inFont_regionLine region region.wrappedEnd)
      obtain ⟨con', hrest, htyped'⟩ := ih htyped.at_after
        fun hchecks region hregion ↦ hfits hchecks region (List.mem_cons_of_mem _ hregion)
      rw [List.map_cons, linesBytes_cons]
      refine ⟨con', ?_, htyped.append htyped'⟩
      rw [printRegions, hend]
      change (con.writeln pieces (regionLine region region.wrappedEnd) >>= _) = _
      rw [hline]
      exact hrest

omit hpieces in
/-- The loop over the regions panics at the first whose end overflows. -/
theorem lt_of_printRegions {regions : List MemoryRegion}
    (h : printRegions true pieces con regions = .ok con') :
    ∀ region ∈ regions, region.stop < 2 ^ 64 := by
  induction regions generalizing con with
  | nil => intro region hregion; cases hregion
  | cons region regions ih =>
      rw [printRegions] at h
      cases hend : regionEnd true region with
      | none => rw [hend] at h; cases h
      | some stop =>
          rw [hend] at h
          obtain ⟨con₁, -, h⟩ := Console.exists_of_bind_ok h
          exact List.forall_mem_cons.mpr ⟨lt_of_regionEnd hend, ih h⟩

end

/-! ## Waiting for a debugger -/

theorem exists_of_pause {debug_halt : ℕ → Byte} {fuel : ℕ} (h : pause debug_halt fuel = some ()) :
    ∃ n, debug_halt n = 0 := by
  induction fuel generalizing debug_halt with
  | zero => cases h
  | succ fuel ih =>
      by_cases hzero : debug_halt 0 = 0
      · exact ⟨0, hzero⟩
      · rw [pause, if_neg hzero] at h
        obtain ⟨n, hn⟩ := ih h
        exact ⟨n + 1, hn⟩

/-- The pause ends at the first read that finds zero. -/
theorem pause_of_zero {debug_halt : ℕ → Byte} {n : ℕ} (h : debug_halt n = 0) :
    pause debug_halt (n + 1) = some () := by
  induction n generalizing debug_halt with
  | zero => exact if_pos h
  | succ n ih =>
      rw [pause]
      split_ifs with hzero
      · rfl
      · exact ih h

theorem main_eq_some {profile : Profile} {pieces : String → List String} {main_addr : Word}
    {boot_info : BootInfo} {debug_halt : ℕ → Byte} {fuel : ℕ} {result : Except Console Console} :
    main profile pieces main_addr boot_info debug_halt fuel = some result ↔
      (profile.debug_assertions = true → pause debug_halt fuel = some ()) ∧
        mainAfterPause profile.overflow_checks pieces main_addr boot_info = some result := by
  rw [main]
  cases profile.debug_assertions with
  | false =>
      refine ⟨fun h ↦ ⟨nofun, h⟩, fun h ↦ h.2⟩
  | true =>
      cases hpause : pause debug_halt fuel with
      | none => simp
      | some u => simp

/-! ## The kernel -/

/-- The first cell of a display. -/
def firstCell {g : GraphicsInfo} (hg : g.Drawable) : TextCell g where
  line := ⟨0, Nat.div_pos hg.h_ge (by decide)⟩
  col := ⟨0, Nat.div_pos hg.w_ge (by decide)⟩

theorem at_firstCell {g : GraphicsInfo} (hg : g.Drawable) :
    At g (firstCell hg) (Console.new ⟨g, 0, 0⟩).writer := ⟨rfl, rfl, rfl⟩

section

variable {pieces : String → List String} (hpieces : ∀ s, (pieces s).flatMap bytes = bytes s)
  {boot_info : BootInfo} (hg : boot_info.graphics_info.Drawable) {overflow_checks : Bool}
  {main_addr : Word} {regions : List MemoryRegion}

include hpieces

/-- `main` types its lines if the ends of the regions do not make it panic. -/
theorem exists_mainAfterPause (hregions : boot_info.memory_regions.memory_regions = some regions)
    (hfits : overflow_checks = true → ∀ region ∈ regions, region.stop < 2 ^ 64) :
    ∃ con, mainAfterPause overflow_checks pieces main_addr boot_info = some (.ok con) ∧
      Typed hg (firstCell hg) (linesBytes (greeting main_addr regions boot_info.v_addr_range))
        (Console.new ⟨boot_info.graphics_info, 0, 0⟩) con := by
  obtain ⟨con₁, hhello, htyped₁⟩ :=
    exists_writeln hg hpieces (at_firstCell hg) (inFont_helloLine main_addr)
  obtain ⟨con₂, hfound, htyped₂⟩ :=
    exists_writeln hg hpieces htyped₁.at_after (inFont_foundLine regions.length)
  obtain ⟨con₃, hloop, htyped₃⟩ := exists_printRegions hg hpieces htyped₂.at_after hfits
  obtain ⟨con₄, hrange, htyped₄⟩ :=
    exists_writeln hg hpieces htyped₃.at_after (inFont_rangeLine boot_info.v_addr_range)
  refine ⟨con₄, ?_, ?_⟩
  · rw [mainAfterPause, hregions]
    change some (Console.writeln pieces _ _ >>= _) = _
    rw [hhello]
    change some (Console.writeln pieces _ _ >>= _) = _
    rw [hfound]
    change some (printRegions _ _ _ _ >>= _) = _
    rw [hloop]
    exact congrArg some hrange
  · have htyped := htyped₁.append (htyped₂.append (htyped₃.append htyped₄))
    have hlast (line : String) : linesBytes [line] = bytes (line ++ "\n") :=
      List.flatMap_singleton ..
    rw [greeting, linesBytes_cons, linesBytes_cons, linesBytes_append, hlast]
    exact htyped

omit hpieces in
theorem lt_of_mainAfterPause {con : Console}
    (hregions : boot_info.memory_regions.memory_regions = some regions)
    (h : mainAfterPause true pieces main_addr boot_info = some (.ok con)) :
    ∀ region ∈ regions, region.stop < 2 ^ 64 := by
  rw [mainAfterPause, hregions] at h
  obtain ⟨con₁, -, h⟩ := Console.exists_of_bind_ok (Option.some.inj h)
  obtain ⟨con₂, -, h⟩ := Console.exists_of_bind_ok h
  obtain ⟨con₃, hloop, -⟩ := Console.exists_of_bind_ok h
  exact lt_of_printRegions hloop

/-- If no region makes `main` panic, the screen shows its lines from the first cell on. -/
theorem exists_main_rendered {profile : Profile} {debug_halt : ℕ → Byte}
    (hhalt : profile.debug_assertions = true → ∃ n, debug_halt n = 0)
    (hknown : boot_info.graphics_info.Known)
    (hregions : boot_info.memory_regions.memory_regions = some regions)
    (hfits : profile.overflow_checks = true → ∀ region ∈ regions, region.stop < 2 ^ 64)
    (pixels : ℕ → Pixel) :
    ∃ fuel con, main profile pieces main_addr boot_info debug_halt fuel = some (.ok con) ∧
      con.writer.InRange ∧ Rendered hg (firstCell hg)
        (linesBytes (greeting main_addr regions boot_info.v_addr_range)) pixels con := by
  obtain ⟨⟨writer, writes⟩, hmain, htyped⟩ := exists_mainAfterPause hpieces hg hregions hfits
  obtain ⟨fuel, hpause⟩ : ∃ fuel, profile.debug_assertions = true →
      pause debug_halt fuel = some () := by
    by_cases hassertions : profile.debug_assertions = true
    · obtain ⟨n, hn⟩ := hhalt hassertions
      exact ⟨n + 1, fun _ ↦ pause_of_zero hn⟩
    · exact ⟨0, fun h ↦ absurd h hassertions⟩
  have hbytes : ∀ b ∈ linesBytes (greeting main_addr regions boot_info.v_addr_range), b ≤ 126 := by
    intro b hb
    obtain ⟨line, hline, hb⟩ := List.mem_flatMap.mp hb
    exact (bytes_le_iff _).mpr ((inFont_of_mem_greeting hline).append (by decide)) b hb
  refine ⟨fuel, _, main_eq_some.mpr ⟨hpause, hmain⟩, htyped.at_after.inRange, ?_⟩
  obtain rfl : writes = _ := htyped.writes_eq
  exact rendered_drawn hg hknown hbytes pixels

variable (profile : Profile) (debug_halt : ℕ → Byte) (main_addr)

/-- `main` gets to its last loop exactly if it does not wait for ever and no region makes it panic,
and then the screen shows its lines from the first cell on. -/
theorem main_shows (hknown : boot_info.graphics_info.Known)
    (hregions : boot_info.memory_regions.memory_regions = some regions) (pixels : ℕ → Pixel) :
    ((∃ fuel con, main profile pieces main_addr boot_info debug_halt fuel = some (.ok con)) ↔
      (profile.debug_assertions = true → ∃ n, debug_halt n = 0) ∧
        (profile.overflow_checks = true → ∀ region ∈ regions, region.stop < 2 ^ 64)) ∧
    ∀ fuel con, main profile pieces main_addr boot_info debug_halt fuel = some (.ok con) →
      con.writer.InRange ∧ Rendered hg (firstCell hg)
        (linesBytes (greeting main_addr regions boot_info.v_addr_range)) pixels con := by
  have hconditions {fuel : ℕ} {con : Console}
      (h : main profile pieces main_addr boot_info debug_halt fuel = some (.ok con)) :
      (profile.debug_assertions = true → ∃ n, debug_halt n = 0) ∧
        (profile.overflow_checks = true → ∀ region ∈ regions, region.stop < 2 ^ 64) := by
    obtain ⟨hpause, hprint⟩ := main_eq_some.mp h
    refine ⟨fun hassertions ↦ exists_of_pause (hpause hassertions), fun hchecks ↦ ?_⟩
    rw [hchecks] at hprint
    exact lt_of_mainAfterPause hregions hprint
  refine ⟨⟨fun ⟨fuel, con, h⟩ ↦ hconditions h, fun ⟨hhalt, hfits⟩ ↦ ?_⟩, fun fuel con h ↦ ?_⟩
  · obtain ⟨fuel, con, hmain, -⟩ :=
      exists_main_rendered hpieces hg hhalt hknown hregions hfits pixels
    exact ⟨fuel, con, hmain⟩
  · obtain ⟨hhalt, hfits⟩ := hconditions h
    obtain ⟨fuel', con', hmain, hshown⟩ :=
      exists_main_rendered hpieces hg hhalt hknown hregions hfits pixels
    have hsame := (main_eq_some.mp h).2.symm.trans (main_eq_some.mp hmain).2
    obtain rfl : con = con' := Except.ok.inj (Option.some.inj hsame)
    exact hshown

end

/-- A display with a region of sixteen pages to print, in a debug build whose debugger clears
`DEBUG_HALT` before the third read. -/
theorem main_shows_one_region :
    let boot_info : BootInfo := ⟨smallDisplay, ⟨[some ⟨⟨0x10000⟩, 16⟩, none], 1⟩,
      ⟨0xffffffff8000b000⟩, ⟨0xffffffffffffffff⟩⟩
    let debug_halt : ℕ → Byte := fun n ↦ if n < 2 then 1 else 0
    ((∃ fuel con, main ⟨true, true⟩ (fun s ↦ [s]) 0xffffffff80000005 boot_info debug_halt fuel =
        some (.ok con)) ↔
      (true = true → ∃ n, debug_halt n = 0) ∧
        (true = true → ∀ region ∈ [⟨⟨0x10000⟩, 16⟩], MemoryRegion.stop region < 2 ^ 64)) ∧
    ∀ fuel con, main ⟨true, true⟩ (fun s ↦ [s]) 0xffffffff80000005 boot_info debug_halt fuel =
        some (.ok con) → con.writer.InRange ∧
      Rendered smallDisplay_drawable (firstCell smallDisplay_drawable)
        (linesBytes (greeting 0xffffffff80000005 [⟨⟨0x10000⟩, 16⟩] boot_info.v_addr_range))
        (fun _ ↦ 0x12345678) con := by
  intro boot_info debug_halt
  have hg : boot_info.graphics_info.Drawable := smallDisplay_drawable
  exact main_shows (fun _ ↦ List.flatMap_singleton ..) hg _ ⟨true, true⟩ debug_halt (Or.inr rfl)
    rfl _

/-! ## Reading back -/

def readWord (b : ℕ) : Reading.Reader Word := do
  let n ← number b
  pure (BitVec.ofNat 64 n)

def readPointer : Reading.Reader Word := do
  literal "0x".toList
  readWord 16

def readRegion : Reading.Reader MemoryRegion := do
  literal "Usable physical memory in ".toList
  let base ← readPointer
  literal "..".toList
  let _ ← readPointer
  literal ", ".toList
  let pages ← readWord 10
  literal " pages!".toList
  literal "\n".toList
  pure ⟨⟨base⟩, pages⟩

/-- Read what `main` prints. -/
def readGreeting : Reading.Reader (Word × List MemoryRegion × VAddr × VAddr) := do
  literal "Hello World from the Kernel, calling at address ".toList
  let main_addr ← readPointer
  literal "!!!!".toList
  literal "\n".toList
  literal "Found ".toList
  let count ← number 10
  literal " usable physical memory regions!".toList
  literal "\n".toList
  let regions ← times count readRegion
  literal "Higher-half virtual addressing available in range ".toList
  let v_addr_start ← readPointer
  literal "..".toList
  let v_addr_end ← readPointer
  literal "\n".toList
  pure (main_addr, regions, ⟨v_addr_start⟩, ⟨v_addr_end⟩)

section

variable {s : List Char}

theorem readPointer_pointer (width : ℕ) (a : Word) (h : Stops 16 s) :
    readPointer ((pointer width a).toList ++ s) = some (a, s) := by
  have hpointer : (pointer width a).toList = "0x".toList ++ padded 16 (width - 2) a.toNat := by
    rw [pointer, String.toList_append]
    exact congrArg _ String.toList_ofList
  rw [hpointer, List.append_assoc, readPointer, bind_of_some (literal_append _ _), readWord,
    bind_of_some (number_padded (by decide) (by decide) _ _ h), BitVec.ofNat_toNat,
    BitVec.setWidth_eq]
  rfl

theorem readWord_decimal (n : Word) (h : Stops 10 s) :
    readWord 10 ((decimal n).toList ++ s) = some (n, s) := by
  rw [decimal, Nat.toList_repr, readWord,
    bind_of_some (number_toDigits (by decide) (by decide) _ h), BitVec.ofNat_toNat,
    BitVec.setWidth_eq]
  rfl

theorem readRegion_regionLine (region : MemoryRegion) (stop : PAddr) :
    readRegion ((regionLine region stop ++ "\n").toList ++ s) = some (region, s) := by
  have hdots (s : List Char) : Stops 16 ("..".toList ++ s) := .append (by decide) (by decide)
  have hcomma (s : List Char) : Stops 16 (", ".toList ++ s) := .append (by decide) (by decide)
  have hpages (s : List Char) : Stops 10 (" pages!".toList ++ s) := .append (by decide) (by decide)
  delta regionLine PAddr.fmt
  simp only [String.toList_append, List.append_assoc]
  rw [readRegion, bind_of_some (literal_append _ _),
    bind_of_some (readPointer_pointer _ _ (hdots _)),
    bind_of_some (literal_append _ _), bind_of_some (readPointer_pointer _ _ (hcomma _)),
    bind_of_some (literal_append _ _), bind_of_some (readWord_decimal _ (hpages _)),
    bind_of_some (literal_append _ _), bind_of_some (literal_append _ _)]
  rfl

/-- The text that is printed determines what is printed. -/
theorem readGreeting_greeting (main_addr : Word) (regions : List MemoryRegion)
    (range : VAddr × VAddr) (s : List Char) :
    readGreeting (linesChars (greeting main_addr regions range) ++ s) =
      some ((main_addr, regions, range), s) := by
  have hmarks (s : List Char) : Stops 16 ("!!!!".toList ++ s) := .append (by decide) (by decide)
  have hdots (s : List Char) : Stops 16 ("..".toList ++ s) := .append (by decide) (by decide)
  have hnewline (s : List Char) : Stops 16 ("\n".toList ++ s) := .append (by decide) (by decide)
  have husable (s : List Char) : Stops 10 (" usable physical memory regions!".toList ++ s) :=
    .append (by decide) (by decide)
  have hregions (s : List Char) : times regions.length readRegion
      ((regions.map fun region ↦ regionLine region region.wrappedEnd).flatMap
        (fun line ↦ line.toList ++ "\n".toList) ++ s) = some (regions, s) := by
    rw [List.flatMap_map]
    refine times_flatMap (fun region _ s ↦ ?_) s
    rw [← String.toList_append]
    exact readRegion_regionLine region _
  rw [linesChars, greeting, List.flatMap_cons, List.flatMap_cons, List.flatMap_append,
    List.flatMap_singleton]
  delta helloLine foundLine rangeLine VAddr.fmt
  simp only [String.toList_append, List.append_assoc, Nat.toList_repr]
  rw [readGreeting, bind_of_some (literal_append _ _),
    bind_of_some (readPointer_pointer _ _ (hmarks _)), bind_of_some (literal_append _ _),
    bind_of_some (literal_append _ _), bind_of_some (literal_append _ _),
    bind_of_some (number_toDigits (by decide) (by decide) _ (husable _)),
    bind_of_some (literal_append _ _), bind_of_some (literal_append _ _),
    bind_of_some (hregions _), bind_of_some (literal_append _ _),
    bind_of_some (readPointer_pointer _ _ (hdots _)), bind_of_some (literal_append _ _),
    bind_of_some (readPointer_pointer _ _ (hnewline _)), bind_of_some (literal_append _ _)]
  rfl

end

/-! ## From the memory map to the screen -/

section

variable {entries : List MemoryDescriptor}

/-- A region that is found to end where an entry begins does so. -/
theorem stop_eq_lo {reg : MemoryRegion} {entry : MemoryDescriptor} (hreg : reg.stop < 2 ^ 64)
    (htouch : reg.base.addr + reg.pages * BitVec.ofNat 64 PAGE_SIZE = entry.phys_start) :
    reg.stop = entry.lo := by
  have hstart := congrArg BitVec.toNat htouch
  rw [BitVec.toNat_add, BitVec.toNat_mul, BitVec.toNat_ofNat] at hstart
  simp only [MemoryRegion.stop, MemoryDescriptor.lo, PAGE_SIZE] at hreg hstart ⊢
  omega

/-- If no entry reaches the end of the address space, no region does. -/
theorem stop_lt_of_groupEntries {written : List MemoryRegion} {region : Option MemoryRegion}
    (hfits : ∀ entry ∈ entries, entry.hi < 2 ^ 64)
    (h : ∀ reg ∈ written ++ region.toList, reg.stop < 2 ^ 64) :
    ∀ reg ∈ (groupEntries entries written region).1 ++
      (groupEntries entries written region).2.toList, reg.stop < 2 ^ 64 := by
  fun_induction groupEntries entries written region with
  | case1 written region => exact h
  | case2 entry entries written region hu ih => exact ih (fun e he ↦ hfits e (.tail _ he)) h
  | case3 entry entries written hu ih =>
      rw [Option.toList_none, List.append_nil] at h
      refine ih (fun e he ↦ hfits e (.tail _ he)) (List.forall_mem_append.mpr ⟨h, ?_⟩)
      exact List.forall_mem_singleton.mpr (hfits entry List.mem_cons_self)
  | case4 entry entries written hu reg htouch ih =>
      obtain ⟨hwritten, hreg⟩ := List.forall_mem_append.mp h
      have hentry := hfits entry List.mem_cons_self
      have hgrow := stop_grow (stop_eq_lo (hreg reg (List.mem_singleton_self reg)) htouch) hentry.le
      refine ih (fun e he ↦ hfits e (.tail _ he)) (List.forall_mem_append.mpr ⟨hwritten, ?_⟩)
      exact List.forall_mem_singleton.mpr (hgrow ▸ hentry)
  | case5 entry entries written hu reg htouch hlong hfull =>
      refine List.forall_mem_append.mpr ⟨h, ?_⟩
      exact List.forall_mem_singleton.mpr (hfits entry List.mem_cons_self)
  | case6 entry entries written hu reg htouch hlong hfull ih =>
      refine ih (fun e he ↦ hfits e (.tail _ he)) (List.forall_mem_append.mpr ⟨h, ?_⟩)
      exact List.forall_mem_singleton.mpr (hfits entry List.mem_cons_self)
  | case7 entry entries written hu reg htouch hlong ih =>
      refine ih (fun e he ↦ hfits e (.tail _ he)) ?_
      rw [Option.toList_none, List.append_nil]
      exact (List.forall_mem_append.mp h).1

theorem stop_lt_of_flush {written : List MemoryRegion} {region : Option MemoryRegion}
    (h : ∀ reg ∈ written ++ region.toList, reg.stop < 2 ^ 64) :
    ∀ reg ∈ flush (written, region), reg.stop < 2 ^ 64 := by
  rcases region with - | region
  · rwa [Option.toList_none, List.append_nil] at h
  · rw [flush]
    split_ifs
    · exact h
    · exact (List.forall_mem_append.mp h).1

end

/-- Whatever the order of the memory map, the kernel gets to its last loop, and from the lines that
the screen shows can be read which regions the bootloader has recorded, whose pages are usable and
in no other region. -/
theorem exists_main_recorded {sort_unstable : List MemoryRegion → List MemoryRegion}
    (hsort : SortsByPages sort_unstable) {entries : List MemoryDescriptor} (h : Separate entries)
    (hfits : ∀ entry ∈ entries, entry.hi < 2 ^ 64) {g : GraphicsInfo} (hg : g.Drawable)
    (hknown : g.Known) {pieces : String → List String}
    (hpieces : ∀ s, (pieces s).flatMap bytes = bytes s) {profile : Profile}
    {debug_halt : ℕ → Byte} (hhalt : profile.debug_assertions = true → ∃ n, debug_halt n = 0)
    (main_addr : Word) (v_addr_start v_addr_end : VAddr) (pixels : ℕ → Pixel) :
    ∃ table regions fuel con, recordRegions sort_unstable entries = some table ∧
      table.memory_regions = some regions ∧ SoundRegions entries regions ∧
      main profile pieces main_addr ⟨g, table, v_addr_start, v_addr_end⟩ debug_halt fuel =
        some (.ok con) ∧
      Rendered hg (firstCell hg)
        (linesBytes (greeting main_addr regions (v_addr_start, v_addr_end))) pixels con := by
  obtain ⟨table, hrecord, hholds, -⟩ := exists_recordRegions hsort entries
  have hstop : ∀ region ∈ sort_unstable (flush (groupEntries entries [] none)),
      region.stop < 2 ^ 64 := by
    intro region hregion
    refine stop_lt_of_flush ?_ region ((hsort.perm _).subset hregion)
    exact stop_lt_of_groupEntries hfits fun reg hreg ↦ absurd hreg List.not_mem_nil
  let boot_info : BootInfo := ⟨g, table, v_addr_start, v_addr_end⟩
  have hregions : boot_info.memory_regions.memory_regions = some _ := hholds.memory_regions
  obtain ⟨fuel, con, hmain, -, hrendered⟩ :=
    exists_main_rendered hpieces hg hhalt hknown hregions (fun _ ↦ hstop) pixels
  exact ⟨table, _, fuel, con, hrecord, hregions, h.soundRegions (hsort.perm _), hmain, hrendered⟩

end Elpytios
