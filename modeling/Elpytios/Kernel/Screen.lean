import Elpytios.Kernel.Rendering
import Elpytios.Lib.Bits
import Elpytios.Lib.TextGrid

/-!
# The text on the screen

The cursor of `DisplayWriter` is a cell of a grid of text, and what `write_str` writes to the
framebuffer is the drawing of what is typed.
-/

namespace Elpytios

open TextGrid

/-- A display with room for a character, and with a framebuffer that has its pixels. -/
structure GraphicsInfo.Drawable (g : GraphicsInfo) : Prop where
  w_ge : FONT_WIDTH + HORIZONTAL_SPACING ≤ g.w.toNat
  h_ge : FONT_HEIGHT + VERTICAL_SPACING ≤ g.h.toNat
  stride_ge : g.w.toNat ≤ g.stride.toNat
  size_ge : g.stride.toNat * g.h.toNat * 4 ≤ g.frame_buffer_size.toNat

/-- The cursor is in range. -/
structure DisplayWriter.InRange (writer : DisplayWriter) : Prop where
  line_lt : writer.line < writer.lines
  col_lt : writer.col < writer.columns

/-- The cells of a display. -/
abbrev TextCell (g : GraphicsInfo) :=
  Cell (g.h.toNat / (FONT_HEIGHT + VERTICAL_SPACING))
    (g.w.toNat / (FONT_WIDTH + HORIZONTAL_SPACING))

/-- Where the cells of a display are in its framebuffer. -/
abbrev GraphicsInfo.Drawable.layout {g : GraphicsInfo} (h : g.Drawable) :
    Layout (g.h.toNat / (FONT_HEIGHT + VERTICAL_SPACING))
      (g.w.toNat / (FONT_WIDTH + HORIZONTAL_SPACING)) where
  width := FONT_WIDTH
  height := FONT_HEIGHT
  pitchX := FONT_WIDTH + HORIZONTAL_SPACING
  pitchY := FONT_HEIGHT + VERTICAL_SPACING
  stride := g.stride.toNat
  width_le := Nat.le_add_right _ _
  height_le := Nat.le_add_right _ _
  columns_le := (Nat.div_mul_le_self _ _).trans h.stride_ge

/-- The colour of a point of a character. -/
def shade (character : Glyph) (x : Fin FONT_WIDTH) (y : Fin FONT_HEIGHT) : Pixel :=
  if (character.get ⟨12 - y, Nat.sub_lt_of_lt (by decide)⟩).getLsbD (7 - x) then 0xBBBBBBBB else 0

/-- The colour of a point of the character that a byte stands for. -/
def byteShade (ch : Byte) (x : Fin FONT_WIDTH) (y : Fin FONT_HEIGHT) : Pixel :=
  (get_character ch).elim 0 fun character ↦ shade character x y

/-- A display whose pixel format is known. -/
def GraphicsInfo.Known (g : GraphicsInfo) : Prop :=
  g.pixel_format = .RGB_8_BIT ∨ g.pixel_format = .BGR_8_BIT

instance (g : GraphicsInfo) : Decidable g.Known := inferInstanceAs (Decidable (_ ∨ _))

/-- The writes that draw what is placed.  There are none if the pixel format is not known. -/
def GraphicsInfo.Drawable.drawn {g : GraphicsInfo} (h : g.Drawable)
    (entries : List (TextCell g × Byte)) : List (ℕ × Pixel) :=
  if g.Known then h.layout.draw byteShade entries else []

/-- The cursor of a writer is at a cell. -/
structure At (g : GraphicsInfo) (c : TextCell g) (writer : DisplayWriter) : Prop where
  info_eq : writer.graphics_info = g
  line_eq : writer.line.toNat = c.line
  col_eq : writer.col.toNat = c.col

/-- The cell of a cursor that is in range. -/
def DisplayWriter.cell {writer : DisplayWriter} (h : writer.InRange) :
    TextCell writer.graphics_info where
  line := ⟨writer.line.toNat, writer.toNat_lines ▸ h.line_lt⟩
  col := ⟨writer.col.toNat, writer.toNat_columns ▸ h.col_lt⟩

section

variable {g : GraphicsInfo} {c : TextCell g} {writer : DisplayWriter}

theorem at_cell (h : writer.InRange) : At writer.graphics_info (writer.cell h) writer :=
  ⟨rfl, rfl, rfl⟩

theorem toNat_lines_of (hinfo : writer.graphics_info = g) :
    writer.lines.toNat = g.h.toNat / (FONT_HEIGHT + VERTICAL_SPACING) := by
  rw [DisplayWriter.toNat_lines, hinfo]

theorem toNat_columns_of (hinfo : writer.graphics_info = g) :
    writer.columns.toNat = g.w.toNat / (FONT_WIDTH + HORIZONTAL_SPACING) := by
  rw [DisplayWriter.toNat_columns, hinfo]

theorem line_lt_of (hinfo : writer.graphics_info = g) (hline : writer.line.toNat = c.line) :
    writer.line < writer.lines := by
  rw [BitVec.lt_def, toNat_lines_of hinfo, hline]
  exact c.line.isLt

theorem At.inRange (h : At g c writer) : writer.InRange := by
  refine ⟨line_lt_of h.info_eq h.line_eq, ?_⟩
  rw [BitVec.lt_def, toNat_columns_of h.info_eq, h.col_eq]
  exact c.col.isLt

/-! ## The cursor -/

/-- The cursor goes to the first cell of the next line. -/
theorem At.advance_line (hinfo : writer.graphics_info = g) (hline : writer.line.toNat = c.line) :
    At g c.nextLine writer.advance_line := by
  have hsucc := toNat_succ_of_lt (line_lt_of hinfo hline)
  rw [hline] at hsucc
  have hwrap : writer.lines ≤ writer.line + 1 ↔
      g.h.toNat / (FONT_HEIGHT + VERTICAL_SPACING) ≤ c.line + 1 := by
    rw [BitVec.le_def, toNat_lines_of hinfo, hsucc]
  by_cases hlast : c.line + 1 < g.h.toNat / (FONT_HEIGHT + VERTICAL_SPACING)
  · have hline' : writer.advance_line = { writer with col := 0, line := writer.line + 1 } :=
      if_neg (fun hle ↦ Nat.not_le.mpr hlast (hwrap.mp hle))
    rw [hline']
    exact ⟨hinfo, by rw [Cell.line_nextLine, Nat.mod_eq_of_lt hlast]; exact hsucc, rfl⟩
  · have hline' : writer.advance_line = { writer with col := 0, line := 0 } :=
      if_pos (hwrap.mpr (Nat.not_lt.mp hlast))
    have hc := c.line.isLt
    have heq : c.line + 1 = g.h.toNat / (FONT_HEIGHT + VERTICAL_SPACING) := by omega
    rw [hline']
    exact ⟨hinfo, by rw [Cell.line_nextLine, heq, Nat.mod_self]; rfl, rfl⟩

/-- The cursor goes to the next cell. -/
theorem At.advance_column (h : At g c writer) : At g c.next writer.advance_column := by
  have hsucc := toNat_succ_of_lt h.inRange.col_lt
  rw [h.col_eq] at hsucc
  have hwrap : writer.columns ≤ writer.col + 1 ↔
      g.w.toNat / (FONT_WIDTH + HORIZONTAL_SPACING) ≤ c.col + 1 := by
    rw [BitVec.le_def, toNat_columns_of h.info_eq, hsucc]
  by_cases hlast : c.col + 1 < g.w.toNat / (FONT_WIDTH + HORIZONTAL_SPACING)
  · have hcol : writer.advance_column = { writer with col := writer.col + 1 } :=
      if_neg (fun hle ↦ Nat.not_le.mpr hlast (hwrap.mp hle))
    rw [hcol, Cell.next, dif_pos hlast]
    exact ⟨h.info_eq, h.line_eq, hsucc⟩
  · have hcol : writer.advance_column = DisplayWriter.advance_line { writer with col := 0 } :=
      if_pos (hwrap.mpr (Nat.not_lt.mp hlast))
    rw [hcol, Cell.next, dif_neg hlast]
    exact At.advance_line h.info_eq h.line_eq

/-! ## A character -/

theorem paint_pixel_eq (row : Byte) (x : Fin FONT_WIDTH) :
    (row &&& (0b10000000 : Byte) >>> x.val != 0) = row.getLsbD (7 - x) := by
  have hmask : ∀ x : Fin FONT_WIDTH, (0b10000000 : Byte) >>> x.val = 1 <<< (7 - x.val) := by decide
  rw [hmask]
  exact Bits.and_bit_ne_zero row (by omega)

/-- The index of a pixel does not overflow. -/
theorem At.toNat_pixel (h : At g c writer) (hg : g.Drawable) (x : Fin FONT_WIDTH)
    (y : Fin FONT_HEIGHT) :
    ((writer.col * BitVec.ofNat 64 (FONT_WIDTH + HORIZONTAL_SPACING) + BitVec.ofNat 64 x)
      + (writer.line * BitVec.ofNat 64 (FONT_HEIGHT + VERTICAL_SPACING) + BitVec.ofNat 64 y)
        * g.stride).toNat = hg.layout.place c x y := by
  have hword : ∀ w : Word, w = BitVec.ofNat 64 w.toNat := fun w ↦ by
    rw [BitVec.ofNat_toNat, BitVec.setWidth_eq]
  rw [hword writer.col, hword writer.line, hword g.stride, h.col_eq, h.line_eq]
  simp only [← BitVec.ofNat_mul, ← BitVec.ofNat_add]
  rw [BitVec.toNat_ofNat]
  apply Nat.mod_eq_of_lt
  have hlt : hg.layout.place c x y < g.stride.toNat * g.h.toNat :=
    Layout.place_lt (Nat.div_mul_le_self _ _)
  have hsize := hg.size_ge
  have hmax := g.frame_buffer_size.isLt
  exact hlt.trans (by omega)

/-- A character is drawn in the cell of the cursor. -/
theorem At.render_character (h : At g c writer) (hg : g.Drawable) {ch : Byte} {character : Glyph}
    (hch : get_character ch = some character) :
    writer.render_character character = hg.drawn [(c, ch)] := by
  have hshade : ∀ x y, byteShade ch x y = shade character x y := by
    intro x y
    rw [byteShade, hch, Option.elim_some]
  have hbox : hg.layout.box byteShade (c, ch) = (List.finRange FONT_HEIGHT).flatMap fun y ↦
      (List.finRange FONT_WIDTH).flatMap fun x ↦
        [(hg.layout.place c x y, shade character x y)] := by
    rw [Layout.box]
    refine congrArg (List.flatMap · _) (funext fun y ↦ ?_)
    rw [List.map_eq_flatMap]
    exact congrArg (List.flatMap · _) (funext fun x ↦ by rw [hshade])
  rw [DisplayWriter.render_character, GraphicsInfo.Drawable.drawn, h.info_eq, Layout.draw_singleton,
    hbox]
  cases hformat : g.pixel_format with
  | RGB_8_BIT =>
      have hknown : g.Known := Or.inl hformat
      rw [if_pos hknown]
      simp only [h.toNat_pixel hg, paint_pixel_eq]
      rfl
  | BGR_8_BIT =>
      have hknown : g.Known := Or.inr hformat
      rw [if_pos hknown]
      simp only [h.toNat_pixel hg, paint_pixel_eq]
      rfl
  | BIT_MASK =>
      have hknown : ¬ g.Known := by rw [GraphicsInfo.Known, hformat]; decide
      rw [if_neg hknown]
      simp
  | BLT_ONLY =>
      have hknown : ¬ g.Known := by rw [GraphicsInfo.Known, hformat]; decide
      rw [if_neg hknown]
      simp

theorem drawn_append (hg : g.Drawable) (entries entries' : List (TextCell g × Byte)) :
    hg.drawn (entries ++ entries') = hg.drawn entries ++ hg.drawn entries' := by
  simp only [GraphicsInfo.Drawable.drawn]
  split_ifs
  · exact Layout.draw_append
  · rfl

theorem drawn_nil (hg : g.Drawable) : hg.drawn [] = [] := by
  simp only [GraphicsInfo.Drawable.drawn]
  split_ifs <;> rfl

end

/-! ## A text -/

/-- What is typed by a byte. -/
def key (b : Byte) : Key Byte := if b = 0x0A then .newline else .char b

section

variable {g : GraphicsInfo} {c : TextCell g} {con : Console} {b : Byte} {s : List Byte}

/-- The loop at the end of a line blanks the rest of the line. -/
theorem blankLine_eq (hg : g.Drawable) (hinfo : con.writer.graphics_info = g)
    (hline : con.writer.line.toNat = c.line)
    (hcol : con.writer.col.toNat ≤ g.w.toNat / (FONT_WIDTH + HORIZONTAL_SPACING)) :
    ∃ writer, con.blankLine = .ok ⟨writer, con.writes ++
        hg.drawn ((Cell.rest c.line con.writer.col.toNat).map fun cell ↦ (cell, 0))⟩ ∧
      writer.graphics_info = g ∧ writer.line = con.writer.line := by
  obtain ⟨n, hn⟩ := Nat.exists_eq_add_of_le hcol
  induction n generalizing con with
  | zero =>
      have hend : ¬ con.writer.col < con.writer.columns := by
        rw [BitVec.lt_def, toNat_columns_of hinfo]
        omega
      rw [Console.blankLine, if_neg hend, Cell.rest_of_le _ (by omega), List.map_nil, drawn_nil,
        List.append_nil]
      exact ⟨con.writer, rfl, hinfo, rfl⟩
  | succ n ih =>
      have hlt : con.writer.col.toNat < g.w.toNat / (FONT_WIDTH + HORIZONTAL_SPACING) := by omega
      have hcell : At g ⟨c.line, ⟨con.writer.col.toNat, hlt⟩⟩ con.writer := ⟨hinfo, hline, rfl⟩
      have hblank : get_character 0 = some FONT[0] := rfl
      have hsucc := toNat_succ_of_lt hcell.inRange.col_lt
      rw [Console.blankLine, if_pos hcell.inRange.col_lt, hblank, Cell.rest_of_lt _ hlt]
      let con' : Console := { con.render_character FONT[0] with
        writer := { con.writer with col := con.writer.col + 1 } }
      have hinfo' : con'.writer.graphics_info = g := hinfo
      have hcol' : con'.writer.col.toNat = con.writer.col.toNat + 1 := hsucc
      obtain ⟨writer, hrest, hinfo'', hline'⟩ :=
        ih hinfo' hline (hcol'.trans_le hlt) (by omega)
      refine ⟨writer, hrest.trans ?_, hinfo'', hline'⟩
      have hwrites : con'.writes = con.writes ++ hg.drawn [(⟨c.line, ⟨_, hlt⟩⟩, 0)] :=
        congrArg (con.writes ++ ·) (hcell.render_character hg hblank)
      rw [hwrites, hcol', List.append_assoc, ← drawn_append]
      rfl

/-- What the loop does for a byte. -/
theorem writeByte_eq (hg : g.Drawable) (h : At g c con.writer) (hb : b ≤ 126) :
    ∃ writer, con.writeByte b = .ok ⟨writer, con.writes ++ hg.drawn (placed 0 c (key b))⟩ ∧
      At g (c.press (key b)) writer := by
  rw [Console.writeByte, key]
  split_ifs with hnewline
  · have hcol : con.writer.col.toNat ≤ g.w.toNat / (FONT_WIDTH + HORIZONTAL_SPACING) :=
      h.col_eq.trans_le c.col.isLt.le
    obtain ⟨writer, hblank, hinfo, hline⟩ := blankLine_eq hg h.info_eq h.line_eq hcol
    rw [hblank, placed, ← h.col_eq]
    refine ⟨writer.advance_line, rfl, At.advance_line hinfo ?_⟩
    rw [hline]
    exact h.line_eq
  · obtain ⟨character, hch⟩ := Option.isSome_iff_exists.mp (get_character_isSome_iff.mpr hb)
    rw [hch]
    refine ⟨con.writer.advance_column, ?_, h.advance_column⟩
    rw [placed, ← h.render_character hg hch]
    rfl

/-- What is written for some bytes, and where the cursor is then. -/
theorem writeBytes_eq (hg : g.Drawable) (h : At g c con.writer) (hs : ∀ b ∈ s, b ≤ 126) :
    ∃ writer, con.writeBytes s =
        .ok (⟨writer, con.writes ++ hg.drawn (written 0 c (s.map key))⟩, .ok ()) ∧
      At g (c.after (s.map key)) writer := by
  induction s generalizing con c with
  | nil =>
      rw [List.map_nil, written, drawn_nil, List.append_nil]
      exact ⟨con.writer, rfl, h⟩
  | cons b s ih =>
      obtain ⟨writer, hbyte, hat⟩ := writeByte_eq hg h (hs b List.mem_cons_self)
      let con' : Console := ⟨writer, con.writes ++ hg.drawn (placed 0 c (key b))⟩
      have hcon : At g (c.press (key b)) con'.writer := hat
      obtain ⟨writer', hrest, hat'⟩ :=
        ih hcon fun b hb ↦ hs b (List.mem_cons_of_mem _ hb)
      refine ⟨writer', ?_, hat'⟩
      rw [Console.writeBytes, hbyte, List.map_cons, written, drawn_append, ← List.append_assoc]
      exact hrest

end

end Elpytios
