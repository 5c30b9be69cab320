import Elpytios.Bootinfo.Paddr
import Mathlib.Data.List.FinRange

/-!
# Rendering text

The font and `DisplayWriter` are from `kernel/src/rendering.rs`, `GraphicsInfo` is from
`bootinfo/src/lib.rs`.  Pixels are numbered from `frame_buffer` on, and the volatile writes to them
are listed in the order in which they are made.
-/

namespace Elpytios

/-! ## The font -/

def FONT_HEIGHT : ℕ := 13

def FONT_WIDTH : ℕ := 8

def VERTICAL_SPACING : ℕ := 3

def HORIZONTAL_SPACING : ℕ := 1

/-- The rows of a character, the lowest one first. -/
abbrev Glyph := Vector Byte FONT_HEIGHT

def FONT : Vector Glyph 95 := #v[
  #v[0x00, 0x00, 0x00, 0x00, 0x00, 0x00, 0x00, 0x00, 0x00, 0x00, 0x00, 0x00, 0x00],
  #v[0x00, 0x00, 0x18, 0x18, 0x00, 0x00, 0x18, 0x18, 0x18, 0x18, 0x18, 0x18, 0x18],
  #v[0x00, 0x00, 0x00, 0x00, 0x00, 0x00, 0x00, 0x00, 0x00, 0x36, 0x36, 0x36, 0x36],
  #v[0x00, 0x00, 0x00, 0x66, 0x66, 0xff, 0x66, 0x66, 0xff, 0x66, 0x66, 0x00, 0x00],
  #v[0x00, 0x00, 0x18, 0x7e, 0xff, 0x1b, 0x1f, 0x7e, 0xf8, 0xd8, 0xff, 0x7e, 0x18],
  #v[0x00, 0x00, 0x0e, 0x1b, 0xdb, 0x6e, 0x30, 0x18, 0x0c, 0x76, 0xdb, 0xd8, 0x70],
  #v[0x00, 0x00, 0x7f, 0xc6, 0xcf, 0xd8, 0x70, 0x70, 0xd8, 0xcc, 0xcc, 0x6c, 0x38],
  #v[0x00, 0x00, 0x00, 0x00, 0x00, 0x00, 0x00, 0x00, 0x00, 0x18, 0x1c, 0x0c, 0x0e],
  #v[0x00, 0x00, 0x0c, 0x18, 0x30, 0x30, 0x30, 0x30, 0x30, 0x30, 0x30, 0x18, 0x0c],
  #v[0x00, 0x00, 0x30, 0x18, 0x0c, 0x0c, 0x0c, 0x0c, 0x0c, 0x0c, 0x0c, 0x18, 0x30],
  #v[0x00, 0x00, 0x00, 0x00, 0x99, 0x5a, 0x3c, 0xff, 0x3c, 0x5a, 0x99, 0x00, 0x00],
  #v[0x00, 0x00, 0x00, 0x18, 0x18, 0x18, 0xff, 0xff, 0x18, 0x18, 0x18, 0x00, 0x00],
  #v[0x00, 0x00, 0x30, 0x18, 0x1c, 0x1c, 0x00, 0x00, 0x00, 0x00, 0x00, 0x00, 0x00],
  #v[0x00, 0x00, 0x00, 0x00, 0x00, 0x00, 0xff, 0xff, 0x00, 0x00, 0x00, 0x00, 0x00],
  #v[0x00, 0x00, 0x00, 0x38, 0x38, 0x00, 0x00, 0x00, 0x00, 0x00, 0x00, 0x00, 0x00],
  #v[0x00, 0x60, 0x60, 0x30, 0x30, 0x18, 0x18, 0x0c, 0x0c, 0x06, 0x06, 0x03, 0x03],
  #v[0x00, 0x00, 0x3c, 0x66, 0xc3, 0xe3, 0xf3, 0xdb, 0xcf, 0xc7, 0xc3, 0x66, 0x3c],
  #v[0x00, 0x00, 0x7e, 0x18, 0x18, 0x18, 0x18, 0x18, 0x18, 0x18, 0x78, 0x38, 0x18],
  #v[0x00, 0x00, 0xff, 0xc0, 0xc0, 0x60, 0x30, 0x18, 0x0c, 0x06, 0x03, 0xe7, 0x7e],
  #v[0x00, 0x00, 0x7e, 0xe7, 0x03, 0x03, 0x07, 0x7e, 0x07, 0x03, 0x03, 0xe7, 0x7e],
  #v[0x00, 0x00, 0x0c, 0x0c, 0x0c, 0x0c, 0x0c, 0xff, 0xcc, 0x6c, 0x3c, 0x1c, 0x0c],
  #v[0x00, 0x00, 0x7e, 0xe7, 0x03, 0x03, 0x07, 0xfe, 0xc0, 0xc0, 0xc0, 0xc0, 0xff],
  #v[0x00, 0x00, 0x7e, 0xe7, 0xc3, 0xc3, 0xc7, 0xfe, 0xc0, 0xc0, 0xc0, 0xe7, 0x7e],
  #v[0x00, 0x00, 0x30, 0x30, 0x30, 0x30, 0x18, 0x0c, 0x06, 0x03, 0x03, 0x03, 0xff],
  #v[0x00, 0x00, 0x7e, 0xe7, 0xc3, 0xc3, 0xe7, 0x7e, 0xe7, 0xc3, 0xc3, 0xe7, 0x7e],
  #v[0x00, 0x00, 0x7e, 0xe7, 0x03, 0x03, 0x03, 0x7f, 0xe7, 0xc3, 0xc3, 0xe7, 0x7e],
  #v[0x00, 0x00, 0x00, 0x38, 0x38, 0x00, 0x00, 0x38, 0x38, 0x00, 0x00, 0x00, 0x00],
  #v[0x00, 0x00, 0x30, 0x18, 0x1c, 0x1c, 0x00, 0x00, 0x1c, 0x1c, 0x00, 0x00, 0x00],
  #v[0x00, 0x00, 0x06, 0x0c, 0x18, 0x30, 0x60, 0xc0, 0x60, 0x30, 0x18, 0x0c, 0x06],
  #v[0x00, 0x00, 0x00, 0x00, 0xff, 0xff, 0x00, 0xff, 0xff, 0x00, 0x00, 0x00, 0x00],
  #v[0x00, 0x00, 0x60, 0x30, 0x18, 0x0c, 0x06, 0x03, 0x06, 0x0c, 0x18, 0x30, 0x60],
  #v[0x00, 0x00, 0x18, 0x00, 0x00, 0x18, 0x18, 0x0c, 0x06, 0x03, 0xc3, 0xc3, 0x7e],
  #v[0x00, 0x00, 0x3f, 0x60, 0xcf, 0xdb, 0xd3, 0xdd, 0xc3, 0x7e, 0x00, 0x00, 0x00],
  #v[0x00, 0x00, 0xc3, 0xc3, 0xc3, 0xc3, 0xff, 0xc3, 0xc3, 0xc3, 0x66, 0x3c, 0x18],
  #v[0x00, 0x00, 0xfe, 0xc7, 0xc3, 0xc3, 0xc7, 0xfe, 0xc7, 0xc3, 0xc3, 0xc7, 0xfe],
  #v[0x00, 0x00, 0x7e, 0xe7, 0xc0, 0xc0, 0xc0, 0xc0, 0xc0, 0xc0, 0xc0, 0xe7, 0x7e],
  #v[0x00, 0x00, 0xfc, 0xce, 0xc7, 0xc3, 0xc3, 0xc3, 0xc3, 0xc3, 0xc7, 0xce, 0xfc],
  #v[0x00, 0x00, 0xff, 0xc0, 0xc0, 0xc0, 0xc0, 0xfc, 0xc0, 0xc0, 0xc0, 0xc0, 0xff],
  #v[0x00, 0x00, 0xc0, 0xc0, 0xc0, 0xc0, 0xc0, 0xc0, 0xfc, 0xc0, 0xc0, 0xc0, 0xff],
  #v[0x00, 0x00, 0x7e, 0xe7, 0xc3, 0xc3, 0xcf, 0xc0, 0xc0, 0xc0, 0xc0, 0xe7, 0x7e],
  #v[0x00, 0x00, 0xc3, 0xc3, 0xc3, 0xc3, 0xc3, 0xff, 0xc3, 0xc3, 0xc3, 0xc3, 0xc3],
  #v[0x00, 0x00, 0x7e, 0x18, 0x18, 0x18, 0x18, 0x18, 0x18, 0x18, 0x18, 0x18, 0x7e],
  #v[0x00, 0x00, 0x7c, 0xee, 0xc6, 0x06, 0x06, 0x06, 0x06, 0x06, 0x06, 0x06, 0x06],
  #v[0x00, 0x00, 0xc3, 0xc6, 0xcc, 0xd8, 0xf0, 0xe0, 0xf0, 0xd8, 0xcc, 0xc6, 0xc3],
  #v[0x00, 0x00, 0xff, 0xc0, 0xc0, 0xc0, 0xc0, 0xc0, 0xc0, 0xc0, 0xc0, 0xc0, 0xc0],
  #v[0x00, 0x00, 0xc3, 0xc3, 0xc3, 0xc3, 0xc3, 0xc3, 0xdb, 0xff, 0xff, 0xe7, 0xc3],
  #v[0x00, 0x00, 0xc7, 0xc7, 0xcf, 0xcf, 0xdf, 0xdb, 0xfb, 0xf3, 0xf3, 0xe3, 0xe3],
  #v[0x00, 0x00, 0x7e, 0xe7, 0xc3, 0xc3, 0xc3, 0xc3, 0xc3, 0xc3, 0xc3, 0xe7, 0x7e],
  #v[0x00, 0x00, 0xc0, 0xc0, 0xc0, 0xc0, 0xc0, 0xfe, 0xc7, 0xc3, 0xc3, 0xc7, 0xfe],
  #v[0x00, 0x00, 0x3f, 0x6e, 0xdf, 0xdb, 0xc3, 0xc3, 0xc3, 0xc3, 0xc3, 0x66, 0x3c],
  #v[0x00, 0x00, 0xc3, 0xc6, 0xcc, 0xd8, 0xf0, 0xfe, 0xc7, 0xc3, 0xc3, 0xc7, 0xfe],
  #v[0x00, 0x00, 0x7e, 0xe7, 0x03, 0x03, 0x07, 0x7e, 0xe0, 0xc0, 0xc0, 0xe7, 0x7e],
  #v[0x00, 0x00, 0x18, 0x18, 0x18, 0x18, 0x18, 0x18, 0x18, 0x18, 0x18, 0x18, 0xff],
  #v[0x00, 0x00, 0x7e, 0xe7, 0xc3, 0xc3, 0xc3, 0xc3, 0xc3, 0xc3, 0xc3, 0xc3, 0xc3],
  #v[0x00, 0x00, 0x18, 0x3c, 0x3c, 0x66, 0x66, 0xc3, 0xc3, 0xc3, 0xc3, 0xc3, 0xc3],
  #v[0x00, 0x00, 0xc3, 0xe7, 0xff, 0xff, 0xdb, 0xdb, 0xc3, 0xc3, 0xc3, 0xc3, 0xc3],
  #v[0x00, 0x00, 0xc3, 0x66, 0x66, 0x3c, 0x3c, 0x18, 0x3c, 0x3c, 0x66, 0x66, 0xc3],
  #v[0x00, 0x00, 0x18, 0x18, 0x18, 0x18, 0x18, 0x18, 0x3c, 0x3c, 0x66, 0x66, 0xc3],
  #v[0x00, 0x00, 0xff, 0xc0, 0xc0, 0x60, 0x30, 0x7e, 0x0c, 0x06, 0x03, 0x03, 0xff],
  #v[0x00, 0x00, 0x3c, 0x30, 0x30, 0x30, 0x30, 0x30, 0x30, 0x30, 0x30, 0x30, 0x3c],
  #v[0x00, 0x03, 0x03, 0x06, 0x06, 0x0c, 0x0c, 0x18, 0x18, 0x30, 0x30, 0x60, 0x60],
  #v[0x00, 0x00, 0x3c, 0x0c, 0x0c, 0x0c, 0x0c, 0x0c, 0x0c, 0x0c, 0x0c, 0x0c, 0x3c],
  #v[0x00, 0x00, 0x00, 0x00, 0x00, 0x00, 0x00, 0x00, 0x00, 0xc3, 0x66, 0x3c, 0x18],
  #v[0xff, 0xff, 0x00, 0x00, 0x00, 0x00, 0x00, 0x00, 0x00, 0x00, 0x00, 0x00, 0x00],
  #v[0x00, 0x00, 0x00, 0x00, 0x00, 0x00, 0x00, 0x00, 0x00, 0x18, 0x38, 0x30, 0x70],
  #v[0x00, 0x00, 0x7f, 0xc3, 0xc3, 0x7f, 0x03, 0xc3, 0x7e, 0x00, 0x00, 0x00, 0x00],
  #v[0x00, 0x00, 0xfe, 0xc3, 0xc3, 0xc3, 0xc3, 0xfe, 0xc0, 0xc0, 0xc0, 0xc0, 0xc0],
  #v[0x00, 0x00, 0x7e, 0xc3, 0xc0, 0xc0, 0xc0, 0xc3, 0x7e, 0x00, 0x00, 0x00, 0x00],
  #v[0x00, 0x00, 0x7f, 0xc3, 0xc3, 0xc3, 0xc3, 0x7f, 0x03, 0x03, 0x03, 0x03, 0x03],
  #v[0x00, 0x00, 0x7f, 0xc0, 0xc0, 0xfe, 0xc3, 0xc3, 0x7e, 0x00, 0x00, 0x00, 0x00],
  #v[0x00, 0x00, 0x30, 0x30, 0x30, 0x30, 0x30, 0xfc, 0x30, 0x30, 0x30, 0x33, 0x1e],
  #v[0x7e, 0xc3, 0x03, 0x03, 0x7f, 0xc3, 0xc3, 0xc3, 0x7e, 0x00, 0x00, 0x00, 0x00],
  #v[0x00, 0x00, 0xc3, 0xc3, 0xc3, 0xc3, 0xc3, 0xc3, 0xfe, 0xc0, 0xc0, 0xc0, 0xc0],
  #v[0x00, 0x00, 0x18, 0x18, 0x18, 0x18, 0x18, 0x18, 0x18, 0x00, 0x00, 0x18, 0x00],
  #v[0x38, 0x6c, 0x0c, 0x0c, 0x0c, 0x0c, 0x0c, 0x0c, 0x0c, 0x00, 0x00, 0x0c, 0x00],
  #v[0x00, 0x00, 0xc6, 0xcc, 0xf8, 0xf0, 0xd8, 0xcc, 0xc6, 0xc0, 0xc0, 0xc0, 0xc0],
  #v[0x00, 0x00, 0x7e, 0x18, 0x18, 0x18, 0x18, 0x18, 0x18, 0x18, 0x18, 0x18, 0x78],
  #v[0x00, 0x00, 0xdb, 0xdb, 0xdb, 0xdb, 0xdb, 0xdb, 0xfe, 0x00, 0x00, 0x00, 0x00],
  #v[0x00, 0x00, 0xc6, 0xc6, 0xc6, 0xc6, 0xc6, 0xc6, 0xfc, 0x00, 0x00, 0x00, 0x00],
  #v[0x00, 0x00, 0x7c, 0xc6, 0xc6, 0xc6, 0xc6, 0xc6, 0x7c, 0x00, 0x00, 0x00, 0x00],
  #v[0xc0, 0xc0, 0xc0, 0xfe, 0xc3, 0xc3, 0xc3, 0xc3, 0xfe, 0x00, 0x00, 0x00, 0x00],
  #v[0x03, 0x03, 0x03, 0x7f, 0xc3, 0xc3, 0xc3, 0xc3, 0x7f, 0x00, 0x00, 0x00, 0x00],
  #v[0x00, 0x00, 0xc0, 0xc0, 0xc0, 0xc0, 0xc0, 0xe0, 0xfe, 0x00, 0x00, 0x00, 0x00],
  #v[0x00, 0x00, 0xfe, 0x03, 0x03, 0x7e, 0xc0, 0xc0, 0x7f, 0x00, 0x00, 0x00, 0x00],
  #v[0x00, 0x00, 0x1c, 0x36, 0x30, 0x30, 0x30, 0x30, 0xfc, 0x30, 0x30, 0x30, 0x00],
  #v[0x00, 0x00, 0x7e, 0xc6, 0xc6, 0xc6, 0xc6, 0xc6, 0xc6, 0x00, 0x00, 0x00, 0x00],
  #v[0x00, 0x00, 0x18, 0x3c, 0x3c, 0x66, 0x66, 0xc3, 0xc3, 0x00, 0x00, 0x00, 0x00],
  #v[0x00, 0x00, 0xc3, 0xe7, 0xff, 0xdb, 0xc3, 0xc3, 0xc3, 0x00, 0x00, 0x00, 0x00],
  #v[0x00, 0x00, 0xc3, 0x66, 0x3c, 0x18, 0x3c, 0x66, 0xc3, 0x00, 0x00, 0x00, 0x00],
  #v[0xc0, 0x60, 0x60, 0x30, 0x18, 0x3c, 0x66, 0x66, 0xc3, 0x00, 0x00, 0x00, 0x00],
  #v[0x00, 0x00, 0xff, 0x60, 0x30, 0x18, 0x0c, 0x06, 0xff, 0x00, 0x00, 0x00, 0x00],
  #v[0x00, 0x00, 0x0f, 0x18, 0x18, 0x18, 0x38, 0xf0, 0x38, 0x18, 0x18, 0x18, 0x0f],
  #v[0x18, 0x18, 0x18, 0x18, 0x18, 0x18, 0x18, 0x18, 0x18, 0x18, 0x18, 0x18, 0x18],
  #v[0x00, 0x00, 0xf0, 0x18, 0x18, 0x18, 0x1c, 0x0f, 0x1c, 0x18, 0x18, 0x18, 0xf0],
  #v[0x00, 0x00, 0x00, 0x00, 0x00, 0x00, 0x06, 0x8f, 0xf1, 0x60, 0x00, 0x00, 0x00]]

/-- The rows for a character.  There are none if the index into the font is out of range. -/
def get_character (ascii_code : Byte) : Option Glyph :=
  if ascii_code ≤ 32 then FONT[0]? else FONT[(ascii_code - 32).toNat]?

/-- There are rows for the bytes up to 126. -/
theorem get_character_isSome_iff {ascii_code : Byte} :
    (get_character ascii_code).isSome ↔ ascii_code ≤ 126 := by
  have hmax : ascii_code ≤ 126 ↔ ascii_code.toNat ≤ 126 := BitVec.le_def
  rw [hmax, get_character]
  split_ifs with hle
  · rw [BitVec.le_def] at hle
    exact iff_of_true rfl (hle.trans (by decide))
  · rw [BitVec.le_def, Nat.not_le] at hle
    change 32 < ascii_code.toNat at hle
    have hsub : (ascii_code - 32).toNat = ascii_code.toNat - 32 :=
      BitVec.toNat_sub_of_le (BitVec.le_def.mpr hle.le)
    rw [isSome_getElem?, hsub]
    omega

/-! ## The display -/

inductive PixelFormat where
  | RGB_8_BIT
  | BGR_8_BIT
  | BIT_MASK
  | BLT_ONLY
deriving DecidableEq, Repr

/-- What the bootloader says about the display. -/
structure GraphicsInfo where
  w : Word
  h : Word
  stride : Word
  pixel_format : PixelFormat
  frame_buffer_size : Word
deriving DecidableEq, Repr

/-- A pixel is written as a `u32`. -/
abbrev Pixel := BitVec 32

/-- A word that is below another can be advanced. -/
theorem toNat_succ_of_lt {x y : Word} (h : x < y) : (x + 1).toNat = x.toNat + 1 := by
  have hlt := y.isLt
  rw [BitVec.lt_def] at h
  exact BitVec.toNat_add_of_lt (show x.toNat + 1 < 2 ^ 64 by omega)

structure DisplayWriter where
  graphics_info : GraphicsInfo
  line : Word
  col : Word
deriving DecidableEq, Repr

namespace DisplayWriter

def columns (self : DisplayWriter) : Word :=
  self.graphics_info.w / BitVec.ofNat 64 (FONT_WIDTH + HORIZONTAL_SPACING)

def lines (self : DisplayWriter) : Word :=
  self.graphics_info.h / BitVec.ofNat 64 (FONT_HEIGHT + VERTICAL_SPACING)

def advance_line (self : DisplayWriter) : DisplayWriter :=
  let self := { self with col := 0, line := self.line + 1 }
  if self.lines ≤ self.line then { self with line := 0 } else self

def advance_column (self : DisplayWriter) : DisplayWriter :=
  let self := { self with col := self.col + 1 }
  if self.columns ≤ self.col then advance_line { self with col := 0 } else self

/-- The writes that render a character at the cursor.  A pixel format that is not known is not
written to. -/
def render_character (self : DisplayWriter) (character : Glyph) : List (ℕ × Pixel) :=
  let base_x := self.col * BitVec.ofNat 64 (FONT_WIDTH + HORIZONTAL_SPACING)
  let base_y := self.line * BitVec.ofNat 64 (FONT_HEIGHT + VERTICAL_SPACING)
  (List.finRange FONT_HEIGHT).flatMap fun (y : Fin FONT_HEIGHT) ↦
    (List.finRange FONT_WIDTH).flatMap fun (x : Fin FONT_WIDTH) ↦
      let row := character.get ⟨(FONT_HEIGHT - 1) - y, by have := y.isLt; omega⟩
      let paint_pixel := row &&& (0b10000000 : Byte) >>> x.val != 0
      match self.graphics_info.pixel_format with
      | .RGB_8_BIT | .BGR_8_BIT =>
          let pixel := (base_x + BitVec.ofNat 64 x)
            + (base_y + BitVec.ofNat 64 y) * self.graphics_info.stride
          [(pixel.toNat, if paint_pixel then 0xBBBBBBBB else 0x00000000)]
      | _ => []

theorem toNat_columns (self : DisplayWriter) :
    self.columns.toNat = self.graphics_info.w.toNat / (FONT_WIDTH + HORIZONTAL_SPACING) :=
  BitVec.toNat_udiv

theorem toNat_lines (self : DisplayWriter) :
    self.lines.toNat = self.graphics_info.h.toNat / (FONT_HEIGHT + VERTICAL_SPACING) :=
  BitVec.toNat_udiv

end DisplayWriter

/-! ## Writing -/

/-- `core::fmt::Error`. -/
inductive FmtError where
  | error
deriving DecidableEq, Repr

/-- The bytes of a text, which is encoded in UTF-8. -/
def bytes (s : String) : List Byte := s.toUTF8.data.toList.map UInt8.toBitVec

/-- A writer and the writes to the pixels so far.  A panic, which is an error here, leaves these
as they are. -/
structure Console where
  writer : DisplayWriter
  writes : List (ℕ × Pixel)
deriving DecidableEq, Repr

namespace Console

def new (writer : DisplayWriter) : Console := ⟨writer, []⟩

def render_character (self : Console) (character : Glyph) : Console :=
  { self with writes := self.writes ++ self.writer.render_character character }

/-- The loop at the end of a line: the rest of the line is rendered as character 0. -/
def blankLine (self : Console) : Except Console Console :=
  if self.writer.col < self.writer.columns then
    match get_character 0 with
    | none => .error self
    | some character =>
        let self := self.render_character character
        blankLine { self with writer := { self.writer with col := self.writer.col + 1 } }
  else .ok self
termination_by self.writer.columns.toNat - self.writer.col.toNat
decreasing_by
  rename_i h
  have hcol := toNat_succ_of_lt h
  rw [BitVec.lt_def] at h
  exact Nat.sub_lt_sub_left h (hcol ▸ Nat.lt_succ_self _)

/-- The loop of `write_str` for a byte. -/
def writeByte (self : Console) (c : Byte) : Except Console Console :=
  if c = 0x0A then do
    let self ← self.blankLine
    .ok { self with writer := self.writer.advance_line }
  else
    match get_character c with
    | none => .error self
    | some character =>
        let self := self.render_character character
        .ok { self with writer := self.writer.advance_column }

/-- The loop of `write_str`, and its result. -/
def writeBytes (self : Console) : List Byte → Except Console (Console × Except FmtError Unit)
  | [] => .ok (self, .ok ())
  | c :: s => do
      let self ← self.writeByte c
      self.writeBytes s

def write_str (self : Console) (s : String) : Except Console (Console × Except FmtError Unit) :=
  self.writeBytes (bytes s)

/-- Some calls of `write_str`, one after the other. -/
def writeCalls (self : Console) : List String → Except Console Console
  | [] => .ok self
  | s :: calls => do
      let (self, _) ← self.write_str s
      self.writeCalls calls

end Console

end Elpytios
