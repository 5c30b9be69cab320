import Elpytios.Lib.WriteLog
import Mathlib.Data.List.FinRange

/-!
# Grids of text

Text is written to the cells of a grid: a character goes to the cell of the cursor, which then goes
one cell on; a new line fills the rest of the line with blanks.  After the last line comes the
first.  Each cell is drawn as a box of places of a linear buffer, the rows of the buffer being a
stride apart.
-/

universe u v

namespace TextGrid

/-- A cell of a grid. -/
@[ext]
structure Cell (lines columns : ℕ) where
  line : Fin lines
  col : Fin columns
deriving DecidableEq, Repr

/-- What is typed. -/
inductive Key (α : Type u) where
  | /-- A character. -/
    char (a : α)
  | /-- The end of a line. -/
    newline
deriving DecidableEq, Repr

variable {lines columns : ℕ} {α : Type u} {V : Type v}

namespace Cell

/-- The first cell of the next line. -/
def nextLine (c : Cell lines columns) : Cell lines columns where
  line := ⟨(c.line + 1) % lines, Nat.mod_lt _ c.line.pos⟩
  col := ⟨0, c.col.pos⟩

theorem line_nextLine (c : Cell lines columns) :
    (c.nextLine.line : ℕ) = (c.line + 1) % lines := rfl

/-- The next cell. -/
def next (c : Cell lines columns) : Cell lines columns :=
  if h : c.col + 1 < columns then ⟨c.line, ⟨c.col + 1, h⟩⟩ else c.nextLine

/-- The cells of a line from a column on. -/
def rest (line : Fin lines) (col : ℕ) : List (Cell lines columns) :=
  ((List.finRange columns).drop col).map (Cell.mk line)

theorem rest_of_lt (line : Fin lines) {col : ℕ} (h : col < columns) :
    rest line col = ⟨line, ⟨col, h⟩⟩ :: rest line (col + 1) := by
  have hlen : col < (List.finRange columns).length := by rwa [List.length_finRange]
  rw [rest, List.drop_eq_getElem_cons hlen, List.map_cons, List.getElem_finRange]
  rfl

theorem rest_of_le (line : Fin lines) {col : ℕ} (h : columns ≤ col) :
    (rest line col : List (Cell lines columns)) = [] := by
  rw [rest, List.drop_eq_nil_of_le (by rwa [List.length_finRange]), List.map_nil]

/-- The cursor after a key. -/
def press (c : Cell lines columns) : Key α → Cell lines columns
  | .char _ => c.next
  | .newline => c.nextLine

/-- The cursor after a text. -/
def after (c : Cell lines columns) (keys : List (Key α)) : Cell lines columns := keys.foldl press c

end Cell

/-- What a key places at the cursor. -/
def placed (blank : α) (c : Cell lines columns) : Key α → List (Cell lines columns × α)
  | .char a => [(c, a)]
  | .newline => (Cell.rest c.line c.col).map fun cell ↦ (cell, blank)

/-- What a text places from a cursor on. -/
def written (blank : α) (c : Cell lines columns) : List (Key α) → List (Cell lines columns × α)
  | [] => []
  | key :: keys => placed blank c key ++ written blank (c.press key) keys

section

variable {blank : α} {c : Cell lines columns} {keys keys' : List (Key α)}

theorem Cell.after_append : c.after (keys ++ keys') = (c.after keys).after keys' :=
  List.foldl_append

theorem written_append :
    written blank c (keys ++ keys') =
      written blank c keys ++ written blank (c.after keys) keys' := by
  induction keys generalizing c with
  | nil => rfl
  | cons key keys ih => rw [List.cons_append, written, ih, written, List.append_assoc]; rfl

/-- A text places its characters and blanks. -/
theorem eq_blank_or_mem_of_mem_written {entry : Cell lines columns × α}
    (h : entry ∈ written blank c keys) : entry.2 = blank ∨ .char entry.2 ∈ keys := by
  induction keys generalizing c with
  | nil => cases h
  | cons key keys ih =>
      rcases List.mem_append.mp h with h | h
      · cases key with
        | char a =>
            obtain rfl := List.mem_singleton.mp h
            exact Or.inr List.mem_cons_self
        | newline =>
            obtain ⟨cell, -, rfl⟩ := List.mem_map.mp h
            exact Or.inl rfl
      · exact (ih h).imp_right (List.mem_cons_of_mem _)

end

/-! ## Drawing cells -/

/-- How the cells are laid out on a linear buffer: a box for each, the boxes a pitch apart. -/
structure Layout (lines columns : ℕ) where
  width : ℕ
  height : ℕ
  pitchX : ℕ
  pitchY : ℕ
  stride : ℕ
  width_le : width ≤ pitchX
  height_le : height ≤ pitchY
  columns_le : columns * pitchX ≤ stride

/-- A number in a mixed radix determines its digits. -/
theorem digits_inj {p q q' r r' : ℕ} (hr : r < p) (hr' : r' < p) (h : q * p + r = q' * p + r') :
    q = q' ∧ r = r' := by
  have hmod := congrArg (· % p) h
  simp only [Nat.mul_add_mod_of_lt hr, Nat.mul_add_mod_of_lt hr'] at hmod
  subst hmod
  exact ⟨Nat.eq_of_mul_eq_mul_right (Nat.zero_lt_of_lt hr) (Nat.add_right_cancel h), rfl⟩

/-- A number in a mixed radix is below the product of the radices. -/
theorem digits_lt {p n q r : ℕ} (hr : r < p) (hq : q < n) : q * p + r < n * p := by
  have h : (q + 1) * p ≤ n * p := Nat.mul_le_mul_right p hq
  rw [Nat.add_mul, Nat.one_mul] at h
  omega

namespace Layout

variable (L : Layout lines columns)

/-- The place of a point of the box of a cell. -/
def place (c : Cell lines columns) (x : Fin L.width) (y : Fin L.height) : ℕ :=
  c.col * L.pitchX + x + (c.line * L.pitchY + y) * L.stride

/-- A place is in the box of some cell. -/
def InBox (i : ℕ) : Prop := ∃ c x y, L.place c x y = i

/-- The writes that draw a cell row by row, in the shades given for what is in it. -/
def box (shade : α → Fin L.width → Fin L.height → V) (entry : Cell lines columns × α) :
    List (ℕ × V) :=
  (List.finRange L.height).flatMap fun y ↦
    (List.finRange L.width).map fun x ↦ (L.place entry.1 x y, shade entry.2 x y)

/-- The writes that draw what is placed. -/
def draw (shade : α → Fin L.width → Fin L.height → V) (entries : List (Cell lines columns × α)) :
    List (ℕ × V) := entries.flatMap (L.box shade)

variable {L} {shade : α → Fin L.width → Fin L.height → V} {c c' : Cell lines columns}
  {x x' : Fin L.width} {y y' : Fin L.height} {entries entries' : List (Cell lines columns × α)}

/-- The boxes fit into a row of the buffer. -/
theorem x_lt : c.col * L.pitchX + x < L.stride :=
  (digits_lt (x.isLt.trans_le L.width_le) c.col.isLt).trans_le L.columns_le

/-- Different points of the boxes have different places. -/
theorem place_inj (h : L.place c x y = L.place c' x' y') : c = c' ∧ x = x' ∧ y = y' := by
  rw [place, place, Nat.add_comm, Nat.add_comm (c'.col * L.pitchX + x')] at h
  obtain ⟨hy, hx⟩ := digits_inj x_lt x_lt h
  obtain ⟨hline, hy⟩ := digits_inj (y.isLt.trans_le L.height_le) (y'.isLt.trans_le L.height_le) hy
  obtain ⟨hcol, hx⟩ := digits_inj (x.isLt.trans_le L.width_le) (x'.isLt.trans_le L.width_le) hx
  exact ⟨Cell.ext (Fin.ext hline) (Fin.ext hcol), Fin.ext hx, Fin.ext hy⟩

/-- The boxes are in the rows that the lines take. -/
theorem place_lt {rows : ℕ} (h : lines * L.pitchY ≤ rows) : L.place c x y < L.stride * rows := by
  have hrow : c.line * L.pitchY + y < rows :=
    (digits_lt (y.isLt.trans_le L.height_le) c.line.isLt).trans_le h
  rw [place, Nat.add_comm, Nat.mul_comm L.stride]
  exact digits_lt x_lt hrow

theorem mem_box {entry : Cell lines columns × α} {write : ℕ × V} :
    write ∈ L.box shade entry ↔ ∃ x y, write = (L.place entry.1 x y, shade entry.2 x y) := by
  simp only [box, List.mem_flatMap, List.mem_finRange, List.mem_map, true_and]
  constructor
  · rintro ⟨y, x, rfl⟩
    exact ⟨x, y, rfl⟩
  · rintro ⟨x, y, rfl⟩
    exact ⟨y, x, rfl⟩

theorem draw_append : L.draw shade (entries ++ entries') = L.draw shade entries ++
    L.draw shade entries' := List.flatMap_append

theorem draw_singleton (entry : Cell lines columns × α) :
    L.draw shade [entry] = L.box shade entry :=
  List.flatMap_singleton ..

/-- Every write is to a box. -/
theorem inBox_of_mem_draw {write : ℕ × V} (h : write ∈ L.draw shade entries) : L.InBox write.1 := by
  obtain ⟨entry, -, hwrite⟩ := List.mem_flatMap.mp h
  obtain ⟨x, y, rfl⟩ := mem_box.mp hwrite
  exact ⟨entry.1, x, y, rfl⟩

/-- A point of the box of a cell has the shade of what was placed there last. -/
theorem last_draw (c : Cell lines columns) (x : Fin L.width) (y : Fin L.height) :
    WriteLog.last (L.draw shade entries) (L.place c x y) =
      (WriteLog.last entries c).map fun a ↦ shade a x y := by
  apply WriteLog.last_flatMap
  · intro a
    apply WriteLog.last_eq_some (mem_box.mpr ⟨x, y, rfl⟩)
    intro write hwrite hplace
    obtain ⟨x', y', rfl⟩ := mem_box.mp hwrite
    obtain ⟨-, rfl, rfl⟩ := place_inj hplace
    rfl
  · intro entry hentry
    apply WriteLog.last_eq_none
    intro write hwrite hplace
    obtain ⟨x', y', rfl⟩ := mem_box.mp hwrite
    exact hentry (place_inj hplace).1

/-- Nothing is written outside the boxes. -/
theorem last_draw_of_not_inBox {i : ℕ} (h : ¬ L.InBox i) :
    WriteLog.last (L.draw shade entries) i = none := by
  apply WriteLog.last_eq_none
  rintro write hwrite rfl
  exact h (inBox_of_mem_draw hwrite)

end Layout

end TextGrid
