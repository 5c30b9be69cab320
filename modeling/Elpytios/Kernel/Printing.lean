import Elpytios.Kernel.Screen

/-!
# What is printed

After any calls of `write_str` the screen shows the text, and nothing outside its cells has
changed.  The font ends at character 126, and `get_character` does not check that: a text with a
character from 127 on makes `write_str` panic.
-/

namespace Elpytios

open TextGrid

/-! ## Calls -/

/-- The screen shows a text that was typed from a cell on: each point of a cell has the colour of
the character that was placed there last. -/
structure Rendered {g : GraphicsInfo} (hg : g.Drawable) (start : TextCell g) (text : List Byte)
    (pixels : ℕ → Pixel) (con : Console) : Prop where
  lt : ∀ write ∈ con.writes, write.1 < g.stride.toNat * g.h.toNat
  shown : ∀ c x y ch, WriteLog.last (written 0 start (text.map key)) c = some ch →
    ∃ character, get_character ch = some character ∧
      WriteLog.play con.writes pixels (hg.layout.place c x y) = shade character x y
  blank : ∀ c x y, WriteLog.last (written 0 start (text.map key)) c = none →
    WriteLog.play con.writes pixels (hg.layout.place c x y) = pixels (hg.layout.place c x y)
  frame : ∀ i, ¬ hg.layout.InBox i → WriteLog.play con.writes pixels i = pixels i

section

variable {g : GraphicsInfo} {c : TextCell g} {con : Console} {text : List Byte}
  {calls : List String}

/-- What is written by some calls, and where the cursor is then. -/
theorem writeCalls_eq (hg : g.Drawable) (h : At g c con.writer)
    (hcalls : ∀ s ∈ calls, ∀ b ∈ bytes s, b ≤ 126) :
    ∃ writer, con.writeCalls calls =
        .ok ⟨writer, con.writes ++ hg.drawn (written 0 c ((calls.flatMap bytes).map key))⟩ ∧
      At g (c.after ((calls.flatMap bytes).map key)) writer := by
  induction calls generalizing con c with
  | nil =>
      rw [List.flatMap_nil, List.map_nil, written, drawn_nil, List.append_nil]
      exact ⟨con.writer, rfl, h⟩
  | cons s calls ih =>
      obtain ⟨writer, hwrite, hat⟩ := writeBytes_eq hg h (hcalls s List.mem_cons_self)
      let con' : Console := ⟨writer, con.writes ++ hg.drawn (written 0 c ((bytes s).map key))⟩
      have hcon : At g (c.after ((bytes s).map key)) con'.writer := hat
      obtain ⟨writer', hrest, hat'⟩ := ih hcon fun s hs ↦ hcalls s (List.mem_cons_of_mem _ hs)
      rw [List.flatMap_cons, List.map_append, written_append, drawn_append, ← List.append_assoc,
        Cell.after_append]
      refine ⟨writer', ?_, hat'⟩
      rw [Console.writeCalls, Console.write_str, hwrite]
      exact hrest

/-- What is placed is in the font if the text is. -/
theorem le_of_last_written {cell : TextCell g} {ch : Byte} (htext : ∀ b ∈ text, b ≤ 126)
    (h : WriteLog.last (written 0 c (text.map key)) cell = some ch) : ch ≤ 126 := by
  rcases eq_blank_or_mem_of_mem_written (WriteLog.mem_of_last_eq_some h) with hblank | hmem
  · rw [show ch = 0 from hblank]
    decide
  · obtain ⟨b, hb, hkey⟩ := List.mem_map.mp hmem
    rw [key] at hkey
    split_ifs at hkey
    obtain rfl := Key.char.inj hkey
    exact htext b hb

/-- Every write is to a pixel of the display. -/
theorem lt_of_mem_drawn (hg : g.Drawable) {entries : List (TextCell g × Byte)} {write : ℕ × Pixel}
    (h : write ∈ hg.drawn entries) : write.1 < g.stride.toNat * g.h.toNat := by
  rw [GraphicsInfo.Drawable.drawn] at h
  split_ifs at h
  · obtain ⟨c, x, y, hplace⟩ := Layout.inBox_of_mem_draw h
    rw [← hplace]
    exact Layout.place_lt (Nat.div_mul_le_self _ _)
  · cases h

/-- The drawing of what is typed shows it. -/
theorem rendered_drawn (hg : g.Drawable) (hknown : g.Known) {writer : DisplayWriter}
    (htext : ∀ b ∈ text, b ≤ 126) (pixels : ℕ → Pixel) :
    Rendered hg c text pixels ⟨writer, hg.drawn (written 0 c (text.map key))⟩ := by
  have hdraw : ∀ i, WriteLog.play (hg.drawn (written 0 c (text.map key))) pixels i =
      (WriteLog.last (hg.layout.draw byteShade (written 0 c (text.map key))) i).getD
        (pixels i) := by
    intro i
    rw [WriteLog.play_eq, GraphicsInfo.Drawable.drawn, if_pos hknown]
  refine ⟨fun write hwrite ↦ lt_of_mem_drawn hg hwrite, ?_, ?_, ?_⟩
  · intro cell x y ch hch
    obtain ⟨character, hcharacter⟩ :=
      Option.isSome_iff_exists.mp (get_character_isSome_iff.mpr (le_of_last_written htext hch))
    refine ⟨character, hcharacter, ?_⟩
    rw [hdraw, Layout.last_draw, hch]
    change byteShade ch x y = _
    rw [byteShade, hcharacter, Option.elim_some]
  · intro cell x y hnone
    rw [hdraw, Layout.last_draw, hnone]
    rfl
  · intro i hi
    rw [hdraw, Layout.last_draw_of_not_inBox hi]
    rfl

end

/-- Any calls of `write_str` whose bytes are in the font leave the cursor in range, and the screen
shows what they typed. -/
theorem writeCalls_rendered {writer : DisplayWriter} (hg : writer.graphics_info.Drawable)
    (hknown : writer.graphics_info.Known) (hcursor : writer.InRange) (pixels : ℕ → Pixel)
    (calls : List String) (hcalls : ∀ s ∈ calls, ∀ b ∈ bytes s, b ≤ 126) :
    ∀ pre, pre <+: calls → ∃ con, (Console.new writer).writeCalls pre = .ok con ∧
      con.writer.graphics_info = writer.graphics_info ∧ con.writer.InRange ∧
        Rendered hg (writer.cell hcursor) (pre.flatMap bytes) pixels con := by
  intro pre hpre
  have hbytes : ∀ s ∈ pre, ∀ b ∈ bytes s, b ≤ 126 := fun s hs ↦ hcalls s (hpre.subset hs)
  have htext : ∀ b ∈ pre.flatMap bytes, b ≤ 126 := by
    intro b hb
    obtain ⟨s, hs, hb⟩ := List.mem_flatMap.mp hb
    exact hbytes s hs b hb
  have hstart : At _ (writer.cell hcursor) (Console.new writer).writer := at_cell hcursor
  obtain ⟨writer', hrun, hat⟩ := writeCalls_eq hg hstart hbytes
  exact ⟨_, hrun, hat.info_eq, hat.inRange, rendered_drawn hg hknown htext pixels⟩

/-- A display with two lines of two columns. -/
def smallDisplay : GraphicsInfo where
  w := 18
  h := 32
  stride := 20
  pixel_format := .BGR_8_BIT
  frame_buffer_size := 2560

theorem smallDisplay_drawable : smallDisplay.Drawable :=
  ⟨by decide, by decide, by decide, by decide⟩

theorem smallDisplay_inRange : (⟨smallDisplay, 0, 1⟩ : DisplayWriter).InRange :=
  ⟨by decide, by decide⟩

theorem writeCalls_rendered_two_calls :
    ∃ con, (Console.new ⟨smallDisplay, 0, 1⟩).writeCalls ["Hi\n", "!"] = .ok con ∧
      con.writer.graphics_info = smallDisplay ∧ con.writer.InRange ∧
        Rendered smallDisplay_drawable (DisplayWriter.cell smallDisplay_inRange)
          [0x48, 0x69, 0x0A, 0x21] (fun _ ↦ 0x12345678) con :=
  writeCalls_rendered smallDisplay_drawable (Or.inr rfl) smallDisplay_inRange _ ["Hi\n", "!"]
    (by decide) _ List.prefix_rfl

/-! ## Any text -/

theorem bytes_eq (s : String) :
    bytes s = s.toList.flatMap fun ch ↦ (String.utf8EncodeChar ch).map UInt8.toBitVec := by
  rw [bytes, String.toUTF8_eq_toByteArray, ← String.utf8Encode_toList, List.utf8Encode,
    List.data_toByteArray, List.toList_toArray, List.map_flatMap]

/-- The first byte of a character that is not ASCII is not in the font. -/
theorem bytes_le_iff_char (ch : Char) :
    (∀ b ∈ (String.utf8EncodeChar ch).map UInt8.toBitVec, b ≤ 126) ↔ ch.toNat ≤ 126 := by
  have hle : ∀ n, n < 256 → ((UInt8.ofNat n).toBitVec ≤ 126 ↔ n ≤ 126) := by
    intro n hn
    rw [BitVec.le_def, UInt8.toNat_toBitVec, UInt8.toNat_ofNat_of_lt' hn]
    rfl
  -- A sequence of more than one byte starts with one from 192 on.
  have hlead : ∀ n rest, 192 ≤ n → n < 256 →
      ¬ ∀ b ∈ (UInt8.ofNat n :: rest).map UInt8.toBitVec, b ≤ 126 := by
    intro n rest hge hlt h
    have hn := (hle n hlt).mp (h _ List.mem_cons_self)
    omega
  have hvalue : ch.toNat = ch.val.toNat := rfl
  rw [String.utf8EncodeChar, hvalue]
  split_ifs with h₁ h₂ h₃
  · simp only [List.map_cons, List.map_nil, List.forall_mem_singleton]
    exact hle _ (by omega)
  · exact iff_of_false (hlead _ _ (by omega) (by omega)) (by omega)
  · exact iff_of_false (hlead _ _ (by omega) (by omega)) (by omega)
  · exact iff_of_false (hlead _ _ (by omega) (by omega)) (by omega)

theorem bytes_le_iff (s : String) :
    (∀ b ∈ bytes s, b ≤ 126) ↔ ∀ ch ∈ s.toList, ch.toNat ≤ 126 := by
  rw [bytes_eq]
  constructor
  · intro h ch hch
    exact (bytes_le_iff_char ch).mp fun b hb ↦ h b (List.mem_flatMap.mpr ⟨ch, hch, hb⟩)
  · intro h b hb
    obtain ⟨ch, hch, hb⟩ := List.mem_flatMap.mp hb
    exact (bytes_le_iff_char ch).mpr (h ch hch) b hb

section

variable {con con' : Console} {b : Byte}

/-- A byte that is not in the font makes the loop panic. -/
theorem le_of_writeByte (h : con.writeByte b = .ok con') : b ≤ 126 := by
  rw [Console.writeByte] at h
  split_ifs at h with hnewline
  · rw [hnewline]
    decide
  · apply get_character_isSome_iff.mp
    cases hch : get_character b with
    | none => rw [hch] at h; cases h
    | some character => rfl

theorem le_of_writeBytes {s : List Byte} {result : Console × Except FmtError Unit}
    (h : con.writeBytes s = .ok result) : ∀ b ∈ s, b ≤ 126 := by
  induction s generalizing con with
  | nil => intro b hb; cases hb
  | cons b s ih =>
      rw [Console.writeBytes] at h
      cases hbyte : con.writeByte b with
      | error con' => rw [hbyte] at h; cases h
      | ok con' =>
          rw [hbyte] at h
          exact List.forall_mem_cons.mpr ⟨le_of_writeByte hbyte, ih h⟩

end

/-- A text is printed: `write_str` ends with `Ok(())`, writes to the framebuffer only, and leaves
the cursor in range. -/
def Prints (writer : DisplayWriter) (s : String) : Prop :=
  ∃ con, (Console.new writer).write_str s = .ok (con, .ok ()) ∧
    (∀ write ∈ con.writes, (write.1 + 1) * 4 ≤ writer.graphics_info.frame_buffer_size.toNat) ∧
      con.writer.graphics_info = writer.graphics_info ∧ con.writer.InRange

/-- A text is printed exactly if its characters are in the font. -/
theorem prints_iff {writer : DisplayWriter} (hg : writer.graphics_info.Drawable)
    (hcursor : writer.InRange) (s : String) :
    Prints writer s ↔ ∀ ch ∈ s.toList, ch.toNat ≤ 126 := by
  rw [← bytes_le_iff]
  constructor
  · rintro ⟨con, hwrite, -⟩
    exact le_of_writeBytes hwrite
  · intro hs
    have hstart : At _ (writer.cell hcursor) (Console.new writer).writer := at_cell hcursor
    obtain ⟨writer', hwrite, hat⟩ := writeBytes_eq hg hstart hs
    refine ⟨_, hwrite, ?_, hat.info_eq, hat.inRange⟩
    intro write hmem
    have hlt := lt_of_mem_drawn hg hmem
    have hsize := hg.size_ge
    omega

theorem prints_hello : Prints ⟨smallDisplay, 0, 1⟩ "Hello\n" :=
  (prints_iff smallDisplay_drawable smallDisplay_inRange "Hello\n").mpr (by simp)

/-- `é` is two bytes, and the first of them makes `write_str` panic. -/
theorem not_prints_accent :
    smallDisplay.Drawable ∧ (⟨smallDisplay, 0, 1⟩ : DisplayWriter).InRange ∧
      ¬ Prints ⟨smallDisplay, 0, 1⟩ "é" := by
  refine ⟨smallDisplay_drawable, smallDisplay_inRange, ?_⟩
  rintro ⟨con, hwrite, -⟩
  have hpanic : (Console.new ⟨smallDisplay, 0, 1⟩).write_str "é" =
      .error (Console.new ⟨smallDisplay, 0, 1⟩) := rfl
  rw [hpanic] at hwrite
  cases hwrite

end Elpytios
