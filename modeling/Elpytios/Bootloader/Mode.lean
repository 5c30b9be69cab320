import Elpytios.Kernel.Rendering
import Mathlib.Data.List.Induction
import Mathlib.Data.List.MinMax

/-!
# The graphics mode

The loop of `setup_uefi_and_exit` over the modes of the display, and what it tells the kernel about
the mode it sets.  The loop keeps the mode, its description and its area apart; all three are those
of the first of the largest modes (`selectMode_eq`).
-/

namespace Elpytios

/-- The pixel formats of the firmware. -/
inductive FirmwareFormat where
  | Rgb
  | Bgr
  | Bitmask
  | BltOnly
deriving DecidableEq, Repr

structure ModeInfo where
  resolution : Word × Word
  stride : Word
  pixel_format : FirmwareFormat
deriving DecidableEq, Repr

structure Mode where
  index : BitVec 32
  info : ModeInfo
deriving DecidableEq, Repr

/-- The variables of the loop. -/
structure Selection where
  max_area : Word
  max_mode : Option Mode
  info : Option ModeInfo
deriving DecidableEq, Repr

def Mode.area (self : Mode) : Word := self.info.resolution.1 * self.info.resolution.2

def Selection.consider (self : Selection) (possible_mode : Mode) : Selection :=
  let area := possible_mode.area
  if self.max_mode.isNone || area > self.max_area then
    ⟨area, some possible_mode, some possible_mode.info⟩
  else self

/-- The mode that is set, and its description.  There is no mode to set if there is none at all. -/
def selectMode (modes : List Mode) : Option (Mode × ModeInfo) := do
  let selection := modes.foldl Selection.consider ⟨0, none, none⟩
  let mode ← selection.max_mode
  let info ← selection.info
  return (mode, info)

def FirmwareFormat.toPixelFormat : FirmwareFormat → PixelFormat
  | .Rgb => .RGB_8_BIT
  | .Bgr => .BGR_8_BIT
  | .Bitmask => .BIT_MASK
  | .BltOnly => .BLT_ONLY

/-- What the kernel is told about the mode, but for the pointer to the framebuffer. -/
def graphicsInfo (mode_info : ModeInfo) (frame_buffer_size : Word) : GraphicsInfo where
  w := mode_info.resolution.1
  h := mode_info.resolution.2
  stride := mode_info.stride
  pixel_format := mode_info.pixel_format.toPixelFormat
  frame_buffer_size := frame_buffer_size

/-- The first of the largest modes. -/
def largest (modes : List Mode) : Option Mode := modes.argmax fun mode ↦ mode.area.toNat

/-- The variables of the loop are about one mode. -/
theorem foldl_consider (modes : List Mode) :
    modes.foldl Selection.consider ⟨0, none, none⟩ =
      match largest modes with
      | none => ⟨0, none, none⟩
      | some mode => ⟨mode.area, some mode, some mode.info⟩ := by
  induction modes using List.reverseRecOn with
  | nil => rfl
  | append_singleton modes mode ih =>
      rw [List.foldl_append, List.foldl_cons, List.foldl_nil, ih, largest, largest,
        List.argmax_concat]
      generalize List.argmax (fun mode : Mode ↦ mode.area.toNat) modes = best
      rcases best with - | best
      · rfl
      · by_cases hlarger : best.area.toNat < mode.area.toNat
        · simp only [if_pos hlarger]
          exact if_pos (decide_eq_true (BitVec.lt_def.mpr hlarger))
        · simp only [if_neg hlarger]
          exact if_neg fun h ↦ hlarger (BitVec.lt_def.mp (of_decide_eq_true h))

theorem selectMode_eq (modes : List Mode) :
    selectMode modes = (largest modes).map fun mode ↦ (mode, mode.info) := by
  rw [selectMode, foldl_consider]
  rcases largest modes with - | mode
  · rfl
  · rfl

/-- The mode that is found is one of the modes, described as it is, and no mode is larger. -/
theorem mem_of_selectMode {modes : List Mode} {mode : Mode} {info : ModeInfo}
    (h : selectMode modes = some (mode, info)) :
    mode ∈ modes ∧ info = mode.info ∧ ∀ other ∈ modes, other.area ≤ mode.area := by
  rw [selectMode_eq] at h
  obtain ⟨best, hbest, heq⟩ := Option.map_eq_some_iff.mp h
  cases heq
  refine ⟨List.argmax_mem hbest, rfl, fun other hother ↦ ?_⟩
  apply BitVec.le_def.mpr
  exact List.le_of_mem_argmax (f := fun mode : Mode ↦ mode.area.toNat) hother hbest

end Elpytios
