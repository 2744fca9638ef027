import SnsxOS.Framework.Painting

/-!
# Filling rectangles

Everything on the screen is drawn by `gfx_fill_rect`, which clips a rectangle to the screen and
colours it row by row, in the frame buffer or in a back buffer with another stride.
-/

namespace SnsxOS.Arm64

open Framework

def gfxBackbufferMaxWidth : Nat := 1920

def gfxBackbufferMaxHeight : Nat := 1080

/-- The array that `drawbuffer` points to. -/
inductive DrawTarget where
  | framebuffer
  | backbuffer
  deriving DecidableEq

/-- `g_gfx`, with the pixels that its pointers lead to and `g_gfx_backbuffer`. -/
structure GfxState where
  available : Bool
  width : UInt32
  height : UInt32
  stride : UInt32
  drawStride : UInt32
  framebuffer : Option (List UInt32)
  backbuffer : List UInt32
  drawbuffer : DrawTarget

namespace GfxState

/-- The pixels of the draw buffer. There are none behind a null pointer. -/
def pixels (g : GfxState) : Option (List UInt32) :=
  match g.drawbuffer with
  | .framebuffer => g.framebuffer
  | .backbuffer => some g.backbuffer

def withPixels (g : GfxState) (pixels : List UInt32) : GfxState :=
  match g.drawbuffer with
  | .framebuffer => { g with framebuffer := some pixels }
  | .backbuffer => { g with backbuffer := pixels }

theorem withPixels_self {g : GfxState} {pixels : List UInt32} (h : g.pixels = some pixels) :
    g.withPixels pixels = g := by
  obtain ⟨_, _, _, _, _, _, _, target⟩ := g
  cases target with
  | framebuffer =>
    have hframe := h.symm
    rw [GfxState.pixels] at hframe
    rw [withPixels]
    subst hframe
    rfl
  | backbuffer =>
    cases h
    rfl

end GfxState

def gfxBindBuffers (g : GfxState) : GfxState :=
  let g := { g with drawbuffer := .framebuffer, drawStride := g.stride }
  if ¬ g.available ∨ g.framebuffer = none then g
  else if g.width.toNat > gfxBackbufferMaxWidth ∨ g.height.toNat > gfxBackbufferMaxHeight then g
  else
    { g with
      backbuffer := List.replicate (gfxBackbufferMaxWidth * gfxBackbufferMaxHeight) 0
      drawbuffer := .backbuffer
      drawStride := g.width }

/-- The colouring of a row, which has no result where it leaves the draw buffer. -/
def gfxFillRow (g : GfxState) (x0 x1 : Int32) (color : UInt32) (py : Nat) :
    List UInt32 → Option (List UInt32) :=
  forLoop x0.toInt.toNat x1.toInt.toNat fun px pixels =>
    paint pixels (py * g.drawStride.toNat + px) color

def gfxFillRect (g : GfxState) (x y width height : Int32) (color : UInt32) : Option GfxState :=
  let x0 := if x < 0 then 0 else x
  let y0 := if y < 0 then 0 else y
  let x1 := x + width
  let y1 := y + height
  if ¬ g.available ∨ width ≤ 0 ∨ height ≤ 0 then some g
  else
    let x1 := if x1 > g.width.toInt32 then g.width.toInt32 else x1
    let y1 := if y1 > g.height.toInt32 then g.height.toInt32 else y1
    g.pixels.bind fun pixels =>
      (forLoop y0.toInt.toNat y1.toInt.toNat (gfxFillRow g x0 x1 color) pixels).map g.withPixels

/-- The state that `gfx_bind_buffers` sets up: a draw buffer with a place for every pixel. -/
structure GfxState.Bound (g : GfxState) (pixels : List UInt32) : Prop where
  available : g.available = true
  buffer : g.pixels = some pixels
  size : g.height.toNat * g.drawStride.toNat ≤ pixels.length
  width_le : g.width.toNat ≤ g.drawStride.toNat

/-- The places in the draw buffer of the pixels of a rectangle that lie on the screen. -/
def GfxState.rectCells (g : GfxState) (x y width height : Int) : Set Nat :=
  {k | ∃ px py : Nat, k = py * g.drawStride.toNat + px ∧
    (px < g.width.toNat ∧ x ≤ px ∧ px < x + width) ∧
    (py < g.height.toNat ∧ y ≤ py ∧ py < y + height)}

/-- A screen of fewer than 2^31 columns and rows. -/
def GfxState.Measurable (g : GfxState) : Prop := g.width.toNat < 2 ^ 31 ∧ g.height.toNat < 2 ^ 31

theorem gfxBindBuffers_bound {g : GfxState} {frame : List UInt32} (havailable : g.available = true)
    (hframe : g.framebuffer = some frame)
    (hsize : g.height.toNat * g.stride.toNat ≤ frame.length)
    (hwidth : g.width.toNat ≤ g.stride.toNat) :
    ∃ pixels, (gfxBindBuffers g).Bound pixels := by
  have hready : ¬ (¬ g.available = true ∨ g.framebuffer = none) := by
    rw [havailable, hframe]
    simp
  by_cases hlarge :
      g.width.toNat > gfxBackbufferMaxWidth ∨ g.height.toNat > gfxBackbufferMaxHeight
  · refine ⟨frame, ?_⟩
    rw [gfxBindBuffers, if_neg hready, if_pos hlarge]
    exact ⟨havailable, hframe, hsize, hwidth⟩
  · refine ⟨List.replicate (gfxBackbufferMaxWidth * gfxBackbufferMaxHeight) 0, ?_⟩
    rw [gfxBindBuffers, if_neg hready, if_neg hlarge]
    have hfit : g.height.toNat * g.width.toNat ≤
        gfxBackbufferMaxWidth * gfxBackbufferMaxHeight := by
      rw [Nat.mul_comm]
      exact Nat.mul_le_mul (by omega) (by omega)
    exact ⟨havailable, rfl, by rw [List.length_replicate]; exact hfit, le_rfl⟩

section Clipping

/-- What the conversion to `int` makes of a size of the screen. -/
theorem toInt_size (size : UInt32) : size.toInt32.toInt =
    if size.toNat < 2 ^ 31 then (size.toNat : Int) else size.toNat - 2 ^ 32 := by
  have hvalue : size.toInt32.toInt = size.toBitVec.toInt := rfl
  have hnat : size.toBitVec.toNat = size.toNat := rfl
  rw [hvalue, BitVec.toInt_eq_toNat_cond, hnat]
  split <;> split <;> omega

theorem toInt_sum {x width : Int32} (hlow : -2 ^ 31 ≤ x.toInt + width.toInt)
    (hhigh : x.toInt + width.toInt < 2 ^ 31) : (x + width).toInt = x.toInt + width.toInt := by
  rw [Int32.toInt_add]
  exact Int.bmod_eq_of_le (by omega) (by omega)

/-- The numbers that a loop runs through on one axis. -/
theorem mem_axis_iff {x width : Int32} (size : UInt32)
    (hlow : -2 ^ 31 ≤ x.toInt + width.toInt) (hhigh : x.toInt + width.toInt < 2 ^ 31) (p : Nat) :
    ((if x < 0 then 0 else x).toInt.toNat ≤ p ∧
      p < (if x + width > size.toInt32 then size.toInt32 else x + width).toInt.toNat) ↔
    size.toNat < 2 ^ 31 ∧ p < size.toNat ∧ x.toInt ≤ p ∧ p < x.toInt + width.toInt := by
  have hsize := toInt_size size
  have hstart : (if x < 0 then 0 else x).toInt = if x.toInt < 0 then 0 else x.toInt := by
    simp only [Int32.lt_iff_toInt_lt]
    split <;> simp_all
  have hend : (if x + width > size.toInt32 then size.toInt32 else x + width).toInt =
      if x.toInt + width.toInt > size.toInt32.toInt then size.toInt32.toInt
      else x.toInt + width.toInt := by
    simp only [gt_iff_lt, Int32.lt_iff_toInt_lt, toInt_sum hlow hhigh]
    split
    · rfl
    · exact toInt_sum hlow hhigh
  have hbound := size.toNat_lt
  rw [hstart, hend, hsize]
  split <;> split <;> split <;> omega

end Clipping

section Filling

variable {g : GfxState} {pixels : List UInt32} {x y width height : Int32} {color : UInt32}

/-- One row stays in the draw buffer. -/
theorem gfxFillRow_painted {old memory : List UInt32} {cells : Set Nat} {x0 x1 : Int32} {py : Nat}
    (hrow : py < g.height.toNat)
    (hcolumn : ∀ px, x0.toInt.toNat ≤ px ∧ px < x1.toInt.toNat → px < g.drawStride.toNat)
    (hsize : g.height.toNat * g.drawStride.toNat ≤ old.length)
    (h : Painted old color cells memory) :
    ∃ memory', gfxFillRow g x0 x1 color py memory = some memory' ∧
      Painted old color (cells ∪ roundCells x0.toInt.toNat x1.toInt.toNat
        fun px => {py * g.drawStride.toNat + px}) memory' := by
  apply forLoop_painted _ h
  intro px cells memory hfirst hlast hpainted
  apply hpainted.paint
  have hpx := hcolumn px ⟨hfirst, hlast⟩
  have hnext : (py + 1) * g.drawStride.toNat ≤ g.height.toNat * g.drawStride.toNat :=
    Nat.mul_le_mul_right _ hrow
  rw [Nat.succ_mul] at hnext
  omega

theorem rectCells_empty (h : width ≤ 0 ∨ height ≤ 0) :
    g.rectCells x.toInt y.toInt width.toInt height.toInt = ∅ := by
  simp only [Int32.le_iff_toInt_le, Int32.toInt_zero] at h
  ext k
  simp only [GfxState.rectCells, Set.mem_ofPred_eq, Set.mem_empty_iff_false, iff_false]
  intro hk
  obtain ⟨px, py, _, hpx, hpy⟩ := hk
  omega

/-- On a measurable screen the visible pixels of the rectangle are coloured, on another one none
is. -/
theorem gfxFillRect_painted (hbound : g.Bound pixels)
    (hxlow : -2 ^ 31 ≤ x.toInt + width.toInt) (hxhigh : x.toInt + width.toInt < 2 ^ 31)
    (hylow : -2 ^ 31 ≤ y.toInt + height.toInt) (hyhigh : y.toInt + height.toInt < 2 ^ 31) :
    ∃ pixels', gfxFillRect g x y width height color = some (g.withPixels pixels') ∧
      Painted pixels color
        {k ∈ g.rectCells x.toInt y.toInt width.toInt height.toInt | g.Measurable} pixels' := by
  by_cases hempty : width ≤ 0 ∨ height ≤ 0
  · refine ⟨pixels, ?_, ?_⟩
    · rw [GfxState.withPixels_self hbound.buffer]
      exact if_pos (Or.inr hempty)
    · rw [rectCells_empty hempty, Set.sep_empty]
      exact painted_empty pixels color
  · have hguard : ¬ (¬ g.available = true ∨ width ≤ 0 ∨ height ≤ 0) := by
      intro h
      cases h with
      | inl hno => exact hno hbound.available
      | inr h => exact hempty h
    have hxaxis := mem_axis_iff g.width hxlow hxhigh
    have hyaxis := mem_axis_iff g.height hylow hyhigh
    rw [gfxFillRect, if_neg hguard, hbound.buffer, Option.bind_some]
    generalize (if x < 0 then 0 else x) = x0 at hxaxis ⊢
    generalize (if y < 0 then 0 else y) = y0 at hyaxis ⊢
    generalize (if x + width > g.width.toInt32 then g.width.toInt32 else x + width) = x1
      at hxaxis ⊢
    generalize (if y + height > g.height.toInt32 then g.height.toInt32 else y + height) = y1
      at hyaxis ⊢
    have hrows : ∀ py cells memory, y0.toInt.toNat ≤ py → py < y1.toInt.toNat →
        Painted pixels color cells memory →
        ∃ memory', gfxFillRow g x0 x1 color py memory = some memory' ∧
          Painted pixels color (cells ∪ roundCells x0.toInt.toNat x1.toInt.toNat
            fun px => {py * g.drawStride.toNat + px}) memory' := by
      intro py cells memory hfirst hlast hpainted
      have hrow := ((hyaxis py).mp ⟨hfirst, hlast⟩).2.1
      apply gfxFillRow_painted hrow _ hbound.size hpainted
      intro px hpx
      exact ((hxaxis px).mp hpx).2.1.trans_le hbound.width_le
    obtain ⟨pixels', hrun, hpainted⟩ := forLoop_painted hrows (painted_empty pixels color)
    refine ⟨pixels', by rw [hrun, Option.map_some], ?_⟩
    convert hpainted using 1
    rw [Set.empty_union]
    ext k
    simp only [GfxState.rectCells, roundCells, Set.mem_ofPred_eq, Set.mem_singleton_iff,
      GfxState.Measurable]
    constructor
    · intro hk
      obtain ⟨⟨px, py, hplace, hpx, hpy⟩, hwidth, hheight⟩ := hk
      have hy := (hyaxis py).mpr ⟨hheight, hpy⟩
      have hx := (hxaxis px).mpr ⟨hwidth, hpx⟩
      exact ⟨py, hy.1, hy.2, px, hx.1, hx.2, hplace⟩
    · intro hk
      obtain ⟨py, hylow, hyhigh, px, hxlow, hxhigh, hplace⟩ := hk
      have hy := (hyaxis py).mp ⟨hylow, hyhigh⟩
      have hx := (hxaxis px).mp ⟨hxlow, hxhigh⟩
      exact ⟨⟨px, py, hplace, hx.2, hy.2⟩, hx.1, hy.1⟩

/-- A rectangle is filled: exactly its pixels on the screen take the colour, and nothing else of the
state changes. -/
def GfxState.Fills (g : GfxState) (x y width height : Int32) (color : UInt32) : Prop :=
  ∃ pixels pixels', g.pixels = some pixels ∧
    gfxFillRect g x y width height color = some (g.withPixels pixels') ∧
    Painted pixels color (g.rectCells x.toInt y.toInt width.toInt height.toInt) pixels'

theorem GfxState.pixels_withPixels (g : GfxState) (pixels : List UInt32) :
    (g.withPixels pixels).pixels = some pixels := by
  obtain ⟨_, _, _, _, _, _, _, target⟩ := g
  cases target <;> rfl

theorem GfxState.Bound.fills_iff (hbound : g.Bound pixels) {drawn : List UInt32}
    (hrun : gfxFillRect g x y width height color = some (g.withPixels drawn)) :
    g.Fills x y width height color ↔ Painted pixels color
      (g.rectCells x.toInt y.toInt width.toInt height.toInt) drawn := by
  constructor
  · intro h
    obtain ⟨pixels', drawn', hbuffer, hrun', hpainted⟩ := h
    have hsame : pixels' = pixels := Option.some.inj (hbuffer.symm.trans hbound.buffer)
    have hstate : g.withPixels drawn' = g.withPixels drawn :=
      Option.some.inj (hrun'.symm.trans hrun)
    have hdrawn := congrArg GfxState.pixels hstate
    rw [g.pixels_withPixels, g.pixels_withPixels] at hdrawn
    rw [← hsame, ← Option.some.inj hdrawn]
    exact hpainted
  · intro h
    exact ⟨pixels, drawn, hbound.buffer, hrun, h⟩

/-- On a screen that is not measurable a rectangle is filled only if its pixels have the colour. -/
theorem GfxState.Bound.fills_iff_of_not_measurable (hbound : g.Bound pixels)
    (hxlow : -2 ^ 31 ≤ x.toInt + width.toInt) (hxhigh : x.toInt + width.toInt < 2 ^ 31)
    (hylow : -2 ^ 31 ≤ y.toInt + height.toInt) (hyhigh : y.toInt + height.toInt < 2 ^ 31)
    (hscreen : ¬ g.Measurable) : g.Fills x y width height color ↔
      ∀ k ∈ g.rectCells x.toInt y.toInt width.toInt height.toInt, pixels[k]? = some color := by
  obtain ⟨drawn, hrun, hpainted⟩ := gfxFillRect_painted hbound hxlow hxhigh hylow hyhigh
  have hnone : {k ∈ g.rectCells x.toInt y.toInt width.toInt height.toInt | g.Measurable} = ∅ :=
    Set.sep_eq_empty_iff_mem_false.mpr fun _ _ => hscreen
  rw [hnone] at hpainted
  rw [hbound.fills_iff hrun, hpainted.iff_of_empty]

/-- Clipping is exact on a measurable screen. On another one the state is left as it is. -/
theorem gfxFillRect_fills_iff (hbound : g.Bound pixels)
    (hxlow : -2 ^ 31 ≤ x.toInt + width.toInt) (hxhigh : x.toInt + width.toInt < 2 ^ 31)
    (hylow : -2 ^ 31 ≤ y.toInt + height.toInt) (hyhigh : y.toInt + height.toInt < 2 ^ 31) :
    g.Fills x y width height color ↔ g.Measurable ∨
      ∀ k ∈ g.rectCells x.toInt y.toInt width.toInt height.toInt, pixels[k]? = some color := by
  by_cases hscreen : g.Measurable
  · obtain ⟨drawn, hrun, hpainted⟩ := gfxFillRect_painted hbound hxlow hxhigh hylow hyhigh
    have hall : {k ∈ g.rectCells x.toInt y.toInt width.toInt height.toInt | g.Measurable} =
        g.rectCells x.toInt y.toInt width.toInt height.toInt :=
      Set.sep_eq_self_iff_mem_true.mpr fun _ _ => hscreen
    rw [hall] at hpainted
    exact iff_of_true ((hbound.fills_iff hrun).mpr hpainted) (Or.inl hscreen)
  · rw [hbound.fills_iff_of_not_measurable hxlow hxhigh hylow hyhigh hscreen,
      or_iff_right hscreen]

end Filling

/-- A screen of two rows of three pixels, bound to its frame buffer. -/
def smallScreen : GfxState :=
  { available := true, width := 3, height := 2, stride := 4, drawStride := 4,
    framebuffer := some (List.replicate 8 0), backbuffer := [], drawbuffer := .framebuffer }

theorem gfxFillRect_fills_iff_corner :
    smallScreen.Fills 2 (-1) 5 2 7 ↔ smallScreen.Measurable ∨
      ∀ k ∈ smallScreen.rectCells (2 : Int32).toInt (-1 : Int32).toInt (5 : Int32).toInt
        (2 : Int32).toInt, (List.replicate 8 (0 : UInt32))[k]? = some 7 :=
  gfxFillRect_fills_iff ⟨rfl, rfl, by decide, by decide⟩ (by decide) (by decide) (by decide)
    (by decide)

/-- A screen of one row of 2^31 pixels. -/
def endlessRow : GfxState :=
  { available := true, width := 2147483648, height := 1, stride := 2147483648,
    drawStride := 2147483648, framebuffer := some (List.replicate 2147483648 0), backbuffer := [],
    drawbuffer := .framebuffer }

/-- On a row of 2^31 pixels not even the first pixel is drawn. -/
theorem not_gfxFillRect_fills : gfxBindBuffers endlessRow = endlessRow ∧
    endlessRow.Bound (List.replicate 2147483648 0) ∧ ¬ endlessRow.Fills 0 0 1 1 1 := by
  have hbound : endlessRow.Bound (List.replicate 2147483648 0) := by
    refine ⟨rfl, rfl, ?_, le_rfl⟩
    rw [List.length_replicate]
    decide
  have hbind : gfxBindBuffers endlessRow = endlessRow := by
    have hready : ¬ (¬ endlessRow.available = true ∨ endlessRow.framebuffer = none) := by
      intro h
      cases h with
      | inl hno => exact hno rfl
      | inr hnull => exact Option.some_ne_none _ hnull
    rw [gfxBindBuffers, if_neg hready]
    exact if_pos (Or.inl (by decide))
  refine ⟨hbind, hbound, fun hfills => ?_⟩
  have hscreen : ¬ endlessRow.Measurable := fun h => absurd h.1 (by decide)
  have hcoloured := (hbound.fills_iff_of_not_measurable (by decide) (by decide) (by decide)
    (by decide) hscreen).mp hfills
  have hfirst : 0 ∈ endlessRow.rectCells (0 : Int32).toInt (0 : Int32).toInt (1 : Int32).toInt
      (1 : Int32).toInt :=
    ⟨0, 0, rfl, ⟨by decide, by decide, by decide⟩, by decide, by decide, by decide⟩
  have hcolour := hcoloured 0 hfirst
  rw [List.getElem?_replicate, if_pos (by decide)] at hcolour
  cases hcolour

end SnsxOS.Arm64
