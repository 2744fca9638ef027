import SnsxOS.Framework.ForLoop
import SnsxOS.Framework.Paper
import SnsxOS.Framework.Transition
import SnsxOS.Framework.Bytes

/-!
# The VGA terminal

`terminal_putchar` writes into the 80 by 25 cells of the text screen and scrolls when the cursor
leaves the last row. The screen is the end of what the characters since the last clearing make on
paper of 80 columns without an end: the row of the cursor and the 24 rows above it.
-/

namespace SnsxOS.X86

open SnsxOS.Framework

def vgaWidth : Nat := 80

def vgaHeight : Nat := 25

theorem vgaWidth_pos : 0 < vgaWidth := by decide

theorem vgaHeight_pos : 0 < vgaHeight := by decide

def vgaEntryColor (fg bg : UInt8) : UInt8 := fg ||| bg <<< 4

def vgaEntry (c color : UInt8) : UInt16 := c.toUInt16 ||| color.toUInt16 <<< 8

/-- The character of a cell. -/
def entryChar (entry : UInt16) : UInt8 := entry.toUInt8

/-- `VGA_MEMORY` and the variables of the driver; `position` is what the registers of the cursor
hold. -/
structure Terminal where
  memory : List UInt16
  row : Nat
  column : Nat
  color : UInt8
  position : UInt16

/-- A write to the screen. There is no result where it misses the cells. -/
def writeEntry (memory : List UInt16) (index : Nat) (entry : UInt16) : Option (List UInt16) :=
  if index < memory.length then some (memory.set index entry) else none

namespace Terminal

/-- `terminal_update_cursor`; the position is put out byte by byte. -/
def updateCursor (t : Terminal) : Terminal :=
  let position := UInt16.ofNat (t.row * vgaWidth + t.column)
  let low := (position &&& 0xFF).toUInt8
  let high := ((position >>> 8) &&& 0xFF).toUInt8
  { t with position := high.toUInt16 <<< 8 ||| low.toUInt16 }

/-- The rows but the first one, each moved up by a row. -/
def moveRowsUp (memory : List UInt16) : Option (List UInt16) :=
  forLoop 1 vgaHeight (fun y => forLoop 0 vgaWidth fun x memory =>
    (memory[y * vgaWidth + x]?).bind fun entry =>
      writeEntry memory ((y - 1) * vgaWidth + x) entry) memory

def blankLastRow (color : UInt8) (memory : List UInt16) : Option (List UInt16) :=
  forLoop 0 vgaWidth (fun x memory =>
    writeEntry memory ((vgaHeight - 1) * vgaWidth + x) (vgaEntry 32 color)) memory

/-- `terminal_scroll` -/
def scroll (t : Terminal) : Option Terminal :=
  if t.row < vgaHeight then some t
  else (moveRowsUp t.memory).bind fun memory =>
    (blankLastRow t.color memory).map fun memory =>
      { t with memory := memory, row := vgaHeight - 1 }

/-- `terminal_clear` -/
def clear (t : Terminal) : Option Terminal :=
  (forLoop 0 vgaHeight (fun y => forLoop 0 vgaWidth fun x memory =>
    writeEntry memory (y * vgaWidth + x) (vgaEntry 32 t.color)) t.memory).map fun memory =>
      { t with memory := memory, row := 0, column := 0 }.updateCursor

/-- `terminal_initialize` -/
def init (t : Terminal) : Option Terminal :=
  { t with row := 0, column := 0, color := vgaEntryColor 7 0 }.clear

/-- `terminal_set_color` -/
def setColor (t : Terminal) (fg bg : UInt8) : Terminal := { t with color := vgaEntryColor fg bg }

/-- The part of `terminal_putchar` behind its tests. -/
def putGlyph (t : Terminal) (c : UInt8) : Option Terminal :=
  (writeEntry t.memory (t.row * vgaWidth + t.column) (vgaEntry c t.color)).bind fun memory =>
    let t := { t with memory := memory, column := t.column + 1 }
    let t := if vgaWidth ≤ t.column then { t with column := 0, row := t.row + 1 } else t
    t.scroll.map updateCursor

/-- `terminal_putchar`; the blanks of a tab pass its tests. -/
def putchar (t : Terminal) (c : UInt8) : Option Terminal :=
  if c = 10 then ({ t with column := 0, row := t.row + 1 }.scroll).map updateCursor
  else if c = 13 then some { t with column := 0 }.updateCursor
  else if c = 9 then forLoop 0 4 (fun _ t => t.putGlyph 32) t
  else t.putGlyph c

/-- `terminal_backspace` -/
def backspace (t : Terminal) : Option Terminal :=
  if t.column = 0 ∧ t.row = 0 then some t
  else
    let t := if t.column = 0 then { t with row := t.row - 1, column := vgaWidth - 1 }
      else { t with column := t.column - 1 }
    (writeEntry t.memory (t.row * vgaWidth + t.column) (vgaEntry 32 t.color)).map fun memory =>
      { t with memory := memory }.updateCursor

end Terminal

inductive TerminalOp where
  | putchar (c : UInt8)
  | clear
  | setColor (fg bg : UInt8)
  deriving DecidableEq

def terminalStep (t : Terminal) : TerminalOp → Option Terminal
  | .putchar c => t.putchar c
  | .clear => t.clear
  | .setColor fg bg => some (t.setColor fg bg)

/-- A character on paper; a tab is four blanks. -/
def paperPutchar (p : Paper UInt8) (c : UInt8) : Paper UInt8 :=
  if c = 10 then p.newline
  else if c = 13 then p.carriageReturn
  else if c = 9 then (((p.put vgaWidth 32).put vgaWidth 32).put vgaWidth 32).put vgaWidth 32
  else p.put vgaWidth c

/-- The paper is a new one after each clearing. -/
def paperStep (p : Paper UInt8) : TerminalOp → Paper UInt8
  | .putchar c => paperPutchar p c
  | .clear => .blank 32
  | .setColor _ _ => p

/-- The paper with the characters since the last clearing. -/
def rendering (ops : List TerminalOp) : Paper UInt8 := run paperStep (.blank 32) ops

/-- The number of rows of the paper that have left the screen. -/
def rowsGone (p : Paper UInt8) : Nat := p.row - (vgaHeight - 1)

/-- The screen shows the end of the paper. -/
structure ShowsEnd (t : Terminal) (p : Paper UInt8) : Prop where
  row_lt : t.row < vgaHeight
  column_lt : t.column < vgaWidth
  row : rowsGone p + t.row = p.row
  column : t.column = p.col
  length : t.memory.length = vgaHeight * vgaWidth
  cell : ∀ y < vgaHeight, ∀ x < vgaWidth,
    (t.memory[y * vgaWidth + x]?).map entryChar = some (p.cell (rowsGone p + y) x)

@[simp] theorem entryChar_vgaEntry (c color : UInt8) : entryChar (vgaEntry c color) = c := by
  apply UInt8.toBitVec_inj.mp
  ext i hi
  simp [entryChar, vgaEntry]

theorem position_bytes (position : UInt16) :
    ((position >>> 8) &&& 0xFF).toUInt8.toUInt16 <<< 8 ||| (position &&& 0xFF).toUInt8.toUInt16 =
      position := by
  apply UInt16.toBitVec_inj.mp
  ext i hi
  simp [-UInt16.toUInt16_toUInt8]
  interval_cases i <;> simp

theorem writeEntry_eq {memory : List UInt16} {index : Nat} (h : index < memory.length)
    (entry : UInt16) : writeEntry memory index entry = some (memory.set index entry) := if_pos h

/-- The first `k` cells hold what was a row further down. -/
structure MovedUp (old : List UInt16) (k : Nat) (memory : List UInt16) : Prop where
  length : memory.length = old.length
  cell : ∀ i, memory[i]? = if i < k then old[i + vgaWidth]? else old[i]?

theorem movedUp_zero (old : List UInt16) : MovedUp old 0 old :=
  ⟨rfl, fun i => (if_neg (Nat.not_lt_zero i)).symm⟩

theorem MovedUp.step {old memory : List UInt16} {k : Nat} (h : MovedUp old k memory)
    (hk : k + vgaWidth < old.length) :
    ∃ memory', ((memory[k + vgaWidth]?).bind fun entry => writeEntry memory k entry) =
      some memory' ∧ MovedUp old (k + 1) memory' := by
  have hroom : k < memory.length := by
    rw [h.length]
    omega
  have hbelow : ¬ k + vgaWidth < k := by omega
  have hread : memory[k + vgaWidth]? = some old[k + vgaWidth] := by
    rw [h.cell, if_neg hbelow]
    exact List.getElem?_eq_getElem hk
  refine ⟨memory.set k old[k + vgaWidth], ?_, ?_, fun i => ?_⟩
  · rw [hread, Option.bind_some, writeEntry_eq hroom]
  · rw [List.length_set, h.length]
  · rw [List.getElem?_set, if_pos hroom, h.cell]
    rcases Nat.lt_trichotomy i k with hlow | rfl | hhigh
    · rw [if_neg (by omega), if_pos hlow, if_pos (by omega)]
    · rw [if_pos rfl, if_pos (by omega)]
      exact (List.getElem?_eq_getElem hk).symm
    · rw [if_neg (by omega), if_neg (by omega), if_neg (by omega)]

/-- The `k` cells from the first one on hold the same entry. -/
structure Filled (old : List UInt16) (entry : UInt16) (first k : Nat) (memory : List UInt16) :
    Prop where
  length : memory.length = old.length
  cell : ∀ i, memory[i]? = if first ≤ i ∧ i < first + k then some entry else old[i]?

theorem filled_zero (old : List UInt16) (entry : UInt16) (first : Nat) :
    Filled old entry first 0 old := by
  refine ⟨rfl, fun i => ?_⟩
  rw [if_neg]
  omega

theorem Filled.step {old memory : List UInt16} {entry : UInt16} {first k : Nat}
    (h : Filled old entry first k memory) (hk : first + k < old.length) :
    ∃ memory', writeEntry memory (first + k) entry = some memory' ∧
      Filled old entry first (k + 1) memory' := by
  have hroom : first + k < memory.length := by
    rw [h.length]
    exact hk
  refine ⟨_, writeEntry_eq hroom entry, ?_, fun i => ?_⟩
  · rw [List.length_set, h.length]
  · rw [List.getElem?_set, if_pos hroom, h.cell]
    by_cases hlast : first + k = i
    · rw [if_pos hlast, if_pos (by omega)]
    · rw [if_neg hlast]
      congr 1
      apply propext
      omega

namespace Terminal

theorem moveRowsUp_eq {old : List UInt16} (h : old.length = vgaHeight * vgaWidth) :
    ∃ memory, moveRowsUp old = some memory ∧
      MovedUp old ((vgaHeight - 1) * vgaWidth) memory := by
  refine forLoop_invariant (fun y memory => MovedUp old ((y - 1) * vgaWidth) memory)
    (by decide) (fun y memory hfirst hlast hmoved => ?_) (movedUp_zero old)
  have hend : (y - 1) * vgaWidth + vgaWidth = (y + 1 - 1) * vgaWidth := by
    simp only [vgaWidth] at *
    omega
  rw [← hend]
  refine forLoop_invariant (fun x memory => MovedUp old ((y - 1) * vgaWidth + x) memory)
    (Nat.zero_le _) (fun x memory _ hx hmoved => ?_) hmoved
  · have hsource : y * vgaWidth + x = (y - 1) * vgaWidth + x + vgaWidth := by
      simp only [vgaWidth] at *
      omega
    have hin : (y - 1) * vgaWidth + x + vgaWidth < old.length := by
      rw [h, ← hsource]
      simp only [vgaWidth, vgaHeight] at *
      omega
    have hstep := hmoved.step hin
    rw [← hsource] at hstep
    exact hstep

theorem blankLastRow_eq {old : List UInt16} (h : old.length = vgaHeight * vgaWidth)
    (color : UInt8) :
    ∃ memory, blankLastRow color old = some memory ∧
      Filled old (vgaEntry 32 color) ((vgaHeight - 1) * vgaWidth) vgaWidth memory := by
  refine forLoop_invariant
    (fun x memory => Filled old (vgaEntry 32 color) ((vgaHeight - 1) * vgaWidth) x memory)
    (Nat.zero_le _) (fun x memory _ hx hfilled => hfilled.step ?_) (filled_zero old _ _)
  rw [h]
  simp only [vgaWidth, vgaHeight] at *
  omega

theorem clearRows_eq {old : List UInt16} (h : old.length = vgaHeight * vgaWidth)
    (entry : UInt16) :
    ∃ memory, (forLoop 0 vgaHeight (fun y => forLoop 0 vgaWidth fun x memory =>
        writeEntry memory (y * vgaWidth + x) entry) old) = some memory ∧
      Filled old entry 0 (vgaHeight * vgaWidth) memory := by
  have hstart : Filled old entry 0 (0 * vgaWidth) old := filled_zero old entry 0
  refine forLoop_invariant (fun y memory => Filled old entry 0 (y * vgaWidth) memory)
    (Nat.zero_le _) (fun y memory _ hlast hfilled => ?_) hstart
  rw [Nat.succ_mul]
  refine forLoop_invariant (fun x memory => Filled old entry 0 (y * vgaWidth + x) memory)
    (Nat.zero_le _) (fun x memory _ hx hfilled => ?_) hfilled
  · have hin : 0 + (y * vgaWidth + x) < old.length := by
      rw [h]
      simp only [vgaWidth, vgaHeight] at *
      omega
    have hstep := hfilled.step hin
    rw [Nat.zero_add] at hstep
    exact hstep

end Terminal

/-- The screen shows the end of the paper, also in the registers of the cursor. -/
structure Settled (t : Terminal) (p : Paper UInt8) : Prop extends ShowsEnd t p where
  position : t.position.toNat = t.row * vgaWidth + t.column

theorem ShowsEnd.updateCursor {t : Terminal} {p : Paper UInt8} (h : ShowsEnd t p) :
    Settled t.updateCursor p := by
  have hrow := h.row_lt
  have hcolumn := h.column_lt
  refine ⟨⟨h.row_lt, h.column_lt, h.row, h.column, h.length, h.cell⟩, ?_⟩
  have hword : t.updateCursor.position = UInt16.ofNat (t.row * vgaWidth + t.column) :=
    position_bytes _
  rw [hword]
  apply UInt16.toNat_ofNat_of_lt'
  simp only [vgaWidth, vgaHeight, UInt16.size] at *
  show t.row * 80 + t.column < 65536
  omega

/-- The paper may go on for a row that the screen has not, a blank one. -/
structure BeforeScroll (top : Nat) (t : Terminal) (p : Paper UInt8) : Prop where
  row_le : t.row ≤ vgaHeight
  top_eq : top = 0 ∨ vgaHeight - 1 ≤ t.row
  column_lt : t.column < vgaWidth
  row : top + t.row = p.row
  column : t.column = p.col
  length : t.memory.length = vgaHeight * vgaWidth
  cell : ∀ y < vgaHeight, ∀ x < vgaWidth,
    (t.memory[y * vgaWidth + x]?).map entryChar = some (p.cell (top + y) x)
  blank : t.row = vgaHeight → ∀ x, p.cell p.row x = 32

theorem BeforeScroll.scroll {top : Nat} {t : Terminal} {p : Paper UInt8}
    (h : BeforeScroll top t p) : ∃ t', t.scroll.map Terminal.updateCursor = some t' ∧ Settled t' p := by
  have htop := h.top_eq
  have hrow := h.row
  have hle := h.row_le
  by_cases hin : t.row < vgaHeight
  · refine ⟨t.updateCursor, ?_, ShowsEnd.updateCursor ?_⟩
    · rw [Terminal.scroll, if_pos hin, Option.map_some]
    · have hgone : rowsGone p = top := by
        simp only [rowsGone, vgaHeight] at *
        omega
      exact ⟨hin, h.column_lt, hgone ▸ h.row, h.column, h.length, hgone ▸ h.cell⟩
  · have hlast : t.row = vgaHeight := by omega
    have hgone : rowsGone p = top + 1 := by
      simp only [rowsGone, vgaHeight] at *
      omega
    obtain ⟨moved, hmove, hmoved⟩ := Terminal.moveRowsUp_eq h.length
    obtain ⟨memory, hblank, hfilled⟩ :=
      Terminal.blankLastRow_eq (hmoved.length.trans h.length) t.color
    refine ⟨_, ?_, ShowsEnd.updateCursor
      (t := { t with memory := memory, row := vgaHeight - 1 }) ?_⟩
    · rw [Terminal.scroll, if_neg hin, hmove, Option.bind_some, hblank]
      rfl
    refine ⟨Nat.sub_one_lt vgaHeight_pos.ne', h.column_lt, ?_, h.column,
      (hfilled.length.trans hmoved.length).trans h.length, fun y hy x hx => ?_⟩
    · simp only [vgaHeight] at *
      omega
    · show (memory[y * vgaWidth + x]?).map entryChar = _
      rw [hfilled.cell, hgone]
      by_cases hend : y = vgaHeight - 1
      · have hcell : p.cell p.row x = 32 := h.blank hlast x
        have hrows : top + 1 + y = p.row := by
          simp only [vgaHeight] at *
          omega
        rw [if_pos, hrows, hcell]
        · simp
        · rw [hend]
          omega
      · have habove : y * vgaWidth + x < (vgaHeight - 1) * vgaWidth := by
          simp only [vgaWidth, vgaHeight] at *
          omega
        have hcell := h.cell (y + 1) (by omega) x hx
        have hnext : (y + 1) * vgaWidth + x = y * vgaWidth + x + vgaWidth := by
          simp only [vgaWidth]
          omega
        have hrows : top + (y + 1) = top + 1 + y := by omega
        rw [hnext, hrows] at hcell
        rw [if_neg (by omega), hmoved.cell, if_pos habove]
        exact hcell

section Step

variable {t : Terminal} {p : Paper UInt8}

theorem ShowsEnd.beforeScroll (h : ShowsEnd t p) : BeforeScroll (rowsGone p) t p := by
  have hrow := h.row
  have hin := h.row_lt
  refine ⟨hin.le, ?_, h.column_lt, hrow, h.column, h.length, h.cell,
    fun hend => absurd hend hin.ne⟩
  simp only [rowsGone, vgaHeight] at *
  omega

theorem ShowsEnd.newline (h : ShowsEnd t p) (hp : p.Tidy vgaWidth 32) :
    BeforeScroll (rowsGone p) { t with column := 0, row := t.row + 1 } p.newline := by
  have htop := h.beforeScroll.top_eq
  have hrow := h.row
  refine ⟨h.row_lt, ?_, vgaWidth_pos, ?_, rfl, h.length, h.cell,
    fun _ x => hp.below _ (Nat.lt_succ_self _) x⟩
  · exact htop.imp_right Nat.le_succ_of_le
  · show rowsGone p + (t.row + 1) = p.row + 1
    omega

theorem ShowsEnd.carriageReturn (h : ShowsEnd t p) :
    ShowsEnd { t with column := 0 } p.carriageReturn :=
  ⟨h.row_lt, vgaWidth_pos, h.row, rfl, h.length, h.cell⟩

theorem ShowsEnd.index_lt (h : ShowsEnd t p) :
    t.row * vgaWidth + t.column < t.memory.length := by
  have hrow := h.row_lt
  have hcolumn := h.column_lt
  rw [h.length]
  simp only [vgaWidth, vgaHeight] at *
  omega

theorem ShowsEnd.write (h : ShowsEnd t p) (c : UInt8) :
    ShowsEnd { t with memory := t.memory.set (t.row * vgaWidth + t.column) (vgaEntry c t.color) }
      (p.write c) := by
  refine ⟨h.row_lt, h.column_lt, h.row, h.column, ?_, fun y hy x hx => ?_⟩
  · rw [List.length_set]
    exact h.length
  · have hrow := h.row
    have hcol := h.column
    have hcolumn := h.column_lt
    have hcell := h.cell y hy x hx
    show ((t.memory.set _ _)[y * vgaWidth + x]?).map entryChar =
      some (if rowsGone p + y = p.row ∧ x = p.col then c else p.cell (rowsGone p + y) x)
    rw [List.getElem?_set, if_pos h.index_lt]
    by_cases hat : y = t.row ∧ x = t.column
    · rw [if_pos (by rw [hat.1, hat.2]), if_pos (by omega), Option.map_some, entryChar_vgaEntry]
    · have hother : t.row * vgaWidth + t.column ≠ y * vgaWidth + x := by
        simp only [vgaWidth] at *
        omega
      rw [if_neg hother, if_neg (by omega), hcell]

/-- The step of one character that is not a control character. -/
theorem ShowsEnd.putGlyph (h : ShowsEnd t p) (hp : p.Tidy vgaWidth 32) (c : UInt8) :
    ∃ t', t.putGlyph c = some t' ∧ Settled t' (p.put vgaWidth c) := by
  have hwrite := h.write c
  have hcol : t.column = (p.write c).col := h.column
  rw [Terminal.putGlyph, writeEntry_eq h.index_lt, Option.bind_some, Paper.put, Paper.advance]
  by_cases hmargin : vgaWidth ≤ t.column + 1
  · rw [if_pos (by rw [← hcol]; exact hmargin)]
    have hscroll := (hwrite.newline (hp.write c)).scroll
    simp only [hmargin, if_true]
    exact hscroll
  · rw [if_neg (by rw [← hcol]; exact hmargin)]
    have hmoved : ShowsEnd
        { t with
          memory := t.memory.set (t.row * vgaWidth + t.column) (vgaEntry c t.color)
          column := t.column + 1 } ⟨(p.write c).cell, p.row, p.col + 1⟩ :=
      ⟨h.row_lt, Nat.lt_of_not_le hmargin, h.row, congrArg (· + 1) hcol, hwrite.length,
        hwrite.cell⟩
    simp only [hmargin, if_false]
    exact hmoved.beforeScroll.scroll

end Step

/-- The screen and the paper after each call. -/
def InStep (t : Terminal) (p : Paper UInt8) : Prop := Settled t p ∧ p.Tidy vgaWidth 32

section Run

variable {t : Terminal} {p : Paper UInt8}

theorem InStep.putGlyph (h : InStep t p) (c : UInt8) :
    ∃ t', t.putGlyph c = some t' ∧ InStep t' (p.put vgaWidth c) := by
  obtain ⟨t', hput, hsettled⟩ := h.1.toShowsEnd.putGlyph h.2 c
  exact ⟨t', hput, hsettled, h.2.put c⟩

theorem InStep.putchar (h : InStep t p) (c : UInt8) :
    ∃ t', t.putchar c = some t' ∧ InStep t' (paperPutchar p c) := by
  rw [Terminal.putchar, paperPutchar]
  split_ifs with hnewline hreturn htab
  · obtain ⟨t', hscroll, hsettled⟩ := (h.1.toShowsEnd.newline h.2).scroll
    exact ⟨t', hscroll, hsettled, h.2.newline⟩
  · exact ⟨_, rfl, h.1.toShowsEnd.carriageReturn.updateCursor, h.2.carriageReturn⟩
  · -- each of the four blanks keeps the two in step
    exact forLoop_invariant
      (fun i t => InStep t ((fun p => p.put vgaWidth 32)^[i] p)) (Nat.zero_le 4)
      (fun i s _ _ hs => by
        rw [Function.iterate_succ_apply']
        exact hs.putGlyph 32) h
  · exact h.putGlyph c

theorem clear_inStep (h : t.memory.length = vgaHeight * vgaWidth) :
    ∃ t', t.clear = some t' ∧ InStep t' (.blank 32) := by
  obtain ⟨memory, hclear, hfilled⟩ := Terminal.clearRows_eq h (vgaEntry 32 t.color)
  have hshows : ShowsEnd { t with memory := memory, row := 0, column := 0 } (.blank 32) := by
    refine ⟨vgaHeight_pos, vgaWidth_pos, rfl, rfl, hfilled.length.trans h, fun y hy x hx => ?_⟩
    show (memory[y * vgaWidth + x]?).map entryChar = some 32
    rw [hfilled.cell, if_pos]
    · simp
    · simp only [vgaWidth, vgaHeight] at *
      omega
  refine ⟨_, ?_, hshows.updateCursor, Paper.tidy_blank (by decide)⟩
  rw [Terminal.clear, hclear, Option.map_some]

theorem InStep.step (h : InStep t p) (op : TerminalOp) :
    ∃ t', terminalStep t op = some t' ∧ InStep t' (paperStep p op) := by
  cases op with
  | putchar c => exact h.putchar c
  | clear => exact clear_inStep h.1.length
  | setColor fg bg =>
    have hshows := h.1
    exact ⟨_, rfl, ⟨⟨hshows.row_lt, hshows.column_lt, hshows.row, hshows.column, hshows.length,
      hshows.cell⟩, hshows.position⟩, h.2⟩

theorem InStep.run (h : InStep t p) (ops : List TerminalOp) :
    ∃ t', runPartial terminalStep t ops = some t' ∧
      InStep t' (SnsxOS.Framework.run paperStep p ops) := by
  induction ops generalizing t p with
  | nil => exact ⟨t, rfl, h⟩
  | cons op ops ih =>
    obtain ⟨next, hstep, hnext⟩ := h.step op
    obtain ⟨t', hrun, hend⟩ := ih hnext
    refine ⟨t', ?_, hend⟩
    rw [runPartial_cons, hstep, Option.bind_some, hrun]

end Run

/-- After any calls the screen shows the end of what they have put out since the last clearing,
with the cursor at its end; no call writes outside the cells. -/
theorem terminal_showsEnd (t : Terminal) (h : t.memory.length = vgaHeight * vgaWidth)
    (ops : List TerminalOp) :
    ∃ start t', t.init = some start ∧ runPartial terminalStep start ops = some t' ∧
      Settled t' (rendering ops) := by
  obtain ⟨start, hinit, hstart⟩ := clear_inStep
    (t := { t with row := 0, column := 0, color := vgaEntryColor 7 0 }) h
  obtain ⟨t', hrun, hend⟩ := hstart.run ops
  exact ⟨start, t', hinit, hrun, hend.1⟩

theorem terminal_showsEnd_power_on :
    ∃ start t', (Terminal.mk (List.replicate 2000 0) 0 0 0 0).init = some start ∧
      runPartial terminalStep start [.putchar 79, .putchar 10, .putchar 75] = some t' ∧
      Settled t' (rendering [.putchar 79, .putchar 10, .putchar 75]) :=
  terminal_showsEnd _ List.length_replicate _

end SnsxOS.X86
