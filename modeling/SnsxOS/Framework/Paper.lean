import Mathlib.Logic.Basic
import Mathlib.Tactic

/-!
# Text on endless paper

A text is written on paper of a fixed width without an end. A character goes to the cursor, and the
cursor moves behind it, to the start of the next row at the right margin. A character that goes
where one is already takes its place. Rows below the cursor are blank.
-/

namespace SnsxOS.Framework

/-- The characters of the cells by row and column, and the cursor. -/
structure Paper (α : Type*) where
  cell : Nat → Nat → α
  row : Nat
  col : Nat

namespace Paper

variable {α : Type*} {width : Nat} {mark : α}

def blank (mark : α) : Paper α := ⟨fun _ _ => mark, 0, 0⟩

def newline (p : Paper α) : Paper α := ⟨p.cell, p.row + 1, 0⟩

def carriageReturn (p : Paper α) : Paper α := ⟨p.cell, p.row, 0⟩

/-- The cell at the cursor with a new character. -/
def write (p : Paper α) (a : α) : Paper α :=
  ⟨fun row col => if row = p.row ∧ col = p.col then a else p.cell row col, p.row, p.col⟩

def advance (width : Nat) (p : Paper α) : Paper α :=
  if width ≤ p.col + 1 then p.newline else ⟨p.cell, p.row, p.col + 1⟩

def put (width : Nat) (p : Paper α) (a : α) : Paper α := (p.write a).advance width

/-- The cursor is within the margins and the rows below it are blank. -/
structure Tidy (width : Nat) (mark : α) (p : Paper α) : Prop where
  col_lt : p.col < width
  below : ∀ row, p.row < row → ∀ col, p.cell row col = mark

theorem tidy_blank (h : 0 < width) : Tidy width mark (blank mark) := ⟨h, fun _ _ _ => rfl⟩

variable {p : Paper α}

theorem Tidy.newline (h : Tidy width mark p) : Tidy width mark p.newline :=
  ⟨Nat.zero_lt_of_lt h.col_lt, fun row hrow => h.below row (Nat.lt_of_succ_lt hrow)⟩

theorem Tidy.carriageReturn (h : Tidy width mark p) : Tidy width mark p.carriageReturn :=
  ⟨Nat.zero_lt_of_lt h.col_lt, h.below⟩

theorem Tidy.write (h : Tidy width mark p) (a : α) : Tidy width mark (p.write a) := by
  refine ⟨h.col_lt, fun row hrow col => ?_⟩
  have hne : ¬ (row = p.row ∧ col = p.col) := fun heq => absurd heq.1 (Nat.ne_of_gt hrow)
  exact (if_neg hne).trans (h.below row hrow col)

theorem Tidy.advance (h : Tidy width mark p) : Tidy width mark (p.advance width) := by
  rw [Paper.advance]
  split
  · exact h.newline
  · rename_i hroom
    exact ⟨Nat.lt_of_not_le hroom, h.below⟩

theorem Tidy.put (h : Tidy width mark p) (a : α) : Tidy width mark (p.put width a) :=
  (h.write a).advance

/-! ## Taking characters back -/

/-- The cursor one cell back, to the right margin of the row above from the left one. -/
def back (width : Nat) (p : Paper α) : Paper α :=
  if p.col = 0 then ⟨p.cell, p.row - 1, width - 1⟩ else ⟨p.cell, p.row, p.col - 1⟩

def erase (width : Nat) (mark : α) (p : Paper α) : Paper α := (p.back width).write mark

def putAll (width : Nat) (p : Paper α) (text : List α) : Paper α := text.foldl (put width) p

/-- The number of cells before the cursor. -/
def position (width : Nat) (p : Paper α) : Nat := p.row * width + p.col

/-- The paper below its first rows. -/
def dropRows (p : Paper α) (rows : Nat) : Paper α :=
  ⟨fun row col => p.cell (rows + row) col, p.row - rows, p.col⟩

/-- The cells from the cursor on are blank. -/
structure Open (width : Nat) (mark : α) (p : Paper α) : Prop where
  col_lt : p.col < width
  rest : ∀ row col, p.row < row ∨ row = p.row ∧ p.col ≤ col → p.cell row col = mark

theorem open_blank (h : 0 < width) : Open width mark (blank mark) := ⟨h, fun _ _ _ => rfl⟩

theorem Open.tidy (h : Open width mark p) : Tidy width mark p :=
  ⟨h.col_lt, fun row hrow col => h.rest row col (.inl hrow)⟩

theorem Open.newline (h : Open width mark p) : Open width mark p.newline := by
  refine ⟨Nat.zero_lt_of_lt h.col_lt, fun row col hrest => h.rest row col (.inl ?_)⟩
  simp only [Paper.newline] at hrest
  omega

theorem put_cell (p : Paper α) (a : α) :
    (p.put width a).cell = fun row col =>
      if row = p.row ∧ col = p.col then a else p.cell row col := by
  rw [put, advance]
  split <;> rfl

theorem position_put (h : p.col < width) (a : α) :
    (p.put width a).position width = p.position width + 1 := by
  rw [put, advance]
  split
  · rename_i hmargin
    have hlast : p.col + 1 = width := Nat.le_antisymm h hmargin
    show (p.row + 1) * width + 0 = p.row * width + p.col + 1
    rw [Nat.succ_mul]
    omega
  · rfl

theorem Open.put (h : Open width mark p) (a : α) : Open width mark (p.put width a) := by
  refine ⟨(h.tidy.put a).col_lt, fun row col hrest => ?_⟩
  have hbehind : p.row < row ∨ row = p.row ∧ p.col < col := by
    rw [Paper.put, advance] at hrest
    have hcol := h.col_lt
    split at hrest
    · simp only [Paper.newline, write] at hrest
      omega
    · simp only [write] at hrest
      omega
  rw [put_cell]
  have hother : ¬ (row = p.row ∧ col = p.col) := by omega
  exact (if_neg hother).trans (h.rest row col (by omega))

/-- A character that is taken back leaves the paper as it was. -/
theorem Open.erase_put (h : Open width mark p) (a : α) :
    (p.put width a).erase width mark = p := by
  obtain ⟨cell, row, col⟩ := p
  have hcol : col < width := h.col_lt
  have hback : ((⟨cell, row, col⟩ : Paper α).put width a).back width =
      ⟨((⟨cell, row, col⟩ : Paper α).put width a).cell, row, col⟩ := by
    rw [Paper.put, advance]
    split
    · rename_i hmargin
      have hlast : width ≤ col + 1 := hmargin
      have hwidth : width - 1 = col := by omega
      simp only [Paper.newline, write, back, if_true, Nat.add_sub_cancel, hwidth]
    · simp only [write, back, Nat.add_one_ne_zero, if_false, Nat.add_sub_cancel]
  have hmark : cell row col = mark := h.rest row col (.inr ⟨rfl, le_rfl⟩)
  rw [erase, hback, put_cell, write]
  congr 1
  funext r c
  by_cases hhere : r = row ∧ c = col
  · simp only [hhere, and_self, if_true, hmark]
  · simp only [hhere, if_false]

theorem Open.putAll (h : Open width mark p) (text : List α) :
    Open width mark (p.putAll width text) := by
  induction text generalizing p with
  | nil => exact h
  | cons a text ih => exact ih (h.put a)

theorem putAll_append_singleton (p : Paper α) (text : List α) (a : α) :
    p.putAll width (text ++ [a]) = (p.putAll width text).put width a :=
  List.foldl_concat _ _ _ _

theorem Open.position_putAll (h : Open width mark p) (text : List α) :
    (p.putAll width text).position width = p.position width + text.length := by
  induction text generalizing p with
  | nil => rfl
  | cons a text ih =>
    have hput := position_put h.col_lt a
    have hrest := ih (h.put a)
    rw [List.length_cons]
    show ((p.put width a).putAll width text).position width = _
    omega

theorem Open.erase_putAll (h : Open width mark p) (text : List α) (a : α) :
    (p.putAll width (text ++ [a])).erase width mark = p.putAll width text := by
  rw [putAll_append_singleton]
  exact (h.putAll text).erase_put a

theorem dropRows_newline {rows : Nat} (h : rows ≤ p.row) :
    p.newline.dropRows rows = (p.dropRows rows).newline := by
  simp only [dropRows, Paper.newline, Nat.sub_add_comm h]

theorem dropRows_write {rows : Nat} (h : rows ≤ p.row) (a : α) :
    (p.write a).dropRows rows = (p.dropRows rows).write a := by
  simp only [dropRows, write]
  congr 1
  funext row col
  exact if_congr (by omega) rfl rfl

/-- Writing does not see the rows above the cursor. -/
theorem dropRows_put {rows : Nat} (h : rows ≤ p.row) (a : α) :
    (p.put width a).dropRows rows = (p.dropRows rows).put width a := by
  rw [put, put, ← dropRows_write h, advance, advance]
  split
  · rename_i hmargin
    exact (dropRows_newline (p := p.write a) h).trans (if_pos hmargin).symm
  · rename_i hroom
    exact Eq.symm (if_neg hroom)

theorem Open.dropRows {rows : Nat} (h : Open width mark p) (hrows : rows ≤ p.row) :
    Open width mark (p.dropRows rows) := by
  refine ⟨h.col_lt, fun row col hrest => h.rest (rows + row) col ?_⟩
  simp only [Paper.dropRows] at hrest
  omega

end Paper

end SnsxOS.Framework
