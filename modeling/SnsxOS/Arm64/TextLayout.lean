import SnsxOS.Arm64.FileSystem

/-!
# The layout of text on the screen

Three loops lay out a text with a break after every `cols` characters of a line: the one that draws
it, the one that looks for the line of the cursor and the one that looks for the character under
the pointer. Lines and columns are numbers of C without their bounds. The colour of what is drawn
is left out.
-/

namespace SnsxOS.Arm64

open Framework

def carriageReturn : UInt8 := 13

/-- The numbers that `gfx_draw_text_block` is called with. -/
structure TextBlock where
  x : Int
  y : Int
  width : Int
  height : Int
  scale : Int
  startLine : Int
  cursorIndex : Int

def TextBlock.cols (block : TextBlock) : Int := block.width.tdiv (6 * block.scale)

def TextBlock.rows (block : TextBlock) : Int := block.height.tdiv (8 * block.scale)

/-- `line >= start_line && line < start_line + rows` -/
def TextBlock.Shows (block : TextBlock) (line : Int) : Prop :=
  block.startLine ≤ line ∧ line < block.startLine + block.rows

instance (block : TextBlock) : DecidablePred block.Shows := fun _ =>
  inferInstanceAs (Decidable (_ ∧ _))

/-- What is drawn, with the line and the column that its place on the screen comes from. -/
inductive TextDraw where
  /-- `gfx_fill_rect` at the cursor -/
  | cursor (line col : Int)
  /-- `gfx_draw_char` for the character of an index -/
  | char (index : Nat) (line col : Int) (ch : UInt8)
  deriving DecidableEq

/-- Where a thing is drawn, counted from the left. -/
def TextBlock.drawX (block : TextBlock) (col : Int) : Int := block.x + col * 6 * block.scale

/-- Where a thing is drawn, counted from the top. -/
def TextBlock.drawY (block : TextBlock) (line : Int) : Int :=
  block.y + (line - block.startLine) * 8 * block.scale

/-- The loop of `gfx_draw_text_block` from an index on. -/
def drawTextLoop (block : TextBlock) (line col : Int) (i : Nat) (text : Bytes) : List TextDraw :=
  let cursor :=
    if 0 ≤ block.cursorIndex ∧ (i : Int) = block.cursorIndex ∧ block.Shows line then
      [.cursor line col]
    else []
  match text with
  | [] => cursor
  | ch :: text =>
      if ch = carriageReturn then cursor ++ drawTextLoop block line col (i + 1) text
      else if ch = newline then cursor ++ drawTextLoop block (line + 1) 0 (i + 1) text
      else
        let (line, col) := if block.cols ≤ col then (line + 1, 0) else (line, col)
        let drawn := if block.Shows line then [.char i line col ch] else []
        cursor ++ drawn ++ drawTextLoop block line (col + 1) (i + 1) text

def gfxDrawTextBlock (block : TextBlock) (text : Bytes) : List TextDraw :=
  if block.cols ≤ 0 ∨ block.rows ≤ 0 then [] else drawTextLoop block 0 0 0 text

/-- The loop of `text_cursor_line` over the characters before the cursor. -/
def cursorLineLoop (cols line col : Int) : Bytes → Int
  | [] => line
  | ch :: text =>
      if ch = carriageReturn then cursorLineLoop cols line col text
      else if ch = newline then cursorLineLoop cols (line + 1) 0 text
      else if cols ≤ col then cursorLineLoop cols (line + 1) (0 + 1) text
      else cursorLineLoop cols line (col + 1) text

def textCursorLine (text : Bytes) (cursor : Nat) (cols : Int) : Int :=
  cursorLineLoop cols 0 0 (text.take cursor)

/-- The loop of `text_index_from_position` from an index on. -/
def indexLoop (cols targetLine targetCol line col : Int) (i : Nat) : Bytes → Nat
  | [] => i
  | ch :: text =>
      if line = targetLine ∧ targetCol ≤ col then i
      else if ch = carriageReturn then indexLoop cols targetLine targetCol line col (i + 1) text
      else if ch = newline then
        if line = targetLine then i
        else indexLoop cols targetLine targetCol (line + 1) 0 (i + 1) text
      else if cols ≤ col then
        if line = targetLine then i
        else indexLoop cols targetLine targetCol (line + 1) (0 + 1) (i + 1) text
      else indexLoop cols targetLine targetCol line (col + 1) (i + 1) text

def textIndexFromPosition (text : Bytes) (cols targetLine targetCol : Int) : Nat :=
  if targetLine < 0 then 0
  else indexLoop cols targetLine (if targetCol < 0 then 0 else targetCol) 0 0 0 text

section Places

/-! ## The place of a character -/

/-- A line and a column, both counted from zero. -/
structure TextPlace where
  line : Int
  col : Int
  deriving DecidableEq

namespace TextPlace

/-- Where a character goes that comes next. -/
def wrap (place : TextPlace) (cols : Int) : TextPlace :=
  if cols ≤ place.col then ⟨place.line + 1, 0⟩ else place

def right (place : TextPlace) : TextPlace := ⟨place.line, place.col + 1⟩

/-- The place behind a character, for text without carriage returns. -/
def behind (place : TextPlace) (cols : Int) (ch : UInt8) : TextPlace :=
  if ch = newline then ⟨place.line + 1, 0⟩ else (place.wrap cols).right

end TextPlace

/-- The place of the character of an index; a newline has none. -/
def charPlace (cols : Int) (place : TextPlace) : Bytes → Nat → Option TextPlace
  | [], _ => none
  | ch :: _, 0 => if ch = newline then none else some (place.wrap cols)
  | ch :: text, i + 1 => charPlace cols (place.behind cols ch) text i

variable {cols : Int} {place there : TextPlace} {text : Bytes} {ch : UInt8}

theorem TextPlace.wrap_of_le (h : cols ≤ place.col) : place.wrap cols = ⟨place.line + 1, 0⟩ :=
  if_pos h

theorem TextPlace.wrap_of_lt (h : place.col < cols) : place.wrap cols = place :=
  if_neg (by omega)

/-- A character is laid out behind those before it. -/
theorem charPlace_behind {i : Nat} (h : charPlace cols place text i = some there) :
    place.line ≤ there.line ∧ (place.line = there.line → place.col ≤ there.col) := by
  induction text generalizing place i with
  | nil => cases h
  | cons ch text ih =>
    cases i with
    | zero =>
      rw [charPlace] at h
      split at h
      · cases h
      · obtain rfl := Option.some.inj h
        rw [TextPlace.wrap]
        split
        · simp
        · simp
    | succ i =>
      have hrest := ih h
      rw [TextPlace.behind] at hrest
      split at hrest
      · dsimp only at hrest
        omega
      · rw [TextPlace.wrap, TextPlace.right] at hrest
        split at hrest
        · dsimp only at hrest
          omega
        · dsimp only at hrest
          omega

theorem charPlace_getElem? {i : Nat} (h : charPlace cols place text i = some there) :
    ∃ ch, text[i]? = some ch ∧ ch ≠ newline := by
  induction text generalizing place i with
  | nil => cases h
  | cons ch text ih =>
    cases i with
    | zero =>
      rw [charPlace] at h
      split at h
      · cases h
      · rename_i hch
        exact ⟨ch, rfl, hch⟩
    | succ i => exact ih h

end Places

/-! ## The drawing -/

section Drawing

variable {block : TextBlock} {text : Bytes} {line col : Int} {ch : UInt8}

/-- What the loop draws for characters is what their places show. -/
theorem mem_drawTextLoop {start i : Nat} {place : TextPlace} (htext : carriageReturn ∉ text) :
    .char i line col ch ∈ drawTextLoop block place.line place.col start text ↔
      ∃ k, i = start + k ∧ text[k]? = some ch ∧
        charPlace block.cols place text k = some ⟨line, col⟩ ∧ block.Shows line := by
  have hcursor : ∀ (p : Prop) [Decidable p] (l c : Int),
      .char i line col ch ∉ if p then [TextDraw.cursor l c] else [] := by
    intro p _ l c
    split <;> simp
  induction text generalizing start place with
  | nil =>
    rw [drawTextLoop]
    simp [hcursor]
  | cons c text ih =>
    rw [List.mem_cons, not_or] at htext
    -- what comes behind the first character is counted from the next index
    have hrest : ∀ next : TextPlace, next = place.behind block.cols c →
        (.char i line col ch ∈ drawTextLoop block next.line next.col (start + 1) text ↔
          ∃ k, i = start + (k + 1) ∧ (c :: text)[k + 1]? = some ch ∧
            charPlace block.cols place (c :: text) (k + 1) = some ⟨line, col⟩ ∧
              block.Shows line) := by
      intro next hnext
      refine (@ih (start + 1) next htext.2).trans ?_
      rw [hnext]
      apply exists_congr
      intro k
      rw [List.getElem?_cons_succ, charPlace, Nat.add_right_comm, Nat.add_assoc]
    rw [drawTextLoop, if_neg (Ne.symm htext.1), ← Nat.or_exists_add_one]
    by_cases hc : c = newline
    · have hbehind : (⟨place.line + 1, 0⟩ : TextPlace) = place.behind block.cols c :=
        (if_pos hc).symm
      rw [if_pos hc, ← hrest _ hbehind]
      simp [hcursor, charPlace, hc]
    · have hbehind : (place.wrap block.cols).right = place.behind block.cols c := (if_neg hc).symm
      rw [if_neg hc, ← hrest _ hbehind]
      have hpair : (if block.cols ≤ place.col then (place.line + 1, (0 : Int))
          else (place.line, place.col)) =
            ((place.wrap block.cols).line, (place.wrap block.cols).col) := by
        rw [TextPlace.wrap]
        split <;> rfl
      rw [hpair, charPlace, if_neg hc]
      generalize place.wrap block.cols = drawn
      simp only [List.mem_append, hcursor, false_or, TextPlace.right]
      apply or_congr_left
      split
      · rename_i hshows
        simp only [List.mem_singleton, TextDraw.char.injEq, List.getElem?_cons_zero,
          Option.some.injEq, Nat.add_zero]
        constructor
        · rintro ⟨rfl, rfl, rfl, rfl⟩
          exact ⟨rfl, rfl, rfl, hshows⟩
        · rintro ⟨rfl, rfl, rfl, -⟩
          exact ⟨rfl, rfl, rfl, rfl⟩
      · rename_i hhidden
        simp only [List.not_mem_nil, Option.some.injEq, false_iff]
        rintro ⟨-, -, rfl, hshows⟩
        exact hhidden hshows

/-- A block with these columns draws the character of an index on a line, in a column. -/
def LaysOut (cols : Int) (text : Bytes) (i : Nat) (line col : Int) : Prop :=
  ∃ (block : TextBlock) (ch : UInt8), block.cols = cols ∧
    .char i line col ch ∈ gfxDrawTextBlock block text

/-- Every character is drawn by a block that starts at its line. -/
theorem laysOut_iff {cols : Int} {i : Nat} (htext : carriageReturn ∉ text) :
    LaysOut cols text i line col ↔
      1 ≤ cols ∧ charPlace cols ⟨0, 0⟩ text i = some ⟨line, col⟩ := by
  constructor
  · rintro ⟨block, ch, rfl, hdrawn⟩
    rw [gfxDrawTextBlock] at hdrawn
    split at hdrawn
    · cases hdrawn
    · rename_i hsize
      obtain ⟨k, rfl, -, hplace, -⟩ :=
        (@mem_drawTextLoop block text line col ch 0 i ⟨0, 0⟩ htext).mp hdrawn
      rw [Nat.zero_add]
      exact ⟨by omega, hplace⟩
  · rintro ⟨hcols, hplace⟩
    have hwidth : (6 * cols).tdiv (6 * 1) = cols := by
      rw [Int.mul_one, Int.mul_tdiv_cancel_left cols (by decide)]
    have hheight : (8 : Int).tdiv (8 * 1) = 1 := by decide
    obtain ⟨ch, hch, -⟩ := charPlace_getElem? hplace
    refine ⟨⟨0, 0, 6 * cols, 8, 1, line, -1⟩, ch, hwidth, ?_⟩
    rw [gfxDrawTextBlock, if_neg]
    · refine (@mem_drawTextLoop _ text line col _ 0 i ⟨0, 0⟩ htext).mpr
        ⟨i, (Nat.zero_add i).symm, hch, ?_, le_rfl, ?_⟩
      · rw [TextBlock.cols, hwidth]
        exact hplace
      · rw [TextBlock.rows, hheight]
        exact Int.lt_add_one_of_le le_rfl
    · rw [TextBlock.cols, TextBlock.rows, hwidth, hheight]
      omega

end Drawing

/-! ## The loops that look for a place -/

section Search

variable {cols : Int} {place there : TextPlace} {text : Bytes} {i : Nat}

/-- The place behind a text. -/
def placeAfter (cols : Int) (place : TextPlace) (text : Bytes) : TextPlace :=
  text.foldl (fun place ch => place.behind cols ch) place

theorem charPlace_eq_wrap (h : charPlace cols place text i = some there) :
    there = (placeAfter cols place (text.take i)).wrap cols := by
  induction text generalizing place i with
  | nil => cases h
  | cons ch text ih =>
    cases i with
    | zero =>
      rw [charPlace] at h
      split at h
      · cases h
      · exact (Option.some.inj h).symm
    | succ i => exact ih h

theorem TextPlace.wrap_col_nonneg (h : 0 ≤ place.col) : 0 ≤ (place.wrap cols).col := by
  rw [TextPlace.wrap]
  split
  · exact le_rfl
  · exact h

theorem TextPlace.behind_col_nonneg (h : 0 ≤ place.col) (ch : UInt8) :
    0 ≤ (place.behind cols ch).col := by
  rw [TextPlace.behind]
  split
  · exact le_rfl
  · have hcol : 0 ≤ (place.wrap cols).col := TextPlace.wrap_col_nonneg h
    rw [TextPlace.right]
    dsimp only
    omega

theorem placeAfter_col_nonneg (h : 0 ≤ place.col) : 0 ≤ (placeAfter cols place text).col := by
  induction text generalizing place with
  | nil => exact h
  | cons ch text ih => exact ih (TextPlace.behind_col_nonneg h ch)

theorem cursorLineLoop_charPlace (htext : carriageReturn ∉ text)
    (h : charPlace cols place text i = some there) :
    cursorLineLoop cols place.line place.col (text.take (i + 1)) = there.line := by
  induction text generalizing place i with
  | nil => cases h
  | cons ch text ih =>
    rw [List.mem_cons, not_or] at htext
    have hnext : cursorLineLoop cols place.line place.col ((ch :: text).take (i + 1)) =
        cursorLineLoop cols (place.behind cols ch).line (place.behind cols ch).col
          (text.take i) := by
      rw [List.take_succ_cons, cursorLineLoop, if_neg (Ne.symm htext.1), TextPlace.behind,
        TextPlace.wrap, TextPlace.right]
      split
      · rfl
      · split <;> rfl
    rw [hnext]
    cases i with
    | zero =>
      rw [charPlace] at h
      split at h
      · cases h
      · rename_i hch
        obtain rfl := Option.some.inj h
        rw [List.take_zero, cursorLineLoop, TextPlace.behind, if_neg hch, TextPlace.right]
    | succ i => exact ih htext.2 h

/-- A search that has come past its column ends at once. -/
theorem indexLoop_of_le {targetCol col : Int} (h : targetCol ≤ col) (line : Int) (start : Nat)
    (text : Bytes) : indexLoop cols line targetCol line col start text = start := by
  cases text with
  | nil => rfl
  | cons ch text => rw [indexLoop, if_pos ⟨rfl, h⟩]

/-- The search ends at the character when it does not start a line by a break, else behind it. -/
theorem indexLoop_charPlace (htext : carriageReturn ∉ text)
    (h : charPlace cols place text i = some there) (start : Nat) :
    indexLoop cols there.line there.col place.line place.col start text =
      if cols ≤ (placeAfter cols place (text.take i)).col then start + i + 1 else start + i := by
  induction text generalizing place i start with
  | nil => cases h
  | cons ch text ih =>
    rw [List.mem_cons, not_or] at htext
    cases i with
    | zero =>
      rw [charPlace] at h
      split at h
      · cases h
      · rename_i hch
        obtain rfl := Option.some.inj h
        rw [List.take_zero, placeAfter, List.foldl_nil]
        by_cases hwrap : cols ≤ place.col
        · rw [if_pos hwrap, TextPlace.wrap_of_le hwrap]
          dsimp only
          rw [indexLoop, if_neg (by omega), if_neg (Ne.symm htext.1), if_neg hch, if_pos hwrap,
            if_neg (by omega), indexLoop_of_le (by decide), Nat.add_zero]
        · rw [if_neg hwrap, TextPlace.wrap_of_lt (by omega), indexLoop_of_le le_rfl, Nat.add_zero]
    | succ i =>
      -- the first character is before the one that is looked for, so the search goes on behind it
      have hlater : charPlace cols (place.behind cols ch) text i = some there := h
      have hbehind := charPlace_behind hlater
      have hnext : indexLoop cols there.line there.col place.line place.col start (ch :: text) =
          indexLoop cols there.line there.col (place.behind cols ch).line
            (place.behind cols ch).col (start + 1) text := by
        rw [indexLoop]
        by_cases hch : ch = newline
        · rw [TextPlace.behind, if_pos hch] at hbehind ⊢
          dsimp only at hbehind ⊢
          rw [if_neg (by omega), if_neg (Ne.symm htext.1), if_pos hch, if_neg (by omega)]
        · rw [TextPlace.behind, if_neg hch, TextPlace.right] at hbehind ⊢
          by_cases hwrap : cols ≤ place.col
          · rw [TextPlace.wrap_of_le hwrap] at hbehind ⊢
            dsimp only at hbehind ⊢
            rw [if_neg (by omega), if_neg (Ne.symm htext.1), if_neg hch, if_pos hwrap,
              if_neg (by omega)]
          · rw [TextPlace.wrap_of_lt (by omega)] at hbehind ⊢
            dsimp only at hbehind ⊢
            rw [if_neg (by omega), if_neg (Ne.symm htext.1), if_neg hch, if_neg hwrap]
      have hplace : placeAfter cols (place.behind cols ch) (text.take i) =
          placeAfter cols place ((ch :: text).take (i + 1)) := rfl
      rw [hnext, ih htext.2 hlater, hplace, Nat.add_right_comm start 1 i, Nat.add_assoc start i 1]

theorem indexLoop_le (targetLine targetCol line col : Int) (start : Nat) (text : Bytes) :
    indexLoop cols targetLine targetCol line col start text ≤ start + text.length := by
  induction text generalizing line col start with
  | nil => exact le_rfl
  | cons ch text ih =>
    have hnext : ∀ line col, indexLoop cols targetLine targetCol line col (start + 1) text ≤
        start + (text.length + 1) := by
      intro line col
      have hle := ih line col (start + 1)
      omega
    rw [indexLoop, List.length_cons]
    split_ifs
    · omega
    · exact hnext line col
    · omega
    · exact hnext (line + 1) 0
    · omega
    · exact hnext (line + 1) (0 + 1)
    · exact hnext line (col + 1)

theorem textIndexFromPosition_le (text : Bytes) (cols line col : Int) :
    textIndexFromPosition text cols line col ≤ text.length := by
  rw [textIndexFromPosition]
  split
  · exact Nat.zero_le _
  · exact (indexLoop_le line _ 0 0 0 text).trans_eq (Nat.zero_add _)

/-- A break comes before a character that starts a line behind another character. -/
theorem placeAfter_take (hcols : 1 ≤ cols) {line col : Int}
    (h : charPlace cols ⟨0, 0⟩ text i = some ⟨line, col⟩) :
    cols ≤ (placeAfter cols ⟨0, 0⟩ (text.take i)).col ↔
      col = 0 ∧ ∃ j ch, i = j + 1 ∧ text[j]? = some ch ∧ ch ≠ newline := by
  have hplace := charPlace_eq_wrap h
  cases i with
  | zero =>
    rw [List.take_zero, placeAfter, List.foldl_nil]
    dsimp only
    constructor
    · intro hle
      omega
    · rintro ⟨-, j, ch, hj, -⟩
      omega
  | succ j =>
    obtain ⟨ch, hch⟩ : ∃ ch, text[j]? = some ch := by
      obtain ⟨next, hnext, -⟩ := charPlace_getElem? h
      have hlength := (List.getElem?_eq_some_iff.mp hnext).1
      exact ⟨text[j], List.getElem?_eq_getElem (by omega)⟩
    have hafter : placeAfter cols ⟨0, 0⟩ (text.take (j + 1)) =
        (placeAfter cols ⟨0, 0⟩ (text.take j)).behind cols ch := by
      rw [List.take_add_one, hch, placeAfter, List.foldl_append]
      rfl
    have hcol : 0 ≤ (placeAfter cols ⟨0, 0⟩ (text.take j)).col := placeAfter_col_nonneg le_rfl
    rw [hafter] at hplace ⊢
    generalize placeAfter cols ⟨0, 0⟩ (text.take j) = before at hplace hcol ⊢
    by_cases hnewline : ch = newline
    · rw [TextPlace.behind, if_pos hnewline]
      dsimp only
      constructor
      · intro hle
        omega
      · rintro ⟨-, k, next, hk, hnext, hne⟩
        obtain rfl : j = k := by omega
        rw [hch] at hnext
        exact absurd ((Option.some.inj hnext).symm.trans hnewline) hne
    · have hpos : 1 ≤ (before.behind cols ch).col := by
        have hwrap : 0 ≤ (before.wrap cols).col := TextPlace.wrap_col_nonneg hcol
        rw [TextPlace.behind, if_neg hnewline, TextPlace.right]
        dsimp only
        omega
      have hcolumn : col = ((before.behind cols ch).wrap cols).col := congrArg TextPlace.col hplace
      constructor
      · intro hle
        rw [TextPlace.wrap_of_le hle] at hcolumn
        exact ⟨hcolumn, j, ch, rfl, hch, hnewline⟩
      · rintro ⟨hzero, -⟩
        by_contra hlt
        rw [TextPlace.wrap_of_lt (by omega)] at hcolumn
        omega

end Search

/-- A click on a character and the line behind it: the line is always that of the character, and
the click finds the character exactly when no break of a line comes before it. -/
theorem textIndexFromPosition_iff {text : Bytes} {cols : Int} {i : Nat} {line col : Int}
    (htext : carriageReturn ∉ text) (h : LaysOut cols text i line col) :
    (textIndexFromPosition text cols line col = i ∧ textCursorLine text (i + 1) cols = line) ↔
      ¬ (col = 0 ∧ ∃ j ch, i = j + 1 ∧ text[j]? = some ch ∧ ch ≠ newline) := by
  obtain ⟨hcols, hplace⟩ := (laysOut_iff htext).mp h
  obtain ⟨hline, -⟩ := charPlace_behind hplace
  have hcol : 0 ≤ col := by
    have hnonneg : 0 ≤ ((placeAfter cols ⟨0, 0⟩ (text.take i)).wrap cols).col :=
      TextPlace.wrap_col_nonneg (placeAfter_col_nonneg le_rfl)
    rw [← charPlace_eq_wrap hplace] at hnonneg
    exact hnonneg
  have hcursor : textCursorLine text (i + 1) cols = line := cursorLineLoop_charPlace htext hplace
  have hindex : textIndexFromPosition text cols line col =
      if cols ≤ (placeAfter cols ⟨0, 0⟩ (text.take i)).col then i + 1 else i := by
    have hloop := indexLoop_charPlace htext hplace 0
    rw [Nat.zero_add] at hloop
    rw [textIndexFromPosition, if_neg (by dsimp only at hline; omega), if_neg (by omega), hloop]
  rw [hindex, ← placeAfter_take hcols hplace]
  simp [hcursor]

/-- The second letter of a line that is two columns wide. -/
theorem textIndexFromPosition_iff_second :
    textIndexFromPosition (ascii "ab") 2 0 1 = 1 ∧ textCursorLine (ascii "ab") 2 2 = 0 := by
  have hreturn : carriageReturn ∉ ascii "ab" := by decide
  have hplace : charPlace 2 ⟨0, 0⟩ (ascii "ab") 1 = some ⟨0, 1⟩ := by decide
  refine (textIndexFromPosition_iff hreturn ((laysOut_iff hreturn).mpr ⟨by decide, hplace⟩)).mpr ?_
  intro hbreak
  exact absurd hbreak.1 (by decide)

/-- In a block of one column the second letter is on the second line, and a click on it puts the
cursor behind it. -/
theorem not_textIndexFromPosition : ¬ ∀ (text : Bytes) (cols : Int) (i : Nat) (line col : Int),
    carriageReturn ∉ text → LaysOut cols text i line col →
      textIndexFromPosition text cols line col = i ∧ textCursorLine text (i + 1) cols = line := by
  intro h
  have hreturn : carriageReturn ∉ ascii "ab" := by decide
  have hplace : charPlace 1 ⟨0, 0⟩ (ascii "ab") 1 = some ⟨1, 0⟩ := by decide
  have hclick := h (ascii "ab") 1 1 1 0 hreturn ((laysOut_iff hreturn).mpr ⟨by decide, hplace⟩)
  exact absurd hclick.1 (by decide)

/-- The line that the view starts at when the cursor is to be seen. -/
def uiAdjustScroll (text : Bytes) (cursor : Nat) (cols rows scrollLine : Int) : Int :=
  let line := textCursorLine text cursor cols
  let scrollLine :=
    if line < scrollLine then line
    else if scrollLine + rows ≤ line then line - rows + 1
    else scrollLine
  if scrollLine < 0 then 0 else scrollLine

end SnsxOS.Arm64
