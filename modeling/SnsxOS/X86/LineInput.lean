import SnsxOS.Framework.LineEdit
import SnsxOS.Lib.Text
import SnsxOS.X86.Keyboard
import SnsxOS.X86.Vga

/-!
# A line typed at the prompt

`shell_readline` takes characters out of the keyboard queue while interrupts put others in, keeps
the line in a buffer and shows it on the screen. A line may cross the right margin and scroll the
screen; taking characters back moves up again, and what has left the screen stays off it.
-/

namespace SnsxOS.X86

open SnsxOS.Framework

/-! ## The screen under a cursor that moves back -/

/-- The screen shows the paper from a row on. -/
structure ShownFrom (top : Nat) (t : Terminal) (p : Paper UInt8) : Prop where
  top_le : top ≤ p.row
  row_lt : p.row < top + vgaHeight
  settled : Settled t (p.dropRows top)

/-- The rows of the paper that have left the screen are above the first one shown. -/
theorem ShownFrom.of_settled {top : Nat} {t : Terminal} {p : Paper UInt8} (htop : top ≤ p.row)
    (h : Settled t (p.dropRows top)) :
    ∃ top', ShownFrom top' t p ∧ (top' = top ∨ top' + (vgaHeight - 1) = p.row) := by
  have hrow : rowsGone (p.dropRows top) + t.row = p.row - top := h.row
  have hin := h.row_lt
  have hgone : rowsGone (p.dropRows top) = p.row - top - (vgaHeight - 1) := rfl
  generalize rowsGone (p.dropRows top) = gone at hrow hgone
  have hnone : rowsGone (p.dropRows (top + gone)) = 0 := by
    simp only [rowsGone, Paper.dropRows, vgaHeight] at *
    omega
  refine ⟨top + gone, ⟨?_, ?_, ⟨hin, h.column_lt, ?_, h.column, h.length, ?_⟩, h.position⟩, ?_⟩
  · omega
  · omega
  · rw [hnone]
    show 0 + t.row = p.row - (top + gone)
    omega
  · intro y hy x hx
    have hcell := h.cell y hy x hx
    rw [hnone]
    have hgone' : rowsGone (p.dropRows top) = gone := hgone.symm
    rw [hgone'] at hcell
    rw [hcell]
    show some (p.cell (top + (gone + y)) x) = some (p.cell (top + gone + (0 + y)) x)
    rw [Nat.zero_add, Nat.add_assoc]
  · simp only [vgaHeight] at *
    omega

section Screen

variable {top : Nat} {t : Terminal} {p : Paper UInt8}

theorem ShownFrom.inStep (h : ShownFrom top t p) (hp : p.Open vgaWidth 32) :
    InStep t (p.dropRows top) := ⟨h.settled, (hp.dropRows h.top_le).tidy⟩

theorem ShownFrom.row (h : ShownFrom top t p) : top + t.row = p.row := by
  have hrow := h.settled.row
  have hle := h.top_le
  have hlt := h.row_lt
  simp only [rowsGone, Paper.dropRows, vgaHeight] at *
  omega

theorem row_le_put (c : UInt8) : p.row ≤ (p.put vgaWidth c).row := by
  rw [Paper.put, Paper.advance]
  split
  · exact Nat.le_succ _
  · exact le_rfl

theorem ShownFrom.putGlyph (h : ShownFrom top t p) (hp : p.Open vgaWidth 32) (c : UInt8) :
    ∃ t', t.putGlyph c = some t' ∧ ∃ top', ShownFrom top' t' (p.put vgaWidth c) ∧
      (top' = top ∨ top' + (vgaHeight - 1) = (p.put vgaWidth c).row) := by
  obtain ⟨t', hput, hinstep⟩ := (h.inStep hp).putGlyph c
  rw [← Paper.dropRows_put h.top_le] at hinstep
  exact ⟨t', hput, ShownFrom.of_settled (h.top_le.trans (row_le_put c)) hinstep.1⟩

theorem ShownFrom.newline (h : ShownFrom top t p) (hp : p.Open vgaWidth 32) :
    ∃ t', t.putchar 10 = some t' ∧ ∃ top', ShownFrom top' t' p.newline := by
  obtain ⟨t', hput, hinstep⟩ := (h.inStep hp).putchar 10
  rw [paperPutchar, if_pos rfl, ← Paper.dropRows_newline h.top_le] at hinstep
  obtain ⟨top', hshown, -⟩ :=
    ShownFrom.of_settled (p := p.newline) (Nat.le_succ_of_le h.top_le) hinstep.1
  exact ⟨t', hput, top', hshown⟩

/-- The cursor steps back onto a cell of the screen. -/
theorem ShownFrom.backspace (h : ShownFrom top t p)
    (hcursor : top * vgaWidth < p.position vgaWidth) :
    ∃ t', t.backspace = some t' ∧ ShownFrom top t' (p.erase vgaWidth 32) := by
  have hrow := h.row
  have hrowLt := h.settled.row_lt
  have hcolumn : t.column = p.col := h.settled.column
  have hcolumnLt := h.settled.column_lt
  have hstart : ¬ (t.column = 0 ∧ t.row = 0) := by
    simp only [Paper.position, vgaWidth] at hcursor
    omega
  have hmoved : ∃ row column, row < vgaHeight ∧ column < vgaWidth ∧ top + row = (p.back vgaWidth).row ∧
      column = (p.back vgaWidth).col ∧
      (if t.column = 0 then { t with row := t.row - 1, column := vgaWidth - 1 }
        else { t with column := t.column - 1 }) = { t with row := row, column := column } := by
    rw [Paper.back]
    by_cases hmargin : t.column = 0
    · rw [if_pos hmargin, if_pos (hcolumn ▸ hmargin)]
      refine ⟨t.row - 1, vgaWidth - 1, by omega, by decide, ?_, rfl, rfl⟩
      show top + (t.row - 1) = p.row - 1
      omega
    · rw [if_neg hmargin, if_neg (hcolumn ▸ hmargin)]
      refine ⟨t.row, t.column - 1, hrowLt, by omega, hrow, ?_, rfl⟩
      show t.column - 1 = p.col - 1
      rw [hcolumn]
  obtain ⟨row, column, hrowIn, hcolumnIn, hbackRow, hbackCol, hmove⟩ := hmoved
  have hcells : (p.back vgaWidth).cell = p.cell := by
    rw [Paper.back]
    split <;> rfl
  have hgone : rowsGone ((p.back vgaWidth).dropRows top) = 0 := by
    simp only [rowsGone, Paper.dropRows, vgaHeight] at *
    omega
  have hgone' : rowsGone (p.dropRows top) = 0 := by
    have hlt := h.row_lt
    simp only [rowsGone, Paper.dropRows, vgaHeight] at *
    omega
  have hshows : ShowsEnd { t with row := row, column := column }
      ((p.back vgaWidth).dropRows top) := by
    refine ⟨hrowIn, hcolumnIn, ?_, hbackCol, h.settled.length, fun y hy x hx => ?_⟩
    · rw [hgone]
      show 0 + row = (p.back vgaWidth).row - top
      omega
    · have hcell := h.settled.cell y hy x hx
      rw [hgone'] at hcell
      rw [hgone, hcell]
      show some (p.cell (top + (0 + y)) x) = some ((p.back vgaWidth).cell (top + (0 + y)) x)
      rw [hcells]
  have htop : top ≤ (p.back vgaWidth).row := by omega
  have hwritten := (hshows.write 32).updateCursor
  rw [← Paper.dropRows_write htop] at hwritten
  refine ⟨_, ?_, htop, ?_, hwritten⟩
  · rw [Terminal.backspace, if_neg hstart]
    dsimp only
    rw [hmove, writeEntry_eq hshows.index_lt, Option.map_some]
  · show (p.back vgaWidth).row < top + vgaHeight
    omega

end Screen

/-! ## The line -/

/-- The variables of `shell_readline`: the first `len` characters of its buffer, and whether the
loop has been left. -/
structure ReadLine where
  terminal : Terminal
  text : Bytes
  done : Bool

/-- The loop body of `shell_readline` behind `keyboard_getchar`. -/
def readlineChar (limit : Nat) (s : ReadLine) (c : UInt8) : Option ReadLine :=
  if c = 13 then some s
  else if c = 10 then
    (s.terminal.putchar 10).map fun terminal => { s with terminal := terminal, done := true }
  else if c = 8 then
    if 0 < s.text.length then
      s.terminal.backspace.map fun terminal =>
        { s with terminal := terminal, text := s.text.take (s.text.length - 1) }
    else some s
  else if !isprint c || limit ≤ s.text.length + 1 then some s
  else
    (s.terminal.putchar c).map fun terminal =>
      { s with terminal := terminal, text := s.text ++ [c] }

/-- What a character does to the line. -/
def lineKey (c : UInt8) : LineKey UInt8 :=
  if c = 8 then .erase else if isprint c then .char c else .other

/-- The line that characters leave in a buffer of `limit` bytes with its end. -/
def typedLine (limit : Nat) (chars : Bytes) : Bytes :=
  editedLine (limit - 1) [] (chars.map lineKey)

/-- The screen shows the line behind what was on the paper; its first cell has not left it. -/
structure ShowsLine (limit first : Nat) (p : Paper UInt8) (text : Bytes) (t : Terminal) : Prop where
  shown : ∃ top, ShownFrom top t (p.putAll vgaWidth text) ∧
    (top = first ∨ (top + (vgaHeight - 1)) * vgaWidth < p.position vgaWidth + limit)

section Line

variable {limit first : Nat} {p : Paper UInt8} {t : Terminal}

theorem ShowsLine.putGlyph (hp : p.Open vgaWidth 32) {text : Bytes} {c : UInt8}
    (hroom : text.length < limit - 1) (h : ShowsLine limit first p text t) :
    ∃ t', t.putGlyph c = some t' ∧ ShowsLine limit first p (text ++ [c]) t' := by
  obtain ⟨top, hshown, hfirst⟩ := h.shown
  obtain ⟨t', hput, top', hshown', htop'⟩ := hshown.putGlyph (hp.putAll text) c
  have hposition := hp.position_putAll (text ++ [c])
  rw [← Paper.putAll_append_singleton] at hshown' htop'
  refine ⟨t', hput, top', hshown', ?_⟩
  cases htop' with
  | inl hsame => rw [hsame]; exact hfirst
  | inr hlast =>
    right
    rw [hlast]
    rw [List.length_append, List.length_singleton, Paper.position] at hposition
    omega

theorem ShowsLine.backspace (hp : p.Open vgaWidth 32) (hfirst : first ≤ p.row)
    (hlimit : limit ≤ (vgaHeight - 1) * vgaWidth) {text : Bytes} {c : UInt8}
    (h : ShowsLine limit first p (text ++ [c]) t) :
    ∃ t', t.backspace = some t' ∧ ShowsLine limit first p text t' := by
  obtain ⟨top, hshown, htop⟩ := h.shown
  have hposition := hp.position_putAll (text ++ [c])
  rw [List.length_append, List.length_singleton] at hposition
  have hcursor : top * vgaWidth < (p.putAll vgaWidth (text ++ [c])).position vgaWidth := by
    rw [hposition]
    simp only [Paper.position, vgaWidth, vgaHeight] at *
    omega
  obtain ⟨t', herase, hshown'⟩ := hshown.backspace hcursor
  rw [hp.erase_putAll] at hshown'
  exact ⟨t', herase, top, hshown', htop⟩

theorem showsLine_echoes (hp : p.Open vgaWidth 32) (hfirst : first ≤ p.row)
    (hlimit : limit ≤ (vgaHeight - 1) * vgaWidth) :
    Echoes (limit - 1) Terminal.putGlyph Terminal.backspace (ShowsLine limit first p) where
  put _ _ _ hroom h := h.putGlyph hp hroom
  erase _ _ _ _ h := h.backspace hp hfirst hlimit

/-- Behind the tests of `shell_readline` a character is one with a glyph. -/
theorem putchar_of_isprint {c : UInt8} (h : isprint c = true) (t : Terminal) :
    t.putchar c = t.putGlyph c := by
  have hother : ∀ d : UInt8, isprint d = false → c ≠ d := by
    intro d hd heq
    rw [heq, hd] at h
    exact Bool.false_ne_true h
  have hnewline : c ≠ 10 := hother 10 (by decide)
  have hreturn : c ≠ 13 := hother 13 (by decide)
  have htab : c ≠ 9 := hother 9 (by decide)
  rw [Terminal.putchar, if_neg hnewline, if_neg hreturn, if_neg htab]

/-- A character other than the end of the line edits it and echoes on the screen. -/
theorem readlineChar_eq (s : ReadLine) {c : UInt8} (hc : c ≠ 10) :
    readlineChar limit s c =
      (echo (limit - 1) Terminal.putGlyph Terminal.backspace s.text s.terminal (lineKey c)).map
        fun terminal => ⟨terminal, editLine (limit - 1) s.text (lineKey c), s.done⟩ := by
  rw [readlineChar, if_neg hc, lineKey]
  by_cases hreturn : c = 13
  · rw [if_pos hreturn, hreturn]
    rfl
  rw [if_neg hreturn]
  by_cases herase : c = 8
  · rw [if_pos herase, if_pos herase, echo, editLine]
    by_cases hempty : s.text = []
    · have hnone : ¬ 0 < s.text.length := by rw [hempty]; exact Nat.lt_irrefl 0
      rw [if_neg hnone, if_pos hempty, hempty]
      show some s = some ⟨s.terminal, [], s.done⟩
      rw [← hempty]
    · rw [if_pos (List.length_pos_of_ne_nil hempty), if_neg hempty, List.dropLast_eq_take]
  rw [if_neg herase, if_neg herase]
  by_cases hprint : isprint c
  · rw [if_pos hprint, echo, editLine, putchar_of_isprint hprint]
    by_cases hroom : s.text.length < limit - 1
    · have htest : ¬ (!isprint c || decide (limit ≤ s.text.length + 1)) = true := by
        simp only [hprint, Bool.not_true, Bool.false_or, decide_eq_true_eq]
        omega
      rw [if_neg htest, if_pos hroom, if_pos hroom]
    · have htest : (!isprint c || decide (limit ≤ s.text.length + 1)) = true := by
        simp only [hprint, Bool.not_true, Bool.false_or, decide_eq_true_eq]
        omega
      rw [if_pos htest, if_neg hroom, if_neg hroom]
      rfl
  · have htest : (!isprint c || decide (limit ≤ s.text.length + 1)) = true := by
      simp only [hprint, Bool.not_false, Bool.true_or]
    rw [if_pos htest, if_neg hprint]
    rfl

end Line

/-! ## Interrupts between its statements -/

/-- The keyboard with the statements of `keyboard_getchar`, and `shell_readline` with what it has
read; `called` is set once `keyboard_has_char` has let it call `keyboard_getchar`. -/
structure Readline where
  system : KeyboardSystem
  called : Bool
  line : ReadLine

inductive ReadlineOp where
  | interrupt (scancode : UInt8)
  /-- the next statement of the reader -/
  | reader
  deriving DecidableEq

/-- The next statement of `shell_readline` or of `keyboard_getchar`; the call returns zero where it
finds the queue empty. -/
def readerStep (limit : Nat) (s : Readline) : Option Readline :=
  if s.line.done then some s
  else if !s.called then some { s with called := keyboardHasChar s.system.keyboard }
  else match s.system.reader with
  | .idle =>
      if s.system.keyboard.head = s.system.keyboard.tail then
        (readlineChar limit s.line 0).map fun line => ⟨getcharStep s.system, false, line⟩
      else some { s with system := getcharStep s.system }
  | .result c =>
      (readlineChar limit s.line c).map fun line => ⟨getcharStep s.system, false, line⟩
  | _ => some { s with system := getcharStep s.system }

def readlineStep (limit : Nat) (s : Readline) : ReadlineOp → Option Readline
  | .interrupt scancode => some { s with system := interruptStep s.system scancode }
  | .reader => readerStep limit s

/-- The call of `shell_readline` with a queue and a screen. -/
def Readline.call (system : KeyboardSystem) (terminal : Terminal) : Readline :=
  ⟨system, false, ⟨terminal, [], false⟩⟩

/-- The state of the line after the characters `chars`: before its end it is shown behind the
paper, afterwards the cursor is at the start of the row below. -/
structure LineRead (limit first : Nat) (p : Paper UInt8) (chars : Bytes) (line : ReadLine) :
    Prop where
  typing : line.done = false → 10 ∉ chars ∧ line.text = typedLine limit chars ∧
    ShowsLine limit first p line.text line.terminal
  returned : line.done = true → ∃ typed, chars = typed ++ [10] ∧ 10 ∉ typed ∧
    line.text = typedLine limit typed ∧
    ∃ top, ShownFrom top line.terminal (p.putAll vgaWidth line.text).newline

/-- What holds at each statement: the line is that of the characters that have been read, and the
others are still queued. -/
structure Reading (limit first : Nat) (p : Paper UInt8) (start : Bytes) (s : Readline) : Prop where
  conserves : Conserves s.system
  idle : s.called = false → s.system.reader = .idle
  nonempty : s.called = true → s.system.reader = .idle → s.system.keyboard.queued ≠ []
  left : s.line.done = true → s.called = false
  line : ∃ chars, s.system.characters = start ++ chars ∧ LineRead limit first p chars s.line

section Run

variable {limit first : Nat} {p : Paper UInt8}

theorem typedLine_append (chars : Bytes) (c : UInt8) :
    typedLine limit (chars ++ [c]) = editLine (limit - 1) (typedLine limit chars) (lineKey c) := by
  rw [typedLine, List.map_append, List.map_singleton, editedLine_concat, typedLine]

theorem length_typedLine_le (chars : Bytes) : (typedLine limit chars).length ≤ limit - 1 :=
  length_editedLine_le (Nat.zero_le _) _

theorem LineRead.char (hp : p.Open vgaWidth 32) (hfirst : first ≤ p.row)
    (hlimit : limit ≤ (vgaHeight - 1) * vgaWidth) {chars : Bytes} {line : ReadLine}
    (h : LineRead limit first p chars line) (hdone : line.done = false) (c : UInt8) :
    ∃ line', readlineChar limit line c = some line' ∧
      LineRead limit first p (chars ++ [c]) line' := by
  obtain ⟨hopen, htext, hshows⟩ := h.typing hdone
  by_cases hend : c = 10
  · obtain ⟨top, hshown, -⟩ := hshows.shown
    obtain ⟨terminal, hput, hnewline⟩ := hshown.newline (hp.putAll line.text)
    refine ⟨⟨terminal, line.text, true⟩, ?_, fun hfalse => ?_, fun _ => ?_⟩
    · rw [readlineChar, hend, if_neg (by decide), if_pos rfl, hput]
      rfl
    · cases hfalse
    · exact ⟨chars, by rw [hend], hopen, htext, hnewline⟩
  · have hlength : line.text.length ≤ limit - 1 := by
      rw [htext]
      exact length_typedLine_le chars
    obtain ⟨terminal, hecho, hnext⟩ :=
      (showsLine_echoes hp hfirst hlimit).echo hlength hshows (lineKey c)
    refine ⟨⟨terminal, editLine (limit - 1) line.text (lineKey c), line.done⟩, ?_, fun _ => ?_,
      fun htrue => ?_⟩
    · rw [readlineChar_eq line hend, hecho]
      rfl
    · refine ⟨?_, ?_, hnext⟩
      · rw [List.mem_append, List.mem_singleton]
        exact not_or.mpr ⟨hopen, fun heq => hend heq.symm⟩
      · rw [typedLine_append, ← htext]
    · rw [hdone] at htrue
      cases htrue

theorem getcharStep_result {system : KeyboardSystem} {c : UInt8} (h : system.reader = .result c) :
    getcharStep system = { system with reader := .idle, returned := system.returned ++ [c] } := by
  simp only [getcharStep, h]

theorem Conserves.result_ne_zero {system : KeyboardSystem} (h : Conserves system) {c : UInt8}
    (hresult : system.reader = .result c) : c ≠ 0 := by
  apply h.nonzero
  rw [h.conserved, hresult]
  simp [Getchar.taken]

/-- The statements that the reader takes until the queue is empty. -/
def pending (s : Readline) : Nat :=
  if s.called then
    match s.system.reader with
    | .idle => 5 * s.system.keyboard.queued.length - 1
    | .copy => 5 * s.system.keyboard.queued.length - 2
    | .advance _ => 5 * s.system.keyboard.queued.length - 3
    | .result _ => 5 * s.system.keyboard.queued.length + 1
  else 5 * s.system.keyboard.queued.length

/-- What a statement of the reader does to a call: it keeps the invariant and, until the end of the
line, comes nearer to an empty queue. -/
structure ReaderStep (limit first : Nat) (p : Paper UInt8) (start : Bytes) (s s' : Readline) :
    Prop where
  reading : Reading limit first p start s'
  accepted : s'.system.accepted = s.system.accepted
  progress : s'.line.done = false → pending s' = pending s - 1

variable {start : Bytes} {s : Readline}

theorem Reading.test (h : Reading limit first p start s) (hopen : s.line.done = false)
    (hcalled : s.called = false) :
    ReaderStep limit first p start s
      { s with called := keyboardHasChar s.system.keyboard } := by
  have hqueued := keyboardHasChar_iff s.system.keyboard
  have hidle := h.idle hcalled
  refine ⟨⟨h.conserves, fun _ => hidle, fun htrue _ => hqueued.mp htrue, fun hdone => ?_, h.line⟩,
    rfl, fun _ => ?_⟩
  · rw [hopen] at hdone
    cases hdone
  cases hchar : keyboardHasChar s.system.keyboard with
  | true => simp only [pending, hcalled, hidle, if_true, Bool.false_eq_true, if_false]
  | false =>
    have hempty : s.system.keyboard.queued = [] := by
      by_contra hne
      rw [hqueued.mpr hne] at hchar
      cases hchar
    simp only [pending, hcalled, hempty, List.length_nil, Bool.false_eq_true, if_false]

theorem Reading.copy (h : Reading limit first p start s) (hcalled : s.called = true)
    (hreader : s.system.reader = .idle) :
    s.system.keyboard.head ≠ s.system.keyboard.tail ∧
      ReaderStep limit first p start s { s with system := getcharStep s.system } := by
  have hne := h.nonempty hcalled hreader
  have hstep := getcharStep_idle hreader hne
  have hconserves := h.conserves.getcharStep
  rw [hstep] at hconserves ⊢
  refine ⟨fun heq => hne (Ring.contents_eq_nil_iff.mpr heq.symm),
    ⟨hconserves, fun hfalse => ?_, fun _ hidle => ?_, h.left, h.line⟩, rfl, fun _ => ?_⟩
  · rw [hcalled] at hfalse
    cases hfalse
  · cases hidle
  · simp only [pending, hcalled, hreader, if_true]
    rfl

theorem Reading.advance (h : Reading limit first p start s) (hcalled : s.called = true)
    (hreader : s.system.reader = .copy) :
    ReaderStep limit first p start s { s with system := getcharStep s.system } := by
  have hconserves := h.conserves.getcharStep
  have hstep : getcharStep s.system =
      { s.system with
        reader := .advance (s.system.keyboard.buffer s.system.keyboard.tail) } := by
    simp only [getcharStep, hreader]
  rw [hstep] at hconserves ⊢
  refine ⟨⟨hconserves, fun hfalse => ?_, fun _ hidle => ?_, h.left, h.line⟩, rfl, fun _ => ?_⟩
  · rw [hcalled] at hfalse
    cases hfalse
  · cases hidle
  · simp only [pending, hcalled, hreader, if_true]
    rfl

theorem Reading.result (h : Reading limit first p start s) (hcalled : s.called = true) {c : UInt8}
    (hreader : s.system.reader = .advance c) :
    ReaderStep limit first p start s { s with system := getcharStep s.system } := by
  have hconserves := h.conserves.getcharStep
  have hpop := queued_pop (h.conserves.front c hreader)
  have hstep : getcharStep s.system =
      { s.system with
        keyboard := { s.system.keyboard with tail := nextIndex s.system.keyboard.tail }
        reader := .result c } := by
    simp only [getcharStep, hreader]
  rw [hstep] at hconserves ⊢
  refine ⟨⟨hconserves, fun hfalse => ?_, fun _ hidle => ?_, h.left, h.line⟩, rfl, fun _ => ?_⟩
  · rw [hcalled] at hfalse
    cases hfalse
  · cases hidle
  · simp only [pending, hcalled, hreader, if_true]
    rw [hpop, List.length_cons]
    omega

theorem Reading.char (hp : p.Open vgaWidth 32) (hfirst : first ≤ p.row)
    (hlimit : limit ≤ (vgaHeight - 1) * vgaWidth) (h : Reading limit first p start s)
    (hdone : s.line.done = false) (hcalled : s.called = true) {c : UInt8}
    (hreader : s.system.reader = .result c) :
    ∃ line', readlineChar limit s.line c = some line' ∧
      ReaderStep limit first p start s ⟨getcharStep s.system, false, line'⟩ := by
  obtain ⟨chars, hchars, hline⟩ := h.line
  obtain ⟨line', hchar, hline'⟩ := hline.char hp hfirst hlimit hdone c
  have hconserves := h.conserves.getcharStep
  have hnonzero := h.conserves.result_ne_zero hreader
  have hread : (getcharStep s.system).characters = s.system.characters ++ [c] := by
    rw [getcharStep_result hreader]
    simp [KeyboardSystem.characters, hnonzero]
  refine ⟨line', hchar, ⟨hconserves, fun _ => ?_, fun hfalse => ?_, fun _ => rfl, chars ++ [c], ?_, hline'⟩, ?_,
    fun _ => ?_⟩
  · rw [getcharStep_result hreader]
  · cases hfalse
  · rw [hread, hchars, List.append_assoc]
  · rw [getcharStep_result hreader]
  · rw [getcharStep_result hreader]
    simp only [pending, hcalled, hreader, if_true, Bool.false_eq_true, if_false,
      Nat.add_sub_cancel]

theorem Reading.reader (hp : p.Open vgaWidth 32) (hfirst : first ≤ p.row)
    (hlimit : limit ≤ (vgaHeight - 1) * vgaWidth) (h : Reading limit first p start s) :
    ∃ s', readerStep limit s = some s' ∧ ReaderStep limit first p start s s' := by
  rw [readerStep]
  cases hdone : s.line.done with
  | true =>
    refine ⟨s, rfl, h, rfl, fun hfalse => ?_⟩
    rw [hdone] at hfalse
    cases hfalse
  | false =>
    cases hcalled : s.called with
    | false => exact ⟨_, rfl, h.test hdone hcalled⟩
    | true =>
      cases hreader : s.system.reader with
      | idle =>
        obtain ⟨hne, hstep⟩ := h.copy hcalled hreader
        refine ⟨_, ?_, hstep⟩
        simp only [Bool.false_eq_true, if_false, Bool.not_true, hne]
        rw [hcalled]
      | copy =>
        refine ⟨_, ?_, h.advance hcalled hreader⟩
        simp only [Bool.false_eq_true, if_false, Bool.not_true]
        rw [hcalled]
      | advance c =>
        refine ⟨_, ?_, h.result hcalled hreader⟩
        simp only [Bool.false_eq_true, if_false, Bool.not_true]
        rw [hcalled]
      | result c =>
        obtain ⟨line', hchar, hstep⟩ := h.char hp hfirst hlimit hdone hcalled hreader
        refine ⟨_, ?_, hstep⟩
        simp only [Bool.false_eq_true, if_false, Bool.not_true, hchar, Option.map_some]

theorem Reading.interrupt (h : Reading limit first p start s) (scancode : UInt8) :
    Reading limit first p start { s with system := interruptStep s.system scancode } := by
  obtain ⟨more, -, hqueued, -⟩ := interruptStep_appends s.system scancode
  refine ⟨h.conserves.interruptStep scancode, h.idle, fun hcalled hidle => ?_, h.left, h.line⟩
  show (interruptStep s.system scancode).keyboard.queued ≠ []
  rw [hqueued]
  exact List.append_ne_nil_of_left_ne_nil (h.nonempty hcalled hidle) more

theorem Reading.run (hp : p.Open vgaWidth 32) (hfirst : first ≤ p.row)
    (hlimit : limit ≤ (vgaHeight - 1) * vgaWidth) (h : Reading limit first p start s)
    (ops : List ReadlineOp) :
    ∃ s', runPartial (readlineStep limit) s ops = some s' ∧ Reading limit first p start s' := by
  induction ops generalizing s with
  | nil => exact ⟨s, rfl, h⟩
  | cons op ops ih =>
    cases op with
    | interrupt scancode =>
      obtain ⟨s', hrun, hs'⟩ := ih (h.interrupt scancode)
      exact ⟨s', hrun, hs'⟩
    | reader =>
      obtain ⟨next, hnext, hstep⟩ := h.reader hp hfirst hlimit
      obtain ⟨s', hrun, hs'⟩ := ih hstep.reading
      refine ⟨s', ?_, hs'⟩
      rw [runPartial_cons, readlineStep, hnext]
      exact hrun

/-- Without an interrupt the reader comes to the end of the line or of the queue. -/
theorem Reading.settles (hp : p.Open vgaWidth 32) (hfirst : first ≤ p.row)
    (hlimit : limit ≤ (vgaHeight - 1) * vgaWidth) (h : Reading limit first p start s) :
    ∃ s', runPartial (readlineStep limit) s (List.replicate (pending s) .reader) = some s' ∧
      Reading limit first p start s' ∧ s'.system.accepted = s.system.accepted ∧
      (s'.line.done = false → pending s' = 0) := by
  generalize hn : pending s = n
  induction n generalizing s with
  | zero => exact ⟨s, rfl, h, rfl, fun _ => hn⟩
  | succ n ih =>
    obtain ⟨next, hnext, hstep⟩ := h.reader hp hfirst hlimit
    by_cases hdone : next.line.done = true
    · -- what is left of the run finds the loop left
      have hstays : ∀ m, runPartial (readlineStep limit) next (List.replicate m .reader) =
          some next := by
        intro m
        induction m with
        | zero => rfl
        | succ m ihm =>
          rw [List.replicate_succ, runPartial_cons, readlineStep, readerStep, if_pos hdone]
          exact ihm
      refine ⟨next, ?_, hstep.reading, hstep.accepted, fun hfalse => ?_⟩
      · rw [List.replicate_succ, runPartial_cons, readlineStep, hnext]
        exact hstays n
      · rw [hdone] at hfalse
        cases hfalse
    · have hprogress := hstep.progress (Bool.not_eq_true _ ▸ hdone)
      rw [hn, Nat.add_sub_cancel] at hprogress
      obtain ⟨s', hrun, hreading, haccepted, hempty⟩ := ih hstep.reading hprogress
      refine ⟨s', ?_, hreading, haccepted.trans hstep.accepted, hempty⟩
      rw [List.replicate_succ, runPartial_cons, readlineStep, hnext]
      exact hrun

/-- A reader with nothing left to do has read all characters. -/
theorem Reading.characters_of_pending (h : Reading limit first p start s) (hpending : pending s = 0) :
    s.system.characters = s.system.accepted := by
  have hconserved := h.conserves.conserved
  have hphase : s.system.reader = .idle ∧ s.system.keyboard.queued = [] := by
    cases hcalled : s.called with
    | false =>
      have hidle := h.idle hcalled
      simp only [pending, hcalled, Bool.false_eq_true, if_false, Nat.mul_eq_zero,
        List.length_eq_zero_iff] at hpending
      exact ⟨hidle, hpending.resolve_left (by decide)⟩
    | true =>
      have hlength : s.system.reader = .idle ∨ s.system.reader = .copy ∨
          (∃ c, s.system.reader = .advance c) → 0 < s.system.keyboard.queued.length := by
        intro hcases
        apply List.length_pos_of_ne_nil
        rcases hcases with hidle | hcopy | ⟨c, hadvance⟩
        · exact h.nonempty hcalled hidle
        · exact h.conserves.copy hcopy
        · intro hnil
          have hfront := h.conserves.front c hadvance
          rw [hnil] at hfront
          cases hfront
      cases hreader : s.system.reader with
      | idle =>
        have := hlength (.inl hreader)
        simp only [pending, hcalled, hreader, if_true] at hpending
        omega
      | copy =>
        have := hlength (.inr (.inl hreader))
        simp only [pending, hcalled, hreader, if_true] at hpending
        omega
      | advance c =>
        have := hlength (.inr (.inr ⟨c, hreader⟩))
        simp only [pending, hcalled, hreader, if_true] at hpending
        omega
      | result c =>
        simp only [pending, hcalled, hreader, if_true] at hpending
        omega
  rw [hconserved, hphase.1, hphase.2]
  simp [Getchar.taken]

theorem typed_unique {typed typed' rest rest' : Bytes} (h : 10 ∉ typed) (h' : 10 ∉ typed')
    (heq : typed ++ 10 :: rest = typed' ++ 10 :: rest') : typed = typed' ∧ rest = rest' := by
  have htyped : typed = typed' := by
    rw [← takeWhile_append_sep h rest, heq, takeWhile_append_sep h']
  rw [htyped] at heq
  exact ⟨htyped, (List.cons_eq_cons.mp (List.append_cancel_left heq)).2⟩

/-- The call comes to the end of a line that has been put into the queue. -/
theorem Reading.returns (hp : p.Open vgaWidth 32) (hfirst : first ≤ p.row)
    (hlimit : limit ≤ (vgaHeight - 1) * vgaWidth) (h : Reading limit first p start s)
    {typed rest : Bytes} (htyped : 10 ∉ typed)
    (haccepted : s.system.accepted = start ++ typed ++ 10 :: rest) :
    ∃ s', runPartial (readlineStep limit) s (List.replicate (pending s) .reader) = some s' ∧
      Reading limit first p start s' ∧ s'.line.done = true ∧
      s'.line.text = typedLine limit typed ∧ s'.system.keyboard.queued = rest := by
  obtain ⟨s', hrun, hreading, hsame, hempty⟩ := h.settles hp hfirst hlimit
  rw [List.append_assoc] at haccepted
  have hconserved := hreading.conserves.conserved
  obtain ⟨chars, hchars, hline⟩ := hreading.line
  rw [hsame, haccepted, hchars, List.append_assoc, List.append_assoc] at hconserved
  have hread := List.append_cancel_left hconserved
  cases hdone : s'.line.done with
  | false =>
    have hall := hreading.characters_of_pending (hempty hdone)
    rw [hchars, hsame, haccepted] at hall
    have hnone := (hline.typing hdone).1
    rw [List.append_cancel_left hall] at hnone
    exact absurd (List.mem_append_right typed List.mem_cons_self) hnone
  | true =>
    obtain ⟨typed', hend, hopen, htext, -⟩ := hline.returned hdone
    have hidle := hreading.idle (hreading.left hdone)
    rw [hend, hidle, List.append_assoc] at hread
    obtain ⟨heq, hrest⟩ := typed_unique htyped hopen hread
    exact ⟨s', hrun, hreading, hdone, heq ▸ htext, hrest.symm⟩

end Run

/-- What a call owes its caller at each point: nothing that was typed is lost, the line is made of
what has been read and stands on the screen behind the prompt, and the end of the line in the queue
ends the call with the line typed before it and what follows still queued. -/
structure ReadlineOwes (limit first : Nat) (p : Paper UInt8) (start : Bytes) (s : Readline) :
    Prop where
  conserved : s.system.accepted =
    s.system.characters ++ s.system.reader.taken ++ s.system.keyboard.queued
  line : ∃ chars, s.system.characters = start ++ chars ∧ LineRead limit first p chars s.line
  idle : s.line.done = true → s.system.reader = .idle
  returns : ∀ typed rest, 10 ∉ typed → s.system.accepted = start ++ typed ++ 10 :: rest →
    ∃ n s', runPartial (readlineStep limit) s (List.replicate n .reader) = some s' ∧
      s'.line.done = true ∧ s'.line.text = typedLine limit typed ∧
      s'.system.keyboard.queued = rest ∧
      ∃ top, ShownFrom top s'.line.terminal
        (p.putAll vgaWidth (typedLine limit typed)).newline

end SnsxOS.X86
