import SnsxOS.Arm64.TextLayout
import SnsxOS.Framework.TextBuffer
import SnsxOS.Lib.Memmove

/-!
# The editor of the desktop

`ui_edit_text_file` keeps its text in an array of the size of a file, with a length and a cursor.
Every change of the text is an overlapping copy inside the array. The text with its cursor is what
an editor makes of two strings, the one before and the one behind the cursor; it takes no character
more when the array has no room for it and a terminator.
-/

namespace SnsxOS.Arm64

open Framework

/-! ## The editor -/

def efiScanRight : UInt16 := 0x03

def efiScanLeft : UInt16 := 0x04

def efiScanHome : UInt16 := 0x05

def efiScanEnd : UInt16 := 0x06

def efiScanDelete : UInt16 := 0x08

def efiScanF2 : UInt16 := 0x0C

def efiScanEsc : UInt16 := 0x17

structure EfiKey where
  scanCode : UInt16
  unicodeChar : UInt16
  deriving DecidableEq

/-- What an event says to the loop: whether the pointer is used on the close button or on the save
button, the position at which it is used on the text, and the key. -/
structure EditorEvent where
  close : Bool
  save : Bool
  click : Option (Int × Int)
  key : Option EfiKey
  deriving DecidableEq

/-- What the loop does about an event. -/
inductive EditorAction where
  | quit
  | save
  | click (x y : Int)
  | left
  | right
  | home
  | toEnd
  | delete
  | backspace
  | insert (ch : UInt8)
  | ignore
  deriving DecidableEq

/-- The keys in the order of their tests. -/
def keyAction (key : EfiKey) : EditorAction :=
  if key.scanCode = efiScanEsc then .quit
  else if key.scanCode = efiScanF2 then .save
  else if key.scanCode = efiScanLeft then .left
  else if key.scanCode = efiScanRight then .right
  else if key.scanCode = efiScanHome then .home
  else if key.scanCode = efiScanEnd then .toEnd
  else if key.scanCode = efiScanDelete then .delete
  else if key.unicodeChar = 8 then .backspace
  else if key.unicodeChar = 13 then .insert newline
  else if 32 ≤ key.unicodeChar ∧ key.unicodeChar ≤ 126 then .insert key.unicodeChar.toUInt8
  else .ignore

def eventAction (event : EditorEvent) : EditorAction :=
  if event.close then .quit
  else if event.save then .save
  else match event.click with
    | some (x, y) => .click x y
    | none =>
        match event.key with
        | none => .ignore
        | some key => keyAction key

/-- The width and the height of the screen. -/
structure Screen where
  width : Int
  height : Int

/-- `cols` of the editor's text -/
def Screen.cols (screen : Screen) : Int := (screen.width - 112).tdiv 12

def Screen.rows (screen : Screen) : Int := (screen.height - 246).tdiv 16

/-- The line of a position on the text. -/
def clickLine (scroll y : Int) : Int := scroll + (y - 146).tdiv 16

def clickCol (x : Int) : Int := (x - 56).tdiv 12

def textEditorMax : Nat := fsMaxFileSize

/-- `g_text_editor_buffer` and the variables of the loop. `writes` lists the texts that were handed
to `fs_write`. -/
structure TextEditor where
  cells : Bytes
  length : Nat
  cursor : Nat
  scroll : Int
  writes : List Bytes
  isOpen : Bool

/-- A difference of two numbers of 64 bits without sign. -/
def sizeSub (a b : Nat) : Nat := (a + 2 ^ 64 - b) % 2 ^ 64

namespace TextEditor

/-- The editor of a file, if its content fits the array. -/
def start (file : Bytes) : Option TextEditor :=
  (store (List.replicate textEditorMax 0) 0 file).map fun cells =>
    ⟨cells, file.length, file.length, 0, [], true⟩

def delete (e : TextEditor) : Option TextEditor :=
  if e.cursor < e.length then
    (memmove e.cells e.cursor (e.cursor + 1)
        (sizeSub (sizeSub e.length e.cursor) 1)).bind fun cells =>
      let length := sizeSub e.length 1
      (store cells length [0]).map fun cells => { e with cells := cells, length := length }
  else some e

def backspace (e : TextEditor) : Option TextEditor :=
  if 0 < e.cursor then
    (memmove e.cells (sizeSub e.cursor 1) e.cursor (sizeSub e.length e.cursor)).bind fun cells =>
      let length := sizeSub e.length 1
      (store cells length [0]).map fun cells =>
        { e with cells := cells, length := length, cursor := sizeSub e.cursor 1 }
  else some e

def insert (e : TextEditor) (ch : UInt8) : Option TextEditor :=
  if e.length + 1 < textEditorMax then
    (memmove e.cells (e.cursor + 1) e.cursor (sizeSub e.length e.cursor)).bind fun cells =>
      (store cells e.cursor [ch]).bind fun cells =>
        (store cells (e.length + 1) [0]).map fun cells =>
          { e with cells := cells, length := e.length + 1, cursor := e.cursor + 1 }
  else some e

/-- The first `length` bytes of the array go to `fs_write`. -/
def save (e : TextEditor) : Option TextEditor :=
  if e.cells.length < e.length then none
  else some { e with writes := e.writes ++ [e.cells.take e.length] }

def perform (screen : Screen) (e : TextEditor) : EditorAction → Option TextEditor
  | .quit => some { e with isOpen := false }
  | .save => e.save
  | .click x y => some { e with
      cursor := textIndexFromPosition (e.cells.take e.length) screen.cols (clickLine e.scroll y)
        (clickCol x) }
  | .left => some (if 0 < e.cursor then { e with cursor := sizeSub e.cursor 1 } else e)
  | .right => some (if e.cursor < e.length then { e with cursor := e.cursor + 1 } else e)
  | .home => some { e with cursor := 0 }
  | .toEnd => some { e with cursor := e.length }
  | .delete => e.delete
  | .backspace => e.backspace
  | .insert ch => e.insert ch
  | .ignore => some e

/-- A pass of the loop; the view follows the cursor first. An editor that was left takes no
events. There is no result where an access misses the array. -/
def step (screen : Screen) (e : TextEditor) (event : EditorEvent) : Option TextEditor :=
  if e.isOpen = false then some e
  else
    let scroll := uiAdjustScroll (e.cells.take e.length) e.cursor screen.cols screen.rows e.scroll
    { e with scroll := scroll }.perform screen (eventAction event)

end TextEditor

/-! ## The text and its cursor -/

/-- The editor without its array. -/
structure EditedText where
  buffer : TextBuffer UInt8
  scroll : Int
  writes : List Bytes
  isOpen : Bool

namespace EditedText

def start (file : Bytes) : EditedText := ⟨⟨file, []⟩, 0, [], true⟩

def edit (s : EditedText) (buffer : TextBuffer UInt8) : EditedText := { s with buffer := buffer }

def perform (limit : Nat) (screen : Screen) (s : EditedText) : EditorAction → EditedText
  | .quit => { s with isOpen := false }
  | .save => { s with writes := s.writes ++ [s.buffer.before ++ s.buffer.after] }
  | .click x y => s.edit (s.buffer.moveTo (textIndexFromPosition s.buffer.text screen.cols
      (clickLine s.scroll y) (clickCol x)))
  | .left => s.edit s.buffer.left
  | .right => s.edit s.buffer.right
  | .home => s.edit s.buffer.home
  | .toEnd => s.edit s.buffer.toEnd
  | .delete => s.edit s.buffer.delete
  | .backspace => s.edit s.buffer.backspace
  | .insert ch => s.edit (s.buffer.insert limit ch)
  | .ignore => s

/-- A pass of the loop on a text of at most `limit` characters. -/
def step (limit : Nat) (screen : Screen) (s : EditedText) (event : EditorEvent) : EditedText :=
  if s.isOpen = false then s
  else
    let scroll := uiAdjustScroll s.buffer.text s.buffer.before.length screen.cols screen.rows
      s.scroll
    { s with scroll := scroll }.perform limit screen (eventAction event)

end EditedText

/-- The editor shows the text: the cursor is in it, it is in the array, and what is before and
behind the cursor are the two strings. -/
structure EditorShows (e : TextEditor) (s : EditedText) : Prop where
  cursor_le : e.cursor ≤ e.length
  length_le : e.length ≤ textEditorMax
  before : e.cells.take e.cursor = s.buffer.before
  after : (e.cells.take e.length).drop e.cursor = s.buffer.after
  writes : e.writes = s.writes
  isOpen : e.isOpen = s.isOpen

section Perform

variable {screen : Screen} {t : TextBuffer UInt8} {rest : Bytes}

theorem sizeSub_eq {a b : Nat} (h : b ≤ a) (ha : a ≤ textEditorMax) : sizeSub a b = a - b := by
  have hmax : textEditorMax < 2 ^ 64 := by decide
  rw [sizeSub]
  omega

/-- The editor whose array holds the text and `rest` behind it. -/
def EditedText.inArray (s : EditedText) (rest : Bytes) : TextEditor where
  cells := s.buffer.before ++ (s.buffer.after ++ rest)
  length := s.buffer.text.length
  cursor := s.buffer.before.length
  scroll := s.scroll
  writes := s.writes
  isOpen := s.isOpen

variable {s : EditedText}

theorem inArray_length : (s.inArray rest).length = s.buffer.text.length := rfl

theorem inArray_text : (s.inArray rest).cells.take (s.inArray rest).length = s.buffer.text := by
  rw [EditedText.inArray, ← List.append_assoc]
  exact List.take_left

/-- The array is filled by the text and the rest. -/
def EditedText.Fills (s : EditedText) (rest : Bytes) : Prop :=
  s.buffer.text.length + rest.length = textEditorMax

theorem inArray_shows (h : s.Fills rest) : EditorShows (s.inArray rest) s where
  cursor_le := by
    rw [EditedText.inArray, TextBuffer.text, List.length_append]
    exact Nat.le_add_right _ _
  length_le := by
    rw [EditedText.Fills] at h
    rw [EditedText.inArray]
    dsimp only
    omega
  before := List.take_left
  after := by
    rw [inArray_text]
    exact List.drop_left
  writes := rfl
  isOpen := rfl

theorem delete_inArray (h : s.Fills rest) : ∃ rest', (s.edit s.buffer.delete).Fills rest' ∧
    (s.inArray rest).delete = some ((s.edit s.buffer.delete).inArray rest') := by
  obtain ⟨⟨before, after⟩, scroll, writes, isOpen⟩ := s
  rw [EditedText.Fills] at h
  rw [TextEditor.delete, EditedText.inArray]
  cases after with
  | nil =>
    refine ⟨rest, h, ?_⟩
    rw [if_neg]
    · rfl
    · simp [TextBuffer.text]
  | cons ch after =>
    obtain ⟨last, hmove⟩ := memmove_close before ch after rest
    simp only [TextBuffer.text, List.length_append, List.length_cons] at h ⊢
    have hlength : before.length + (after.length + 1) ≤ textEditorMax := by omega
    have hbehind : sizeSub (before.length + (after.length + 1)) before.length =
        after.length + 1 := by
      rw [sizeSub_eq (Nat.le_add_right _ _) hlength, Nat.add_sub_cancel_left]
    have hcount : sizeSub (after.length + 1) 1 = after.length :=
      sizeSub_eq (Nat.le_add_left 1 _) (by omega)
    have hshorter : sizeSub (before.length + (after.length + 1)) 1 = (before ++ after).length := by
      rw [sizeSub_eq (by omega) hlength, List.length_append]
      omega
    refine ⟨0 :: rest, ?_, ?_⟩
    · simp only [EditedText.Fills, EditedText.edit, TextBuffer.delete, TextBuffer.text,
        List.tail_cons, List.length_append, List.length_cons]
      omega
    · rw [if_pos (by omega), hbehind, hcount, List.cons_append, hmove, Option.bind_some, hshorter,
        ← List.append_assoc, store_append_cons]
      simp [EditedText.inArray, EditedText.edit, TextBuffer.delete, TextBuffer.text]

theorem backspace_inArray (h : s.Fills rest) : ∃ rest', (s.edit s.buffer.backspace).Fills rest' ∧
    (s.inArray rest).backspace = some ((s.edit s.buffer.backspace).inArray rest') := by
  obtain ⟨⟨before, after⟩, scroll, writes, isOpen⟩ := s
  rw [EditedText.Fills] at h
  rw [TextEditor.backspace, EditedText.inArray]
  cases before using List.reverseRecOn with
  | nil => exact ⟨rest, h, rfl⟩
  | append_singleton before ch =>
    obtain ⟨last, hmove⟩ := memmove_close before ch after rest
    simp only [TextBuffer.text, List.length_append, List.length_singleton] at h ⊢
    have hlength : before.length + 1 + after.length ≤ textEditorMax := by omega
    have hcount : sizeSub (before.length + 1 + after.length) (before.length + 1) = after.length := by
      rw [sizeSub_eq (Nat.le_add_right _ _) hlength, Nat.add_sub_cancel_left]
    have hcursor : sizeSub (before.length + 1) 1 = before.length :=
      sizeSub_eq (Nat.le_add_left 1 _) (by omega)
    have hshorter : sizeSub (before.length + 1 + after.length) 1 = (before ++ after).length := by
      rw [sizeSub_eq (by omega) hlength, List.length_append]
      omega
    refine ⟨0 :: rest, ?_, ?_⟩
    · simp only [EditedText.Fills, EditedText.edit, TextBuffer.backspace, TextBuffer.text,
        List.dropLast_concat, List.length_append, List.length_cons]
      omega
    · rw [if_pos (by omega), hcursor, hcount, List.append_assoc, List.singleton_append, hmove,
        Option.bind_some, hshorter, ← List.append_assoc, store_append_cons]
      simp [EditedText.inArray, EditedText.edit, TextBuffer.backspace, TextBuffer.text]

/-- A character needs room for itself and for the terminator. -/
theorem insert_inArray (h : s.Fills rest) (ch : UInt8) :
    ∃ rest', (s.edit (s.buffer.insert (textEditorMax - 1) ch)).Fills rest' ∧
      (s.inArray rest).insert ch =
        some ((s.edit (s.buffer.insert (textEditorMax - 1) ch)).inArray rest') := by
  obtain ⟨⟨before, after⟩, scroll, writes, isOpen⟩ := s
  rw [EditedText.Fills] at h
  rw [TextEditor.insert, EditedText.inArray, TextBuffer.insert]
  simp only [TextBuffer.text, List.length_append] at h ⊢
  by_cases hroom : before.length + after.length + 1 < textEditorMax
  · rw [if_pos hroom, if_pos (by omega)]
    cases rest with
    | nil =>
      rw [List.length_nil] at h
      omega
    | cons old rest =>
      cases rest with
      | nil =>
        rw [List.length_singleton] at h
        omega
      | cons last rest =>
        simp only [List.length_cons] at h
        obtain ⟨first, hmove⟩ := memmove_open before after old (last :: rest)
        have hcount : sizeSub (before.length + after.length) before.length = after.length := by
          rw [sizeSub_eq (Nat.le_add_right _ _) (by omega), Nat.add_sub_cancel_left]
        have hlength : before.length + after.length + 1 = (before ++ ch :: after).length := by
          rw [List.length_append, List.length_cons]
          omega
        have hsplit : before ++ ch :: (after ++ last :: rest) =
            (before ++ ch :: after) ++ last :: rest := by
          rw [List.append_assoc, List.cons_append]
        refine ⟨0 :: rest, ?_, ?_⟩
        · simp only [EditedText.Fills, EditedText.edit, TextBuffer.text, List.length_append,
            List.length_cons, List.length_nil]
          omega
        · rw [hcount, hmove, Option.bind_some, store_append_cons, Option.bind_some, hlength, hsplit,
            store_append_cons]
          simp [EditedText.inArray, EditedText.edit, TextBuffer.text]
  · rw [if_neg hroom, if_neg (by omega)]
    exact ⟨rest, by simpa [EditedText.Fills, EditedText.edit, TextBuffer.text] using h, by
      simp [EditedText.inArray, EditedText.edit, TextBuffer.text]⟩

theorem save_inArray (h : s.Fills rest) :
    (s.inArray rest).save = some ({ s with writes := s.writes ++ [s.buffer.before ++
      s.buffer.after] }.inArray rest) := by
  have hlength := (inArray_shows h).length_le
  have hcells : (s.inArray rest).cells.length = textEditorMax := by
    rw [EditedText.Fills, TextBuffer.text] at h
    rw [EditedText.inArray, ← h, List.length_append, List.length_append, List.length_append,
      Nat.add_assoc]
  rw [TextEditor.save, if_neg (by omega), inArray_text]
  rfl

/-- A move of the cursor to another place of the text. -/
theorem move_inArray (h : s.Fills rest) {t : TextBuffer UInt8} (ht : t.text = s.buffer.text) :
    (s.edit t).Fills rest ∧
      { s.inArray rest with cursor := t.before.length } = (s.edit t).inArray rest := by
  constructor
  · rw [EditedText.Fills, EditedText.edit, ht]
    exact h
  · have hcells : s.buffer.before ++ (s.buffer.after ++ rest) = t.before ++ (t.after ++ rest) := by
      rw [← List.append_assoc, ← List.append_assoc]
      exact congrArg (· ++ rest) ht.symm
    rw [EditedText.inArray, EditedText.inArray, EditedText.edit, hcells, ht]

theorem perform_inArray (h : s.Fills rest) (action : EditorAction) :
    ∃ rest', (s.perform (textEditorMax - 1) screen action).Fills rest' ∧
      (s.inArray rest).perform screen action =
        some ((s.perform (textEditorMax - 1) screen action).inArray rest') := by
  cases action with
  | quit => exact ⟨rest, h, rfl⟩
  | save => exact ⟨rest, h, save_inArray h⟩
  | click x y =>
    have hmove := move_inArray h (TextBuffer.text_moveTo s.buffer (textIndexFromPosition
      s.buffer.text screen.cols (clickLine s.scroll y) (clickCol x)))
    refine ⟨rest, hmove.1, ?_⟩
    rw [TextEditor.perform, EditedText.perform, ← hmove.2, inArray_text, TextBuffer.moveTo,
      TextBuffer.cutAt, List.length_take,
      Nat.min_eq_left (textIndexFromPosition_le s.buffer.text _ _ _)]
    rfl
  | left =>
    have hmove := move_inArray h (TextBuffer.text_left s.buffer)
    refine ⟨rest, hmove.1, ?_⟩
    rw [TextEditor.perform, EditedText.perform, ← hmove.2, TextBuffer.left, List.length_dropLast]
    have hcursor : (s.inArray rest).cursor ≤ textEditorMax :=
      (inArray_shows h).cursor_le.trans (inArray_shows h).length_le
    split
    · rename_i hpos
      rw [sizeSub_eq hpos hcursor]
      rfl
    · rename_i hzero
      have hbefore : s.buffer.before.length = 0 := Nat.eq_zero_of_not_pos hzero
      rw [hbefore, Nat.zero_sub, ← hbefore]
      rfl
  | right =>
    have hmove := move_inArray h (TextBuffer.text_right s.buffer)
    refine ⟨rest, hmove.1, ?_⟩
    rw [TextEditor.perform, EditedText.perform, ← hmove.2, TextBuffer.right, List.length_append]
    cases hafter : s.buffer.after with
    | nil =>
      rw [if_neg]
      · rfl
      · simp [EditedText.inArray, TextBuffer.text, hafter]
    | cons ch after =>
      rw [if_pos]
      · rfl
      · simp [EditedText.inArray, TextBuffer.text, hafter]
  | home =>
    have hmove := move_inArray h (TextBuffer.text_home s.buffer)
    refine ⟨rest, hmove.1, ?_⟩
    rw [EditedText.perform, ← hmove.2]
    rfl
  | toEnd =>
    have hmove := move_inArray h (TextBuffer.text_toEnd s.buffer)
    refine ⟨rest, hmove.1, ?_⟩
    rw [EditedText.perform, ← hmove.2]
    rfl
  | delete => exact delete_inArray h
  | backspace => exact backspace_inArray h
  | insert ch => exact insert_inArray h ch
  | ignore => exact ⟨rest, h, rfl⟩

theorem step_inArray (h : s.Fills rest) (event : EditorEvent) :
    ∃ rest', (s.step (textEditorMax - 1) screen event).Fills rest' ∧
      (s.inArray rest).step screen event =
        some ((s.step (textEditorMax - 1) screen event).inArray rest') := by
  rw [TextEditor.step, EditedText.step]
  by_cases hclosed : s.isOpen = false
  · rw [if_pos hclosed]
    exact ⟨rest, h, if_pos hclosed⟩
  · have hstill : ¬ (s.inArray rest).isOpen = false := hclosed
    rw [if_neg hclosed, if_neg hstill, inArray_text]
    have hscrolled : ∀ scroll, ({ s with scroll := scroll } : EditedText).Fills rest := fun _ => h
    exact perform_inArray (hscrolled _) (eventAction event)

theorem run_inArray (h : s.Fills rest) (events : List EditorEvent) :
    ∃ rest', (run (EditedText.step (textEditorMax - 1) screen) s events).Fills rest' ∧
      runPartial (TextEditor.step screen) (s.inArray rest) events =
        some ((run (EditedText.step (textEditorMax - 1) screen) s events).inArray rest') := by
  induction events generalizing s rest with
  | nil => exact ⟨rest, h, rfl⟩
  | cons event events ih =>
    obtain ⟨rest', hfills, hstep⟩ := @step_inArray screen rest s h event
    rw [run_cons, runPartial_cons, hstep]
    exact ih hfills

end Perform

section Session

variable {file : Bytes}

theorem start_inArray (h : file.length ≤ textEditorMax) :
    (EditedText.start file).Fills (List.replicate (textEditorMax - file.length) 0) ∧
      TextEditor.start file =
        some ((EditedText.start file).inArray (List.replicate (textEditorMax - file.length) 0)) := by
  constructor
  · simp only [EditedText.Fills, EditedText.start, TextBuffer.text, List.append_nil,
      List.length_replicate]
    omega
  · have hstore := @store_padded textEditorMax 0 [] file le_rfl (by omega)
    rw [padded_nil] at hstore
    rw [TextEditor.start, hstore]
    simp [EditedText.inArray, EditedText.start, TextBuffer.text, padded]

/-- `ui_edit_text_file` on a file, from its call on. -/
def uiEditTextFile (screen : Screen) (file : Bytes) (events : List EditorEvent) :
    Option TextEditor :=
  (TextEditor.start file).bind fun e => runPartial (TextEditor.step screen) e events

theorem uiEditTextFile_inArray (screen : Screen) (h : file.length ≤ textEditorMax)
    (events : List EditorEvent) : ∃ rest,
      (run (EditedText.step (textEditorMax - 1) screen) (.start file) events).Fills rest ∧
        uiEditTextFile screen file events =
          some ((run (EditedText.step (textEditorMax - 1) screen) (.start file) events).inArray
            rest) := by
  obtain ⟨hfills, hstart⟩ := start_inArray h
  rw [uiEditTextFile, hstart]
  exact run_inArray hfills events

/-- The editor is a text with a cursor that takes a character while the array has room for it and
for a terminator: after every event the cursor is in the text and the text in the array, all
accesses were, and every save has written what is before and what is behind the cursor. -/
theorem uiEditTextFile_refines (screen : Screen) (file : Bytes) (h : file.length ≤ textEditorMax)
    (events : List EditorEvent) : ∃ e, uiEditTextFile screen file events = some e ∧
      EditorShows e (run (EditedText.step (textEditorMax - 1) screen) (.start file) events) := by
  obtain ⟨rest, hfills, hrun⟩ := uiEditTextFile_inArray screen h events
  exact ⟨_, hrun, inArray_shows hfills⟩

/-- A letter typed and the file saved. -/
def typeAndSave : List EditorEvent :=
  [⟨false, false, none, some ⟨0, 97⟩⟩, ⟨false, false, none, some ⟨efiScanF2, 0⟩⟩]

theorem uiEditTextFile_refines_saved : ∃ e,
    uiEditTextFile ⟨1024, 768⟩ (ascii "b") typeAndSave = some e ∧ EditorShows e
      (run (EditedText.step (textEditorMax - 1) ⟨1024, 768⟩) (.start (ascii "b")) typeAndSave) :=
  uiEditTextFile_refines ⟨1024, 768⟩ (ascii "b") (by decide) typeAndSave

theorem EditorShows.text_length_le {e : TextEditor} {s : EditedText} (h : EditorShows e s) :
    s.buffer.text.length ≤ e.length := by
  have hcursor := h.cursor_le
  have hbefore := List.length_take_le e.cursor e.cells
  have hafter : ((e.cells.take e.length).drop e.cursor).length ≤ e.length - e.cursor := by
    rw [List.length_drop]
    exact Nat.sub_le_sub_right (List.length_take_le _ _) _
  rw [h.before] at hbefore
  rw [h.after] at hafter
  rw [TextBuffer.text, List.length_append]
  omega

/-- The letter b. -/
def letterTyped : EditorEvent := ⟨false, false, none, some ⟨0, 98⟩⟩

theorem run_letterTyped (limit : Nat) (screen : Screen) (file : Bytes) :
    (run (EditedText.step limit screen) (.start file) [letterTyped]).buffer.text.length =
      if file.length < limit then file.length + 1 else file.length := by
  have hinsert := TextBuffer.length_text_insert limit ⟨file, []⟩ (98 : UInt8)
  have htext : (TextBuffer.mk file []).text = file := List.append_nil file
  rw [htext] at hinsert
  exact hinsert

/-- A file with room for one byte more takes none. -/
theorem not_uiEditTextFile_refines : ¬ ∀ (screen : Screen) (file : Bytes)
    (events : List EditorEvent), file.length ≤ textEditorMax →
      ∃ e, uiEditTextFile screen file events = some e ∧
        EditorShows e (run (EditedText.step textEditorMax screen) (.start file) events) := by
  intro h
  have hlength : (List.replicate (textEditorMax - 1) (97 : UInt8)).length = textEditorMax - 1 :=
    List.length_replicate
  have hfile := hlength.trans_le (Nat.sub_le textEditorMax 1)
  obtain ⟨e, hrun, hshows⟩ := h ⟨1024, 768⟩ _ [letterTyped] hfile
  obtain ⟨rest, -, heditor⟩ := uiEditTextFile_inArray ⟨1024, 768⟩ hfile [letterTyped]
  obtain rfl := Option.some.inj (hrun.symm.trans heditor)
  have hle := hshows.text_length_le
  rw [inArray_length, run_letterTyped, run_letterTyped, hlength, if_pos (by decide),
    if_neg (by decide)] at hle
  exact absurd hle (by decide)

end Session

end SnsxOS.Arm64
