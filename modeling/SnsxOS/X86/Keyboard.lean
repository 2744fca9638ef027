import SnsxOS.Framework.Bytes
import SnsxOS.Framework.Ring
import SnsxOS.Framework.Transition

/-!
# The keyboard queue

The interrupt handler translates a scancode and puts the character into a circular buffer of 128
cells; `keyboard_getchar` takes characters out of it. An interrupt runs to completion between any
two statements of the reader. One variable stands for both shift keys.
-/

namespace SnsxOS.X86

open SnsxOS.Framework

/-- `keymap`; the entries after the last one are zero. -/
def keymap : Bytes :=
  [0, 27] ++ ascii "1234567890-=" ++ [8] ++
  [9] ++ ascii "qwertyuiop[]" ++ [10, 0] ++
  ascii "asdfghjkl;'`" ++ [0] ++ ascii "\\z" ++
  ascii "xcvbnm,./" ++ [0] ++ ascii "*" ++ [0] ++ ascii " " ++ [0, 0] ++
  List.replicate 15 0 ++
  [0, 0, 0] ++ ascii "-" ++ [0, 0, 0] ++ ascii "+"

/-- `keymap_shift` -/
def keymapShift : Bytes :=
  [0, 27] ++ ascii "!@#$%^&*()_+" ++ [8] ++
  [9] ++ ascii "QWERTYUIOP\x7b\x7d" ++ [10, 0] ++
  ascii "ASDFGHJKL:\"~" ++ [0] ++ ascii "|Z" ++
  ascii "XCVBNM<>?" ++ [0] ++ ascii "*" ++ [0] ++ ascii " " ++ [0, 0] ++
  List.replicate 15 0 ++
  [0, 0, 0] ++ ascii "-" ++ [0, 0, 0] ++ ascii "+"

/-- `keyboard_buffer`, `buffer_head`, `buffer_tail` and `shift_active`. -/
structure Keyboard where
  buffer : Fin 128 → UInt8
  head : Fin 128
  tail : Fin 128
  shiftActive : Bool

namespace Keyboard

def boot : Keyboard where
  buffer := fun _ => 0
  head := 0
  tail := 0
  shiftActive := false

/-- The characters from the tail up to the head. -/
def queued (k : Keyboard) : Bytes := Ring.contents k.buffer k.tail k.head

@[simp] theorem queued_boot : boot.queued = [] := Ring.contents_self _ _

end Keyboard

/-- `(i + 1) % KEYBOARD_BUFFER_SIZE` -/
def nextIndex (i : Fin 128) : Fin 128 := Ring.advance i 1

/-- `buffer_push` -/
def bufferPush (k : Keyboard) (c : UInt8) : Keyboard :=
  if nextIndex k.head = k.tail then k
  else { k with buffer := Function.update k.buffer k.head c, head := nextIndex k.head }

/-- The table entry for the scancode of a key press. -/
def translate (k : Keyboard) (scancode : UInt8) : UInt8 :=
  if k.shiftActive then keymapShift.getD scancode.toNat 0 else keymap.getD scancode.toNat 0

/-- `keyboard_callback` with the scancode read from port 0x60. -/
def keyboardCallback (k : Keyboard) (scancode : UInt8) : Keyboard :=
  if scancode &&& 0x80 ≠ 0 then
    let released := scancode &&& 0x7F
    if released = 42 ∨ released = 54 then { k with shiftActive := false } else k
  else if scancode = 42 ∨ scancode = 54 then { k with shiftActive := true }
  else
    let translated := translate k scancode
    if translated ≠ 0 then bufferPush k translated else k

/-- `keyboard_has_char` -/
def keyboardHasChar (k : Keyboard) : Bool := k.head != k.tail

/-- The character that a scancode hands to `buffer_push`. -/
def pressed (k : Keyboard) (scancode : UInt8) : Option UInt8 :=
  if scancode &&& 0x80 ≠ 0 ∨ scancode = 42 ∨ scancode = 54 ∨ translate k scancode = 0 then none
  else some (translate k scancode)

theorem pressed_ne_zero {k : Keyboard} {scancode c : UInt8} (h : pressed k scancode = some c) :
    c ≠ 0 := by
  unfold pressed at h
  split at h
  · nomatch h
  · rintro rfl
    simp_all

/-- A shift key or a release touches the shift state alone, a key press pushes its character. -/
theorem keyboardCallback_cases (k : Keyboard) (scancode : UInt8) :
    (pressed k scancode = none ∧
      ∃ shift, keyboardCallback k scancode = { k with shiftActive := shift }) ∨
    ∃ c, pressed k scancode = some c ∧ keyboardCallback k scancode = bufferPush k c := by
  by_cases hrelease : scancode &&& 0x80 ≠ 0
  · left
    refine ⟨by simp [pressed, hrelease], ?_⟩
    simp only [keyboardCallback, if_pos hrelease]
    split
    · exact ⟨false, rfl⟩
    · exact ⟨k.shiftActive, rfl⟩
  by_cases hshift : scancode = 42 ∨ scancode = 54
  · left
    refine ⟨?_, true, ?_⟩
    · simp only [pressed]
      rw [if_pos (by tauto)]
    · simp only [keyboardCallback, if_neg hrelease, if_pos hshift]
  by_cases hzero : translate k scancode = 0
  · left
    refine ⟨by simp [pressed, hzero], k.shiftActive, ?_⟩
    simp [keyboardCallback, hrelease, hshift, hzero]
  · right
    refine ⟨translate k scancode, ?_, ?_⟩
    · simp only [pressed]
      rw [if_neg (by tauto)]
    · simp [keyboardCallback, hrelease, hshift, hzero]

/-! ## The queue -/

theorem keyboardHasChar_iff (k : Keyboard) : keyboardHasChar k = true ↔ k.queued ≠ [] := by
  rw [keyboardHasChar, bne_iff_ne, Keyboard.queued, Ne, Ne, Ring.contents_eq_nil_iff]
  exact not_congr eq_comm

theorem nextIndex_eq_tail_iff (k : Keyboard) :
    nextIndex k.head = k.tail ↔ k.queued.length = 127 := by
  rw [nextIndex, Keyboard.queued, Ring.advance_one_eq_iff, Ring.length_contents]
  omega

theorem queued_bufferPush (k : Keyboard) (c : UInt8) :
    (bufferPush k c).queued = if k.queued.length = 127 then k.queued else k.queued ++ [c] := by
  unfold bufferPush
  simp only [nextIndex_eq_tail_iff]
  split
  · rfl
  · rename_i h
    exact Ring.contents_push _ ((nextIndex_eq_tail_iff k).not.mpr h) c

/-! ## The reader -/

/-- The next statement of `keyboard_getchar`. -/
inductive Getchar where
  /-- the test of `buffer_head == buffer_tail` -/
  | idle
  /-- `char c = keyboard_buffer[buffer_tail]` -/
  | copy
  /-- `buffer_tail = (buffer_tail + 1) % KEYBOARD_BUFFER_SIZE` -/
  | advance (c : UInt8)
  /-- `return c` -/
  | result (c : UInt8)
  deriving DecidableEq

/-- The character that has left the buffer and has not been returned yet. -/
def Getchar.taken : Getchar → Bytes
  | .result c => [c]
  | _ => []

/-- `accepted` lists the characters that `buffer_push` has stored, `returned` the results of
`keyboard_getchar`, zero when there was nothing to read. -/
structure KeyboardSystem where
  keyboard : Keyboard
  reader : Getchar
  accepted : Bytes
  returned : Bytes

namespace KeyboardSystem

def boot : KeyboardSystem where
  keyboard := .boot
  reader := .idle
  accepted := []
  returned := []

/-- The characters that `keyboard_getchar` has returned. -/
def characters (s : KeyboardSystem) : Bytes := s.returned.filter (· != 0)

end KeyboardSystem

inductive KeyboardOp where
  | interrupt (scancode : UInt8)
  /-- a call of `keyboard_has_char` -/
  | hasChar
  /-- the next statement of `keyboard_getchar` -/
  | getchar
  deriving DecidableEq

def interruptStep (s : KeyboardSystem) (scancode : UInt8) : KeyboardSystem :=
  { s with
    keyboard := keyboardCallback s.keyboard scancode
    accepted :=
      if nextIndex s.keyboard.head = s.keyboard.tail then s.accepted
      else s.accepted ++ (pressed s.keyboard scancode).toList }

def getcharStep (s : KeyboardSystem) : KeyboardSystem :=
  match s.reader with
  | .idle =>
      if s.keyboard.head = s.keyboard.tail then { s with returned := s.returned ++ [0] }
      else { s with reader := .copy }
  | .copy => { s with reader := .advance (s.keyboard.buffer s.keyboard.tail) }
  | .advance c =>
      { s with
        keyboard := { s.keyboard with tail := nextIndex s.keyboard.tail }
        reader := .result c }
  | .result c => { s with reader := .idle, returned := s.returned ++ [c] }

def keyboardStep (s : KeyboardSystem) : KeyboardOp → KeyboardSystem
  | .interrupt scancode => interruptStep s scancode
  | .hasChar => s
  | .getchar => getcharStep s

/-! ## Conservation -/

/-- What holds at each statement of the reader. -/
structure Conserves (s : KeyboardSystem) : Prop where
  conserved : s.accepted = s.characters ++ s.reader.taken ++ s.keyboard.queued
  nonzero : ∀ c ∈ s.accepted, c ≠ 0
  copy : s.reader = .copy → s.keyboard.queued ≠ []
  front : ∀ c, s.reader = .advance c → s.keyboard.queued.head? = some c

theorem conserves_boot : Conserves .boot where
  conserved := rfl
  nonzero := by simp [KeyboardSystem.boot]
  copy := by simp [KeyboardSystem.boot]
  front := by simp [KeyboardSystem.boot]

/-- An interrupt appends the same characters to the accepted ones and to the queue. -/
theorem interruptStep_appends (s : KeyboardSystem) (scancode : UInt8) :
    ∃ more : Bytes, (interruptStep s scancode).accepted = s.accepted ++ more ∧
      (interruptStep s scancode).keyboard.queued = s.keyboard.queued ++ more ∧
      ∀ c ∈ more, c ≠ 0 := by
  rcases keyboardCallback_cases s.keyboard scancode with ⟨hnone, shift, hcall⟩ | ⟨c, hsome, hcall⟩
  · refine ⟨[], ?_, ?_, by simp⟩
    · simp [interruptStep, hnone]
    · simp [interruptStep, hcall, Keyboard.queued]
  · by_cases hfull : s.keyboard.queued.length = 127
    · refine ⟨[], ?_, ?_, by simp⟩
      · simp [interruptStep, nextIndex_eq_tail_iff, hfull]
      · simp [interruptStep, hcall, queued_bufferPush, hfull]
    · refine ⟨[c], ?_, ?_, ?_⟩
      · simp [interruptStep, nextIndex_eq_tail_iff, hfull, hsome]
      · simp [interruptStep, hcall, queued_bufferPush, hfull]
      · simpa using pressed_ne_zero hsome

theorem Conserves.interruptStep {s : KeyboardSystem} (h : Conserves s) (scancode : UInt8) :
    Conserves (interruptStep s scancode) := by
  obtain ⟨more, haccepted, hqueued, hmore⟩ := interruptStep_appends s scancode
  refine ⟨?_, ?_, ?_, ?_⟩
  · rw [haccepted, hqueued, h.conserved]
    simp [X86.interruptStep, KeyboardSystem.characters]
  · intro c hc
    rw [haccepted, List.mem_append] at hc
    exact hc.elim (h.nonzero c) (hmore c)
  · intro hcopy
    rw [hqueued]
    simp [h.copy hcopy]
  · intro c hc
    rw [hqueued, List.head?_append, h.front c hc]
    rfl

theorem queued_pop {k : Keyboard} {c : UInt8} (h : k.queued.head? = some c) :
    k.queued = c :: { k with tail := nextIndex k.tail }.queued := by
  have hne : k.tail ≠ k.head := by
    intro heq
    simp [Keyboard.queued, heq] at h
  have hpop := Ring.contents_pop k.buffer hne
  rw [Keyboard.queued, hpop, List.head?_cons, Option.some.injEq] at h
  rw [← h]
  exact hpop

theorem Conserves.getcharStep {s : KeyboardSystem} (h : Conserves s) :
    Conserves (getcharStep s) := by
  cases hreader : s.reader with
  | idle =>
    simp only [X86.getcharStep, hreader]
    split
    · refine ⟨?_, h.nonzero, by simp, by simp⟩
      rw [h.conserved]
      simp [KeyboardSystem.characters, hreader]
    · rename_i hne
      refine ⟨?_, h.nonzero, fun _ => ?_, by simp⟩
      · rw [h.conserved]
        simp [KeyboardSystem.characters, hreader, Getchar.taken]
      · exact fun hnil => hne (Ring.contents_eq_nil_iff.mp hnil).symm
  | copy =>
    simp only [X86.getcharStep, hreader]
    refine ⟨?_, h.nonzero, by simp, ?_⟩
    · rw [h.conserved]
      simp [KeyboardSystem.characters, hreader, Getchar.taken]
    · rintro c hc
      have hne : s.keyboard.tail ≠ s.keyboard.head :=
        fun heq => h.copy hreader (Ring.contents_eq_nil_iff.mpr heq)
      injection hc with hc
      rw [Keyboard.queued, Ring.contents_pop _ hne, hc]
      rfl
  | advance c =>
    simp only [X86.getcharStep, hreader]
    refine ⟨?_, h.nonzero, by simp, by simp⟩
    rw [h.conserved, queued_pop (h.front c hreader)]
    simp [KeyboardSystem.characters, hreader, Getchar.taken]
  | result c =>
    simp only [X86.getcharStep, hreader]
    have hc : c ≠ 0 := by
      apply h.nonzero
      rw [h.conserved]
      simp [hreader, Getchar.taken]
    refine ⟨?_, h.nonzero, by simp, by simp⟩
    rw [h.conserved]
    simp [KeyboardSystem.characters, hreader, Getchar.taken, hc]

theorem Conserves.step (s : KeyboardSystem) (op : KeyboardOp) (h : Conserves s) :
    Conserves (keyboardStep s op) := by
  cases op with
  | interrupt scancode => exact h.interruptStep scancode
  | hasChar => exact h
  | getchar => exact h.getcharStep

theorem conserves_run (ops : List KeyboardOp) : Conserves (run keyboardStep .boot ops) :=
  run_invariant Conserves.step conserves_boot ops

/-! ## One call of the reader -/

/-- Interrupts leave the reader where it is and only append to the queue. -/
theorem run_interrupts (s : KeyboardSystem) (scancodes : List UInt8) :
    ∃ more : Bytes, (run keyboardStep s (scancodes.map .interrupt)).reader = s.reader ∧
      (run keyboardStep s (scancodes.map .interrupt)).returned = s.returned ∧
      (run keyboardStep s (scancodes.map .interrupt)).keyboard.queued =
        s.keyboard.queued ++ more := by
  induction scancodes generalizing s with
  | nil => exact ⟨[], rfl, rfl, (List.append_nil _).symm⟩
  | cons scancode scancodes ih =>
    obtain ⟨more, -, hqueued, -⟩ := interruptStep_appends s scancode
    obtain ⟨later, hreader, hreturned, hlater⟩ := ih (interruptStep s scancode)
    refine ⟨more ++ later, hreader, hreturned, ?_⟩
    rw [← List.append_assoc, ← hqueued]
    exact hlater

theorem getcharStep_idle {s : KeyboardSystem} (h : s.reader = .idle)
    (hne : s.keyboard.queued ≠ []) : getcharStep s = { s with reader := .copy } := by
  have htest : s.keyboard.head ≠ s.keyboard.tail :=
    fun heq => hne (Ring.contents_eq_nil_iff.mpr heq.symm)
  simp [getcharStep, h, htest]

theorem getcharStep_copy {s : KeyboardSystem} (h : s.reader = .copy) {c : UInt8}
    (hc : s.keyboard.queued.head? = some c) : getcharStep s = { s with reader := .advance c } := by
  have hne : s.keyboard.tail ≠ s.keyboard.head := by
    intro heq
    simp [Keyboard.queued, heq] at hc
  rw [Keyboard.queued, Ring.contents_pop _ hne, List.head?_cons, Option.some.injEq] at hc
  simp [getcharStep, h, hc]

/-- A call that finds the queue non-empty returns its first character, whatever interrupts land
between its statements. -/
theorem getchar_returns_front {s : KeyboardSystem} (hidle : s.reader = .idle) {c : UInt8}
    (hc : s.keyboard.queued.head? = some c) (first second third : List UInt8) :
    (run keyboardStep s (.getchar :: first.map .interrupt ++ .getchar :: second.map .interrupt ++
      .getchar :: third.map .interrupt ++ [.getchar])).returned = s.returned ++ [c] := by
  have hne : s.keyboard.queued ≠ [] := by
    intro hnil
    simp [hnil] at hc
  obtain ⟨more₁, hreader₁, hreturned₁, hqueued₁⟩ :=
    run_interrupts { s with reader := .copy } first
  generalize hs₁ : run keyboardStep { s with reader := .copy } (first.map .interrupt) = s₁
    at hreader₁ hreturned₁ hqueued₁
  have hc₁ : s₁.keyboard.queued.head? = some c := by
    rw [hqueued₁, List.head?_append, hc]
    rfl
  obtain ⟨more₂, hreader₂, hreturned₂, hqueued₂⟩ :=
    run_interrupts { s₁ with reader := .advance c } second
  generalize hs₂ : run keyboardStep { s₁ with reader := .advance c } (second.map .interrupt) = s₂
    at hreader₂ hreturned₂ hqueued₂
  obtain ⟨more₃, hreader₃, hreturned₃, -⟩ := run_interrupts (getcharStep s₂) third
  generalize hs₃ : run keyboardStep (getcharStep s₂) (third.map .interrupt) = s₃
    at hreader₃ hreturned₃
  have hlast : getcharStep s₂ = { s₂ with
      keyboard := { s₂.keyboard with tail := nextIndex s₂.keyboard.tail }, reader := .result c } := by
    simp [getcharStep, hreader₂]
  simp only [List.cons_append, List.append_assoc, run_cons, run_append, keyboardStep, run_nil]
  rw [getcharStep_idle hidle hne, hs₁, getcharStep_copy hreader₁ hc₁, hs₂, hs₃]
  rw [hlast] at hreader₃ hreturned₃
  simp [getcharStep, hreader₃, hreturned₃, hreturned₂, hreturned₁]

/-! ## The queue is first in, first out -/

/-- What a state of the keyboard owes its reader: nothing accepted is lost, repeated or invented, a
character is refused exactly while 127 are queued, and a call returns the character at the front of
the queue, or zero when the queue is empty. -/
structure KeyboardFifo (s : KeyboardSystem) : Prop where
  conserved : s.accepted = s.characters ++ s.reader.taken ++ s.keyboard.queued
  hasChar : keyboardHasChar s.keyboard = true ↔ s.keyboard.queued ≠ []
  interrupt : ∀ scancode, (keyboardStep s (.interrupt scancode)).accepted =
    if s.keyboard.queued.length = 127 then s.accepted
    else s.accepted ++ (pressed s.keyboard scancode).toList
  empty : s.reader = .idle → s.keyboard.queued = [] →
    keyboardStep s .getchar = { s with returned := s.returned ++ [0] }
  getchar : ∀ c, s.reader = .idle → s.keyboard.queued.head? = some c →
    ∀ first second third : List UInt8,
      (run keyboardStep s (.getchar :: first.map .interrupt ++
        .getchar :: second.map .interrupt ++ .getchar :: third.map .interrupt ++
        [.getchar])).returned = s.returned ++ [c]

theorem keyboard_fifo (ops : List KeyboardOp) :
    KeyboardFifo (run keyboardStep .boot ops) where
  conserved := (conserves_run ops).conserved
  hasChar := keyboardHasChar_iff _
  interrupt scancode := by
    simp only [keyboardStep, interruptStep, nextIndex_eq_tail_iff]
  empty hidle hnil := by
    have htest := Ring.contents_eq_nil_iff.mp hnil
    simp [keyboardStep, getcharStep, hidle, htest]
  getchar _ hidle hc := getchar_returns_front hidle hc

/-! ## The shift keys -/

/-- The scancodes of a key: the first one also repeats while it is held. -/
def makeCode (key : Fin 128) : UInt8 := UInt8.ofNat key

def breakCode (key : Fin 128) : UInt8 := UInt8.ofNat key ||| 0x80

theorem makeCode_toNat : ∀ key : Fin 128, (makeCode key).toNat = key := by
  decide

theorem makeCode_facts : ∀ key : Fin 128, makeCode key &&& 0x80 = 0 ∧
    (makeCode key = 42 ↔ key = 42) ∧ (makeCode key = 54 ↔ key = 54) := by
  decide

theorem breakCode_facts : ∀ key : Fin 128, breakCode key &&& 0x80 ≠ 0 ∧
    (breakCode key &&& 0x7F = 42 ↔ key = 42) ∧ (breakCode key &&& 0x7F = 54 ↔ key = 54) := by
  decide

inductive KeyEvent where
  | make (key : Fin 128)
  | release (key : Fin 128)
  deriving DecidableEq

/-- The driver and the keys that are held. -/
structure HeldKeys where
  keyboard : Keyboard
  held : Fin 128 → Bool

namespace HeldKeys

def boot : HeldKeys := ⟨.boot, fun _ => false⟩

def shiftHeld (s : HeldKeys) : Bool := s.held 42 || s.held 54

end HeldKeys

def keyEventStep (s : HeldKeys) : KeyEvent → HeldKeys
  | .make key => ⟨keyboardCallback s.keyboard (makeCode key), Function.update s.held key true⟩
  | .release key => ⟨keyboardCallback s.keyboard (breakCode key), Function.update s.held key false⟩

/-- Only a key that is held is released. -/
def Physical (s : HeldKeys) : KeyEvent → Prop
  | .make _ => True
  | .release key => s.held key = true

/-- A shift key is not released while the other one is held. -/
def LastShift (s : HeldKeys) : KeyEvent → Prop
  | .make _ => True
  | .release key => (key = 42 → s.held 54 = false) ∧ (key = 54 → s.held 42 = false)

/-- The shift state is that of the keys, and a key gives the character of their case. -/
structure ShiftMatches (s : HeldKeys) : Prop where
  active : s.keyboard.shiftActive = s.shiftHeld
  character : ∀ key, translate s.keyboard (makeCode key) =
    (if s.shiftHeld then keymapShift else keymap).getD key 0

theorem shiftMatches_iff (s : HeldKeys) :
    ShiftMatches s ↔ s.keyboard.shiftActive = s.shiftHeld := by
  refine ⟨ShiftMatches.active, fun h => ⟨h, fun key => ?_⟩⟩
  rw [translate, h, makeCode_toNat]
  split <;> rfl

theorem shiftActive_bufferPush (k : Keyboard) (c : UInt8) :
    (bufferPush k c).shiftActive = k.shiftActive := by
  rw [bufferPush]
  split <;> rfl

theorem shiftActive_make (k : Keyboard) (key : Fin 128) :
    (keyboardCallback k (makeCode key)).shiftActive =
      (k.shiftActive || key == 42 || key == 54) := by
  obtain ⟨hmake, h42, h54⟩ := makeCode_facts key
  simp only [keyboardCallback, hmake, h42, h54, ne_eq, not_true_eq_false, if_false]
  by_cases hshift : key = 42 ∨ key = 54
  · rw [if_pos hshift]
    rcases hshift with rfl | rfl <;> simp
  · have hother : (key == 42 || key == 54) = false := by simpa using hshift
    rw [if_neg hshift, Bool.or_assoc, hother, Bool.or_false]
    split
    · exact shiftActive_bufferPush k _
    · rfl

theorem shiftActive_release (k : Keyboard) (key : Fin 128) :
    (keyboardCallback k (breakCode key)).shiftActive =
      (k.shiftActive && !(key == 42 || key == 54)) := by
  obtain ⟨hbreak, h42, h54⟩ := breakCode_facts key
  simp only [keyboardCallback, hbreak, h42, h54, ne_eq, not_false_eq_true, if_true]
  by_cases hshift : key = 42 ∨ key = 54
  · rw [if_pos hshift]
    rcases hshift with rfl | rfl <;> simp
  · have hother : (key == 42 || key == 54) = false := by simpa using hshift
    rw [if_neg hshift, hother, Bool.not_false, Bool.and_true]

/-- The release of a shift key while the other one is held is all that parts the two. -/
theorem shiftMatches_step (s : HeldKeys) (event : KeyEvent) (h : ShiftMatches s) :
    ShiftMatches (keyEventStep s event) ↔ LastShift s event := by
  have hactive : s.keyboard.shiftActive = (s.held 42 || s.held 54) := h.active
  rw [shiftMatches_iff]
  cases event with
  | make key =>
    simp only [keyEventStep, HeldKeys.shiftHeld, shiftActive_make, hactive, LastShift,
      Function.update_apply]
    by_cases h42 : key = 42
    · simp [h42]
    · by_cases h54 : key = 54
      · simp [h54]
      · have hnot42 : (key == 42) = false := by simpa using h42
        have hnot54 : (key == 54) = false := by simpa using h54
        simp [hnot42, hnot54, Ne.symm h42, Ne.symm h54]
  | release key =>
    simp only [keyEventStep, HeldKeys.shiftHeld, shiftActive_release, hactive, LastShift,
      Function.update_apply]
    by_cases h42 : key = 42
    · simp [h42]
    · by_cases h54 : key = 54
      · simp [h54]
      · simp [h42, h54, Ne.symm h42, Ne.symm h54]

/-- Exactly the runs that release a shift key only while the other one is up keep the shift state
that of the keys after each interrupt. -/
theorem shiftMatches_iff_guarded (events : List KeyEvent) :
    (∀ before after, events = before ++ after → ShiftMatches (run keyEventStep .boot before)) ↔
      Guarded keyEventStep LastShift .boot events :=
  run_prefixes_iff_guarded (J := fun _ => True) (fun _ _ _ _ => trivial)
    (fun s event _ h => shiftMatches_step s event h) trivial ((shiftMatches_iff _).mpr rfl) events

/-- Both shift keys are pressed and the left one is released. -/
theorem not_shiftMatches :
    Guarded keyEventStep Physical .boot [.make 42, .make 54, .release 42] ∧
      (run keyEventStep .boot [.make 42, .make 54, .release 42]).held 54 = true ∧
      ¬ ShiftMatches (run keyEventStep .boot [.make 42, .make 54, .release 42]) := by
  refine ⟨⟨trivial, trivial, rfl, trivial⟩, rfl, fun h => ?_⟩
  have hactive := h.active
  cases hactive

end SnsxOS.X86
