import Mathlib.Data.List.Basic
import Mathlib.Tactic

/-!
# A text with a cursor

A text is kept as what is before the cursor and what is behind it. The operations of an editor
change the ends that meet at the cursor; the moves leave the text as it is.
-/

namespace SnsxOS.Framework

structure TextBuffer (α : Type*) where
  before : List α
  after : List α
  deriving DecidableEq

namespace TextBuffer

variable {α : Type*}

def text (t : TextBuffer α) : List α := t.before ++ t.after

/-- The cursor behind a number of characters of a text. -/
def cutAt (text : List α) (index : Nat) : TextBuffer α := ⟨text.take index, text.drop index⟩

/-- A text that has `limit` characters takes no more. -/
def insert (limit : Nat) (t : TextBuffer α) (a : α) : TextBuffer α :=
  if t.text.length < limit then ⟨t.before ++ [a], t.after⟩ else t

def backspace (t : TextBuffer α) : TextBuffer α := ⟨t.before.dropLast, t.after⟩

def delete (t : TextBuffer α) : TextBuffer α := ⟨t.before, t.after.tail⟩

def left (t : TextBuffer α) : TextBuffer α :=
  ⟨t.before.dropLast, t.before.getLast?.toList ++ t.after⟩

def right (t : TextBuffer α) : TextBuffer α :=
  ⟨t.before ++ t.after.head?.toList, t.after.tail⟩

def home (t : TextBuffer α) : TextBuffer α := ⟨[], t.text⟩

def toEnd (t : TextBuffer α) : TextBuffer α := ⟨t.text, []⟩

def moveTo (t : TextBuffer α) (index : Nat) : TextBuffer α := cutAt t.text index

@[simp] theorem text_cutAt (text : List α) (index : Nat) : (cutAt text index).text = text :=
  List.take_append_drop index text

@[simp] theorem text_left (t : TextBuffer α) : t.left.text = t.text := by
  rw [left, text, text, ← List.append_assoc]
  congr 1
  cases t.before using List.reverseRecOn with
  | nil => rfl
  | append_singleton before a => simp

@[simp] theorem text_right (t : TextBuffer α) : t.right.text = t.text := by
  rw [right, text, text, List.append_assoc]
  congr 1
  cases t.after with
  | nil => rfl
  | cons a after => rfl

@[simp] theorem text_home (t : TextBuffer α) : t.home.text = t.text := rfl

@[simp] theorem text_toEnd (t : TextBuffer α) : t.toEnd.text = t.text := List.append_nil _

@[simp] theorem text_moveTo (t : TextBuffer α) (index : Nat) : (t.moveTo index).text = t.text :=
  text_cutAt t.text index

theorem length_text_insert (limit : Nat) (t : TextBuffer α) (a : α) :
    (t.insert limit a).text.length =
      if t.text.length < limit then t.text.length + 1 else t.text.length := by
  rw [insert]
  split
  · simp only [text, List.length_append, List.length_singleton]
    omega
  · rfl

end TextBuffer

end SnsxOS.Framework
