import Mathlib.Data.List.Basic
import Mathlib.Tactic

/-!
# A line of typed characters

A line grows at its end, by a character while there is room for it, and loses its last character to
an erase key. A device shows the line when it takes a character at the end and takes it back.
-/

namespace SnsxOS.Framework

/-- What a key does to the line that is typed. -/
inductive LineKey (α : Type*) where
  | char (a : α)
  | erase
  | other

variable {α τ : Type*}

def editLine (limit : Nat) (text : List α) : LineKey α → List α
  | .char a => if text.length < limit then text ++ [a] else text
  | .erase => text.dropLast
  | .other => text

/-- The line that keys make of a text. -/
def editedLine (limit : Nat) (text : List α) (keys : List (LineKey α)) : List α :=
  keys.foldl (editLine limit) text

@[simp] theorem editedLine_nil (limit : Nat) (text : List α) : editedLine limit text [] = text :=
  rfl

theorem editedLine_append (limit : Nat) (text : List α) (keys keys' : List (LineKey α)) :
    editedLine limit text (keys ++ keys') =
      editedLine limit (editedLine limit text keys) keys' :=
  List.foldl_append

theorem editedLine_concat (limit : Nat) (text : List α) (keys : List (LineKey α))
    (key : LineKey α) :
    editedLine limit text (keys ++ [key]) = editLine limit (editedLine limit text keys) key :=
  List.foldl_concat _ _ _ _

theorem length_editLine_le {limit : Nat} {text : List α} (h : text.length ≤ limit)
    (key : LineKey α) : (editLine limit text key).length ≤ limit := by
  cases key with
  | char a =>
    rw [editLine]
    split
    · rw [List.length_append, List.length_singleton]
      omega
    · exact h
  | erase =>
    rw [editLine, List.length_dropLast]
    omega
  | other => exact h

theorem length_editedLine_le {limit : Nat} {text : List α} (h : text.length ≤ limit)
    (keys : List (LineKey α)) : (editedLine limit text keys).length ≤ limit := by
  induction keys generalizing text with
  | nil => exact h
  | cons key keys ih => exact ih (length_editLine_le h key)

/-- Characters that the line has room for are the end of it. -/
theorem editedLine_chars {limit : Nat} {text chars : List α}
    (h : text.length + chars.length ≤ limit) :
    editedLine limit text (chars.map .char) = text ++ chars := by
  induction chars generalizing text with
  | nil => exact (List.append_nil text).symm
  | cons a chars ih =>
    rw [List.length_cons] at h
    have hroom : text.length < limit := by omega
    have hstep : editLine limit text (.char a) = text ++ [a] := if_pos hroom
    have hrest : (text ++ [a]).length + chars.length ≤ limit := by
      rw [List.length_append, List.length_singleton]
      omega
    show editedLine limit (editLine limit text (.char a)) (chars.map .char) = text ++ a :: chars
    rw [hstep, ih hrest, List.append_assoc, List.singleton_append]

/-- A device on which a line is shown: it takes a character behind a line with room, and takes back
the last one. -/
structure Echoes (limit : Nat) (put : τ → α → Option τ) (erase : τ → Option τ)
    (Shows : List α → τ → Prop) : Prop where
  put : ∀ text t a, text.length < limit → Shows text t →
    ∃ t', put t a = some t' ∧ Shows (text ++ [a]) t'
  erase : ∀ text t a, text.length < limit → Shows (text ++ [a]) t →
    ∃ t', erase t = some t' ∧ Shows text t'

/-- The echo of a key on the device. -/
def echo (limit : Nat) (put : τ → α → Option τ) (erase : τ → Option τ) (text : List α) (t : τ) :
    LineKey α → Option τ
  | .char a => if text.length < limit then put t a else some t
  | .erase => if text = [] then some t else erase t
  | .other => some t

theorem Echoes.echo {limit : Nat} {put : τ → α → Option τ} {erase : τ → Option τ}
    {Shows : List α → τ → Prop} (h : Echoes limit put erase Shows) {text : List α} {t : τ}
    (hlength : text.length ≤ limit) (hshows : Shows text t) (key : LineKey α) :
    ∃ t', echo limit put erase text t key = some t' ∧ Shows (editLine limit text key) t' := by
  cases key with
  | char a =>
    rw [Framework.echo, editLine]
    split
    · rename_i hroom
      exact h.put text t a hroom hshows
    · exact ⟨t, rfl, hshows⟩
  | erase =>
    rw [Framework.echo, editLine]
    cases text using List.reverseRecOn with
    | nil => exact ⟨t, rfl, hshows⟩
    | append_singleton text a =>
      rw [List.length_append, List.length_singleton] at hlength
      rw [if_neg (by simp), List.dropLast_concat]
      exact h.erase text t a (by omega) hshows
  | other => exact ⟨t, rfl, hshows⟩

end SnsxOS.Framework
