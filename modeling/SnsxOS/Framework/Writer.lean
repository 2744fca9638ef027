import SnsxOS.Framework.Bytes

/-!
# Filling an array

Bytes are stored at an index of an array, or one group after the other at a moving index. A store
that would leave the array has no result, so that a result proves that none did.
-/

namespace SnsxOS.Framework

/-- Overwrite the bytes from an index on. -/
def store (cells : Bytes) (index : Nat) (bytes : Bytes) : Option Bytes :=
  if index + bytes.length ≤ cells.length then
    some (cells.take index ++ bytes ++ cells.drop (index + bytes.length))
  else none

theorem store_append_cons (front : Bytes) (byte old : UInt8) (rest : Bytes) :
    store (front ++ old :: rest) front.length [byte] = some (front ++ byte :: rest) := by
  have hfit : front.length + [byte].length ≤ (front ++ old :: rest).length := by
    simp only [List.length_append, List.length_cons, List.length_nil]
    omega
  rw [store, if_pos hfit, List.take_left, ← List.drop_drop, List.drop_left, List.append_assoc]
  rfl

theorem length_store {cells cells' bytes : Bytes} {index : Nat}
    (h : store cells index bytes = some cells') : cells'.length = cells.length := by
  rw [store] at h
  split at h
  · obtain rfl := Option.some.inj h
    simp only [List.length_append, List.length_take, List.length_drop]
    omega
  · cases h

/-- A store right behind another one continues it. -/
theorem store_store {cells cells' bytes more : Bytes} {index : Nat}
    (h : store cells index bytes = some cells') :
    store cells' (index + bytes.length) more = store cells index (bytes ++ more) := by
  rw [store] at h
  split at h
  · rename_i hfit
    obtain rfl := Option.some.inj h
    have htake : (cells.take index).length = index := by
      rw [List.length_take]
      omega
    have hlength : (cells.take index ++ bytes ++ cells.drop (index + bytes.length)).length =
        cells.length := by
      simp only [List.length_append, List.length_drop, htake]
      omega
    have hfront : (cells.take index ++ bytes).length = index + bytes.length := by
      rw [List.length_append, htake]
    rw [store, store, hlength, List.length_append, Nat.add_assoc]
    congr 2
    rw [← Nat.add_assoc, ← hfront, List.take_left, ← List.drop_drop, List.drop_left,
      List.drop_drop, hfront, List.append_assoc (cells.take index), Nat.add_assoc]
  · cases h

theorem store_nil {cells : Bytes} {index : Nat} (h : index ≤ cells.length) :
    store cells index [] = some cells := by
  simp [store, h]

/-- An array of `n` bytes that starts with a text and is zero behind it. -/
def padded (n : Nat) (text : Bytes) : Bytes := text ++ List.replicate (n - text.length) 0

/-- An array and the index at which the next byte goes. -/
structure Writer where
  cells : Bytes
  index : Nat
  deriving DecidableEq

def Writer.put (w : Writer) (bytes : Bytes) : Option Writer :=
  (store w.cells w.index bytes).map fun cells => ⟨cells, w.index + bytes.length⟩

/-- Put a group of bytes only where a condition holds. -/
def Writer.putIf (w : Writer) (p : Prop) [Decidable p] (bytes : Bytes) : Option Writer :=
  if p then w.put bytes else some w

/-- The writer that has put a text into a zeroed array of `n` bytes. -/
def Writer.behind (n : Nat) (text : Bytes) : Writer := ⟨padded n text, text.length⟩

section Padded

variable {n index : Nat} {text bytes : Bytes}

theorem padded_length (h : text.length ≤ n) : (padded n text).length = n := by
  rw [padded, List.length_append, List.length_replicate]
  omega

@[simp] theorem padded_nil (n : Nat) : padded n [] = List.replicate n 0 := by
  simp [padded]

theorem take_padded (n : Nat) (text : Bytes) : (padded n text).take text.length = text :=
  List.take_left

/-- A store behind the text moves its end; the bytes in between are zero. -/
theorem store_padded (htext : text.length ≤ index) (hfit : index + bytes.length ≤ n) :
    store (padded n text) index bytes =
      some (padded n (text ++ List.replicate (index - text.length) 0 ++ bytes)) := by
  have hlen : (padded n text).length = n := padded_length (by omega)
  have htake : (padded n text).take index =
      text ++ List.replicate (index - text.length) 0 := by
    rw [padded, List.take_append, List.take_of_length_le htext, List.take_replicate]
    congr 2
    omega
  have hdrop : (padded n text).drop (index + bytes.length) =
      List.replicate (n - (index + bytes.length)) 0 := by
    rw [padded, List.drop_append, List.drop_eq_nil_of_le (by omega), List.nil_append,
      List.drop_replicate]
    congr 1
    omega
  rw [store, if_pos (hlen.symm ▸ hfit), htake, hdrop, padded]
  congr 3
  simp only [List.length_append, List.length_replicate]
  omega

/-- Zeros behind the text are there already. -/
theorem padded_replicate {k : Nat} (h : text.length + k ≤ n) :
    padded n (text ++ List.replicate k 0) = padded n text := by
  rw [padded, padded, List.append_assoc, List.length_append, List.length_replicate,
    ← List.replicate_add]
  congr 2
  omega

theorem store_eq_none_iff {cells : Bytes} :
    store cells index bytes = none ↔ cells.length < index + bytes.length := by
  rw [store]
  split
  · simp only [reduceCtorEq, false_iff]
    omega
  · simp only [true_iff]
    omega

theorem Writer.put_behind (hfit : text.length + bytes.length ≤ n) :
    (Writer.behind n text).put bytes = some (Writer.behind n (text ++ bytes)) := by
  rw [put, behind, store_padded le_rfl hfit, Nat.sub_self, List.replicate_zero,
    List.append_nil, Option.map_some, behind, List.length_append]

theorem Writer.putIf_behind (p : Prop) [Decidable p] (hfit : text.length + bytes.length ≤ n) :
    (Writer.behind n text).putIf p bytes =
      some (Writer.behind n (text ++ if p then bytes else [])) := by
  rw [putIf]
  split
  · exact put_behind hfit
  · rw [List.append_nil]

theorem length_ite_le (p : Prop) [Decidable p] (bytes : Bytes) :
    (if p then bytes else []).length ≤ bytes.length := by
  split
  · exact le_rfl
  · exact Nat.zero_le _

theorem Writer.put_behind_of_lt (htext : text.length ≤ n) (h : n < text.length + bytes.length) :
    (Writer.behind n text).put bytes = none := by
  rw [put, behind, store_eq_none_iff.mpr (by rwa [padded_length htext]), Option.map_none]

end Padded

section Concatenation

variable {n : Nat}

/-- Texts appended by `strcat` one after another. There is no result where one does not fit. -/
def Buffer.strcatAll (b : Buffer n) : List Bytes → Option (Buffer n)
  | [] => some b
  | text :: texts =>
      if b.str.length + text.length + 1 ≤ n then (b.strcat text).strcatAll texts else none

theorem Buffer.strcatAll_str (b : Buffer n) {texts : List Bytes}
    (hnul : ∀ text ∈ texts, NulFree text)
    (hfit : b.str.length + texts.flatten.length + 1 ≤ n) :
    ∃ b', b.strcatAll texts = some b' ∧ b'.str = b.str ++ texts.flatten := by
  induction texts generalizing b with
  | nil => exact ⟨b, rfl, (List.append_nil _).symm⟩
  | cons text texts ih =>
    rw [List.flatten_cons, List.length_append] at hfit
    have hroom : b.str.length + text.length + 1 ≤ n := by omega
    have hstr := b.str_strcat (hnul text List.mem_cons_self) hroom
    have hrest : (b.strcat text).str.length + texts.flatten.length + 1 ≤ n := by
      rw [hstr, List.length_append]
      omega
    obtain ⟨b', hrun, hb'⟩ := ih _ (fun text ht => hnul text (List.mem_cons_of_mem _ ht)) hrest
    refine ⟨b', ?_, ?_⟩
    · rw [strcatAll, if_pos hroom, hrun]
    · rw [hb', hstr, List.flatten_cons, List.append_assoc]

/-- `buffer[0] = '\0'` -/
def Buffer.empty (b : Buffer n) : Buffer n := b.write 0 [0]

theorem Buffer.str_empty (b : Buffer n) (h : 0 < n) : b.empty.str = [] := by
  rw [str, empty, b.cells_write (by simpa using Nat.succ_le_of_lt h)]
  rfl

end Concatenation

end SnsxOS.Framework
