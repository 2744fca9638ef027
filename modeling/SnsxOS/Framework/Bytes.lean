import Mathlib.Data.List.Basic
import Mathlib.Data.List.TakeWhile
import Mathlib.Tactic

/-!
# Byte strings in fixed buffers

A C string is the run of bytes before the first zero of the memory it lies in. A buffer is
memory of a fixed size. Writing keeps the size, a string written with its terminator is read
back unchanged, and bytes outside the written range keep their value.
-/

namespace SnsxOS.Framework

abbrev Bytes := List UInt8

/-- The bytes of an ASCII literal. -/
def ascii (text : String) : Bytes := text.toList.map fun c => UInt8.ofNat c.toNat

/-- A property of bytes that holds of all 256 numbers. -/
theorem forall_byte {p : UInt8 → Prop} (h : ∀ n < 256, p (UInt8.ofNat n)) (c : UInt8) : p c := by
  have hc := h c.toNat c.toNat_lt
  rwa [UInt8.ofNat_toNat] at hc

theorem bne_of_not_mem {s : Bytes} {sep : UInt8} (h : sep ∉ s) : ∀ c ∈ s, (c != sep) = true := by
  intro c hc
  have hne : c ≠ sep := fun he => h (he ▸ hc)
  simpa using hne

section Scan

variable {α : Type*} {p : α → Bool} {front : List α} {stop : α}

/-- A scan ends at the first element that it does not take. -/
theorem takeWhile_append_stop (hfront : ∀ a ∈ front, p a = true) (hstop : ¬ p stop = true)
    (rest : List α) : (front ++ stop :: rest).takeWhile p = front := by
  rw [List.takeWhile_append_of_pos hfront, List.takeWhile_cons_of_neg hstop, List.append_nil]

theorem dropWhile_append_stop (hfront : ∀ a ∈ front, p a = true) (hstop : ¬ p stop = true)
    (rest : List α) : (front ++ stop :: rest).dropWhile p = stop :: rest := by
  rw [List.dropWhile_append_of_pos hfront, List.dropWhile_cons_of_neg hstop]

end Scan

/-- The text in front of the first separator. -/
theorem takeWhile_append_sep {s : Bytes} {sep : UInt8} (h : sep ∉ s) (rest : Bytes) :
    (s ++ sep :: rest).takeWhile (· != sep) = s :=
  takeWhile_append_stop (bne_of_not_mem h) (by simp) rest

theorem dropWhile_append_sep {s : Bytes} {sep : UInt8} (h : sep ∉ s) (rest : Bytes) :
    (s ++ sep :: rest).dropWhile (· != sep) = sep :: rest :=
  dropWhile_append_stop (bne_of_not_mem h) (by simp) rest

/-- The list holds no terminator, so it is the whole content of a C string. -/
def NulFree (s : Bytes) : Prop := (0 : UInt8) ∉ s

instance : DecidablePred NulFree := fun s => inferInstanceAs (Decidable ((0 : UInt8) ∉ s))

theorem NulFree.append {s t : Bytes} (hs : NulFree s) (ht : NulFree t) : NulFree (s ++ t) := by
  intro h
  rcases List.mem_append.mp h with h | h
  · exact hs h
  · exact ht h

theorem NulFree.mono {s t : Bytes} (ht : NulFree t) (h : s ⊆ t) : NulFree s :=
  fun hm => ht (h hm)

theorem NulFree.take {s : Bytes} (hs : NulFree s) (n : Nat) : NulFree (s.take n) :=
  hs.mono (List.take_subset n s)

theorem NulFree.drop {s : Bytes} (hs : NulFree s) (n : Nat) : NulFree (s.drop n) :=
  hs.mono (List.drop_subset n s)

/-- The C string that starts at the head of the memory. -/
def cString (cells : Bytes) : Bytes := cells.takeWhile (· != 0)

theorem cString_nulFree (cells : Bytes) : NulFree (cString cells) := by
  intro h
  have hp := List.mem_takeWhile_imp h
  simp at hp

theorem cString_length_le (cells : Bytes) : (cString cells).length ≤ cells.length :=
  (List.takeWhile_prefix _).length_le

theorem cString_append_nul {s : Bytes} (hs : NulFree s) (rest : Bytes) :
    cString (s ++ 0 :: rest) = s := by
  induction s with
  | nil => simp [cString]
  | cons a s ih =>
    have ha : a ≠ 0 := fun h => hs (by simp [h])
    have ht : NulFree s := hs.mono (List.subset_cons_self a s)
    have hr := ih ht
    simp only [cString] at hr ⊢
    simp [ha, hr]

theorem cString_append_cons_nul (s rest : Bytes) : cString (s ++ 0 :: rest) = cString s := by
  induction s with
  | nil => rfl
  | cons a s ih =>
    simp only [cString] at ih ⊢
    rw [List.cons_append, List.takeWhile_cons, List.takeWhile_cons, ih]

theorem cString_of_nulFree {s : Bytes} (hs : NulFree s) : cString s = s := by
  rw [cString, List.takeWhile_eq_self_iff]
  intro a ha
  simp only [bne_iff_ne, ne_eq]
  rintro rfl
  exact hs ha

/-- A string shorter than its memory is followed there by its terminator. -/
theorem cString_split {cells : Bytes} (h : (cString cells).length < cells.length) :
    ∃ rest, cells = cString cells ++ 0 :: rest := by
  induction cells with
  | nil => simp at h
  | cons a cells ih =>
    by_cases ha : a = 0
    · subst ha
      exact ⟨cells, by simp [cString]⟩
    · have hc : cString (a :: cells) = a :: cString cells := by simp [cString, ha]
      rw [hc] at h ⊢
      obtain ⟨rest, hr⟩ := ih (by simpa using h)
      exact ⟨rest, by rw [List.cons_append, ← hr]⟩

/-- Bytes beyond the terminator do not belong to the string. -/
theorem cString_take_append {cells : Bytes} {k : Nat} (h : (cString cells).length < k)
    (hk : k ≤ cells.length) (rest : Bytes) : cString (cells.take k ++ rest) = cString cells := by
  obtain ⟨tail, ht⟩ := cString_split (lt_of_lt_of_le h hk)
  have hs := cString_nulFree cells
  generalize cString cells = s at ht h hs
  subst ht
  obtain ⟨m, hm⟩ : ∃ m, k - s.length = m + 1 := ⟨k - s.length - 1, by omega⟩
  rw [List.take_append, List.take_of_length_le h.le, hm, List.take_succ_cons,
    List.append_assoc, List.cons_append, cString_append_nul hs]

/-- Memory of `n` bytes. -/
structure Buffer (n : Nat) where
  cells : Bytes
  length_cells : cells.length = n
  deriving DecidableEq

namespace Buffer

variable {n : Nat}

def zero (n : Nat) : Buffer n := ⟨List.replicate n 0, List.length_replicate⟩

instance : Inhabited (Buffer n) := ⟨zero n⟩

/-- Overwrite the bytes from `offset` on; bytes past the end of the buffer are lost. -/
def write (b : Buffer n) (offset : Nat) (bytes : Bytes) : Buffer n where
  cells := (b.cells.take offset ++ bytes ++ b.cells.drop (offset + bytes.length)).take n
  length_cells := by
    have h := b.length_cells
    simp only [List.length_take, List.length_append, List.length_drop, h]
    omega

/-- The C string at the start of the buffer. -/
def str (b : Buffer n) : Bytes := cString b.cells

def read (b : Buffer n) (offset length : Nat) : Bytes := (b.cells.drop offset).take length

/-- Copy a string and its terminator to the start of the buffer. -/
def strcpy (b : Buffer n) (s : Bytes) : Buffer n := b.write 0 (s ++ [0])

/-- Append a string and its terminator to the string in the buffer. -/
def strcat (b : Buffer n) (s : Bytes) : Buffer n := b.write b.str.length (s ++ [0])

theorem str_nulFree (b : Buffer n) : NulFree b.str := cString_nulFree _

theorem str_length_le (b : Buffer n) : b.str.length ≤ n :=
  (cString_length_le _).trans_eq b.length_cells

theorem cells_write (b : Buffer n) {offset : Nat} {bytes : Bytes}
    (h : offset + bytes.length ≤ n) :
    (b.write offset bytes).cells =
      b.cells.take offset ++ bytes ++ b.cells.drop (offset + bytes.length) := by
  have hb := b.length_cells
  apply List.take_of_length_le
  simp only [List.length_append, List.length_take, List.length_drop, hb]
  omega

theorem str_strcpy (b : Buffer n) {s : Bytes} (hs : NulFree s) (h : s.length + 1 ≤ n) :
    (b.strcpy s).str = s := by
  rw [strcpy, str, cells_write b (by simpa using h), List.take_zero, List.nil_append,
    List.append_assoc]
  exact cString_append_nul hs _

theorem str_strcat (b : Buffer n) {s : Bytes} (hs : NulFree s)
    (h : b.str.length + s.length + 1 ≤ n) : (b.strcat s).str = b.str ++ s := by
  have hsplit : b.cells.take b.str.length = b.str :=
    List.prefix_iff_eq_take.mp (List.takeWhile_prefix _) |>.symm
  rw [strcat, str, cells_write b (by simp only [List.length_append, List.length_singleton]; omega),
    hsplit, ← List.append_assoc, List.append_assoc, List.append_assoc]
  have hj := cString_append_nul (b.str_nulFree.append hs)
    (b.cells.drop (b.str.length + (s ++ [0]).length))
  simpa only [List.append_assoc, List.cons_append, List.nil_append] using hj

/-- Writing beyond the terminator leaves the string alone. -/
theorem str_write_of_lt (b : Buffer n) {offset : Nat} (bytes : Bytes)
    (hs : b.str.length < offset) (h : offset + bytes.length ≤ n) :
    (b.write offset bytes).str = b.str := by
  rw [str, cells_write b h, List.append_assoc]
  exact cString_take_append hs (by rw [b.length_cells]; omega) _

theorem read_write_self (b : Buffer n) {offset : Nat} {bytes : Bytes}
    (h : offset + bytes.length ≤ n) :
    (b.write offset bytes).read offset bytes.length = bytes := by
  have hl : (b.cells.take offset).length = offset := by
    rw [List.length_take, b.length_cells]; omega
  rw [read, cells_write b h, List.append_assoc, List.drop_left' hl, List.take_left]

/-- Bytes beyond the written range keep their value. -/
theorem read_write_of_le (b : Buffer n) {offset start : Nat} {bytes : Bytes} (length : Nat)
    (h : offset + bytes.length ≤ start) (hn : start ≤ n) :
    (b.write offset bytes).read start length = b.read start length := by
  have hb := b.length_cells
  have hl : (b.cells.take offset ++ bytes).length = offset + bytes.length := by
    rw [List.length_append, List.length_take]; omega
  rw [read, read, cells_write b (by omega), List.drop_append, hl, List.drop_drop,
    List.drop_eq_nil_of_le (by omega), List.nil_append,
    show offset + bytes.length + (start - (offset + bytes.length)) = start by omega]

/-- Bytes before the written range keep their value. -/
theorem read_write_of_ge (b : Buffer n) {offset start length : Nat} {bytes : Bytes}
    (h : start + length ≤ offset) (hn : offset + bytes.length ≤ n) :
    (b.write offset bytes).read start length = b.read start length := by
  have hl : (b.cells.take offset).length = offset := by
    rw [List.length_take, b.length_cells]; omega
  rw [read, read, cells_write b hn, List.append_assoc, List.drop_append_of_le_length (by omega),
    List.take_append_of_le_length (by rw [List.length_drop]; omega), List.drop_take,
    List.take_take, min_eq_left (by omega)]

@[simp] theorem read_zero_length (b : Buffer n) (offset : Nat) : b.read offset 0 = [] := by
  simp [read]

/-- The first byte of the string is the first byte of the memory unless that is a terminator. -/
theorem head?_str (b : Buffer n) {c : UInt8} (hc : c ≠ 0) :
    b.str.head? = some c ↔ b.cells.head? = some c := by
  rw [str, cString]
  cases b.cells with
  | nil => simp
  | cons a cells =>
    by_cases ha : a = 0
    · simp [ha, Ne.symm hc]
    · simp [ha]

/-- Writing behind the first byte keeps it. -/
theorem head?_write (b : Buffer n) {offset : Nat} (bytes : Bytes) (h : 0 < offset) :
    (b.write offset bytes).cells.head? = b.cells.head? := by
  have hl := b.length_cells
  obtain ⟨k, rfl⟩ : ∃ k, offset = k + 1 := ⟨offset - 1, by omega⟩
  cases hb : b.cells with
  | nil =>
    rw [hb] at hl
    simp [write, hb, ← hl]
  | cons a cells =>
    rw [hb] at hl
    obtain ⟨m, rfl⟩ : ∃ m, n = m + 1 := ⟨cells.length, by simpa using hl.symm⟩
    simp [write, hb]

theorem head?_strcpy (b : Buffer n) {s : Bytes} {c : UInt8} (h : s.head? = some c)
    (hn : 0 < n) : (b.strcpy s).cells.head? = some c := by
  obtain ⟨m, rfl⟩ : ∃ m, n = m + 1 := ⟨n - 1, by omega⟩
  cases s with
  | nil => cases h
  | cons a s => simpa [strcpy, write] using h

theorem length_read (b : Buffer n) {offset length : Nat} (h : offset + length ≤ n) :
    (b.read offset length).length = length := by
  rw [read, List.length_take, List.length_drop, b.length_cells]
  omega

/-- A longer write at the same place hides an earlier one. -/
theorem write_write (b : Buffer n) {offset : Nat} {first second : Bytes}
    (hle : first.length ≤ second.length) (h : offset + second.length ≤ n) :
    (b.write offset first).write offset second = b.write offset second := by
  have hb := b.length_cells
  have hl : (b.cells.take offset).length = offset := by
    rw [List.length_take]
    omega
  have htake : (b.cells.take offset ++ (first ++ b.cells.drop (offset + first.length))).take
      offset = b.cells.take offset := List.take_left' hl
  have hdrop : (b.cells.take offset ++ (first ++ b.cells.drop (offset + first.length))).drop
      (offset + second.length) = b.cells.drop (offset + second.length) := by
    rw [← List.drop_drop, List.drop_left' hl, List.drop_append,
      List.drop_eq_nil_of_le hle, List.nil_append, List.drop_drop]
    congr 1
    omega
  have hcells : ((b.write offset first).write offset second).cells =
      (b.write offset second).cells := by
    rw [cells_write _ h, cells_write _ h, cells_write b (by omega), List.append_assoc _ first,
      htake, hdrop]
  cases hx : (b.write offset first).write offset second
  cases hy : b.write offset second
  rw [hx, hy] at hcells
  cases hcells
  rfl

/-- Writing at the end of what is read extends it. -/
theorem read_write_append (b : Buffer n) (offset : Nat) (bytes : Bytes)
    (h : offset + bytes.length ≤ n) :
    (b.write offset bytes).read 0 (offset + bytes.length) = b.read 0 offset ++ bytes := by
  have hl : (b.cells.take offset ++ bytes).length = offset + bytes.length := by
    rw [List.length_append, List.length_take, b.length_cells]; omega
  rw [read, read, cells_write b h, List.drop_zero, List.drop_zero, ← hl, List.take_left]

end Buffer

end SnsxOS.Framework
