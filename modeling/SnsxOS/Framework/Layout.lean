import SnsxOS.Framework.Bytes

/-!
# What lies where in memory

Bytes lie at an offset when the memory from there on starts with them. A message that is laid out
part by part is taken apart by the same parts, each at the offset behind the one before.
-/

namespace SnsxOS.Framework

/-- The memory from the offset on starts with the bytes. -/
def LiesAt (memory : Bytes) (offset : Nat) (bytes : Bytes) : Prop := bytes <+: memory.drop offset

variable {memory bytes more : Bytes} {offset : Nat}

theorem liesAt_append : LiesAt memory offset (bytes ++ more) ↔
    LiesAt memory offset bytes ∧ LiesAt memory (offset + bytes.length) more := by
  constructor
  · intro h
    obtain ⟨rest, hrest⟩ := h
    constructor
    · exact ⟨more ++ rest, by rw [← List.append_assoc, hrest]⟩
    · exact ⟨rest, by rw [← List.drop_drop, ← hrest, List.append_assoc, List.drop_left]⟩
  · intro h
    obtain ⟨⟨rest, hrest⟩, ⟨last, hlast⟩⟩ := h
    refine ⟨last, ?_⟩
    rw [← List.drop_drop, ← hrest, List.drop_left] at hlast
    rw [List.append_assoc, hlast, hrest]

theorem LiesAt.length_le (h : LiesAt memory offset bytes) (hne : bytes ≠ []) :
    offset + bytes.length ≤ memory.length := by
  have hle := List.IsPrefix.length_le h
  have hpos := List.length_pos_of_ne_nil hne
  rw [List.length_drop] at hle
  omega

theorem LiesAt.getElem? (h : LiesAt memory offset bytes) {i : Nat} (hi : i < bytes.length) :
    memory[offset + i]? = bytes[i]? := by
  obtain ⟨rest, hrest⟩ := h
  rw [← List.getElem?_drop, ← hrest, List.getElem?_append_left hi]

end SnsxOS.Framework
