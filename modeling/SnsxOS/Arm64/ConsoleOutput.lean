import SnsxOS.Framework.Chunks
import SnsxOS.Arm64.TextLayout

/-!
# Writing to the firmware console

`console_write` hands the firmware a text in pieces that fit a buffer on the stack, with a carriage
return before each newline.
-/

namespace SnsxOS.Arm64

open Framework

/-- `ARRAY_SIZE(buffer)` -/
def consoleBufferSize : Nat := 512

/-- The `CHAR16`s that stand for a character of the text. -/
def consoleSymbols (ch : UInt8) : List UInt16 :=
  if ch = newline then [carriageReturn.toUInt16, newline.toUInt16] else [ch.toUInt16]

/-- The body of the loop of `console_write`. -/
def consolePut (b : ChunkBuffer UInt16) (ch : UInt8) : Option (ChunkBuffer UInt16) :=
  if ch = newline then
    (b.makeRoom 0 2).bind fun b =>
      (b.store carriageReturn.toUInt16).bind fun b => b.store newline.toUInt16
  else
    (b.makeRoom 0 1).bind fun b => b.store ch.toUInt16

def consoleWriteFrom (b : ChunkBuffer UInt16) : Bytes → Option (List (List UInt16))
  | [] => (b.flush 0).map ChunkBuffer.sent
  | ch :: text => (consolePut b ch).bind fun b => consoleWriteFrom b text

/-- The chunks that `console_write` passes to `output_string`. Nothing is known of the buffer at the
start. -/
def consoleWrite (buffer : List UInt16) (text : Bytes) : Option (List (List UInt16)) :=
  consoleWriteFrom ⟨buffer, 0, []⟩ text

theorem consolePut_eq_put (b : ChunkBuffer UInt16) (ch : UInt8) :
    consolePut b ch = b.put 0 (consoleSymbols ch) := by
  rw [consolePut, consoleSymbols]
  split <;> simp [ChunkBuffer.put, ChunkBuffer.storeAll]

theorem consoleWriteFrom_eq_sendAll (b : ChunkBuffer UInt16) (text : Bytes) :
    consoleWriteFrom b text = b.sendAll 0 consoleSymbols text := by
  induction text generalizing b with
  | nil => rfl
  | cons ch text ih => simp [consoleWriteFrom, ChunkBuffer.sendAll, consolePut_eq_put, ih]

theorem zero_not_mem_consoleSymbols {ch : UInt8} (h : ch ≠ 0) : 0 ∉ consoleSymbols ch := by
  rw [consoleSymbols]
  split
  · decide
  · intro hmem
    have hzero : ch.toUInt16 = 0 := (List.mem_singleton.mp hmem).symm
    have hvalue : ch.toNat = 0 := by simpa using congrArg UInt16.toNat hzero
    exact h (UInt8.toNat_inj.mp hvalue)

theorem length_consoleSymbols_le (ch : UInt8) : (consoleSymbols ch).length ≤ 2 := by
  rw [consoleSymbols]
  split
  · exact le_rfl
  · exact Nat.le_succ 1

/-- The symbols of a piece of text begin with a newline's second half for no piece. -/
theorem head?_consoleSymbols_ne (piece : Bytes) :
    (piece.flatMap consoleSymbols).head? ≠ some newline.toUInt16 := by
  cases piece with
  | nil => simp
  | cons ch piece =>
    rw [List.flatMap_cons, consoleSymbols]
    split
    · simp [carriageReturn, newline]
    · rename_i hch
      intro hhead
      have hwide : ch.toUInt16 = newline.toUInt16 := by simpa using hhead
      have hvalue : ch.toNat = newline.toNat := by simpa using congrArg UInt16.toNat hwide
      exact hch (UInt8.toNat_inj.mp hvalue)

/-- The chunks are the expansions of pieces of the text: none runs over the buffer, none lacks its
terminator and none begins inside a line break. -/
theorem consoleWrite_chunks {buffer : List UInt16} (hbuffer : buffer.length = consoleBufferSize)
    {text : Bytes} (htext : NulFree text) :
    ∃ chunks, consoleWrite buffer text = some chunks ∧
      chunks.flatten = text.flatMap consoleSymbols ∧
      (∃ pieces : List Bytes, pieces.flatten = text ∧
        chunks = pieces.map fun piece => piece.flatMap consoleSymbols) ∧
      ∀ chunk ∈ chunks, chunk.length < consoleBufferSize ∧
        chunk.head? ≠ some newline.toUInt16 := by
  have hstart : ChunkBuffer.Holds 0 consoleBufferSize ⟨buffer, 0, []⟩
      (([] : Bytes).flatMap consoleSymbols) :=
    ⟨hbuffer, rfl, rfl, by decide, List.not_mem_nil⟩
  have hitems : ∀ ch ∈ text, 0 ∉ consoleSymbols ch ∧
      (consoleSymbols ch).length < consoleBufferSize := by
    intro ch hch
    have hnul : ch ≠ 0 := fun heq => htext (heq ▸ hch)
    have hlen := length_consoleSymbols_le ch
    exact ⟨zero_not_mem_consoleSymbols hnul, Nat.lt_of_le_of_lt hlen (by decide)⟩
  obtain ⟨pieces, hjoin, hrun, hshort⟩ := hstart.sendAll hitems
  rw [List.nil_append] at hjoin
  refine ⟨pieces.map fun piece => piece.flatMap consoleSymbols, ?_, ?_, ⟨pieces, hjoin, rfl⟩, ?_⟩
  · rw [consoleWrite, consoleWriteFrom_eq_sendAll, hrun, List.nil_append]
  · rw [← hjoin, ← List.flatMap_def, List.flatMap_assoc.symm]
    simp [List.flatMap_def]
  · intro chunk hchunk
    obtain ⟨piece, hpiece, rfl⟩ := List.mem_map.mp hchunk
    exact ⟨hshort piece hpiece, head?_consoleSymbols_ne piece⟩

theorem consoleWrite_chunks_banner :
    ∃ chunks, consoleWrite (List.replicate 512 0) (ascii "SNSX\n") = some chunks ∧
      chunks.flatten = (ascii "SNSX\n").flatMap consoleSymbols ∧
      (∃ pieces : List Bytes, pieces.flatten = ascii "SNSX\n" ∧
        chunks = pieces.map fun piece => piece.flatMap consoleSymbols) ∧
      ∀ chunk ∈ chunks, chunk.length < consoleBufferSize ∧
        chunk.head? ≠ some newline.toUInt16 :=
  consoleWrite_chunks List.length_replicate (by decide)

end SnsxOS.Arm64
