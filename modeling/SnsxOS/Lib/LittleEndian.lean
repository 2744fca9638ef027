import SnsxOS.Framework.Bytes

/-!
# Little-endian fields

The fields of a packed structure as they lie in memory, read at a distance from the start of a
buffer.
-/

namespace SnsxOS

open Framework

def byteAt (buffer : Bytes) (offset : Nat) : UInt8 := buffer.getD offset 0

def writeLe16 (value : UInt16) : Bytes := [(value &&& 0xFF).toUInt8, (value >>> 8).toUInt8]

def writeLe32 (value : UInt32) : Bytes :=
  [(value &&& 0xFF).toUInt8, ((value >>> 8) &&& 0xFF).toUInt8, ((value >>> 16) &&& 0xFF).toUInt8,
    (value >>> 24).toUInt8]

def readLe16 (buffer : Bytes) (offset : Nat) : UInt16 :=
  (byteAt buffer offset).toUInt16 ||| (byteAt buffer (offset + 1)).toUInt16 <<< 8

def readLe32 (buffer : Bytes) (offset : Nat) : UInt32 :=
  (byteAt buffer offset).toUInt32 ||| (byteAt buffer (offset + 1)).toUInt32 <<< 8 |||
    (byteAt buffer (offset + 2)).toUInt32 <<< 16 ||| (byteAt buffer (offset + 3)).toUInt32 <<< 24

theorem byteAt_append (pre bytes : Bytes) {offset i : Nat} (h : pre.length = offset) :
    byteAt (pre ++ bytes) (offset + i) = byteAt bytes i := by
  subst h
  simp [byteAt, List.getElem?_append_right]

theorem readLe16_append (pre bytes : Bytes) {offset i : Nat} (h : pre.length = offset) :
    readLe16 (pre ++ bytes) (offset + i) = readLe16 bytes i := by
  simp only [readLe16, Nat.add_assoc, byteAt_append pre bytes h]

theorem readLe32_append (pre bytes : Bytes) {offset i : Nat} (h : pre.length = offset) :
    readLe32 (pre ++ bytes) (offset + i) = readLe32 bytes i := by
  simp only [readLe32, Nat.add_assoc, byteAt_append pre bytes h]

/-- The two bytes of a 16-bit field make up its value. -/
theorem le16_bytes (v : UInt16) :
    (v &&& 0xFF).toUInt8.toUInt16 ||| (v >>> 8).toUInt8.toUInt16 <<< 8 = v := by
  apply UInt16.toBitVec_inj.mp
  ext i hi
  simp [-UInt16.toUInt16_toUInt8]
  interval_cases i <;> simp

theorem le32_bytes (v : UInt32) :
    (v &&& 0xFF).toUInt8.toUInt32 ||| ((v >>> 8) &&& 0xFF).toUInt8.toUInt32 <<< 8 |||
      ((v >>> 16) &&& 0xFF).toUInt8.toUInt32 <<< 16 ||| (v >>> 24).toUInt8.toUInt32 <<< 24 =
      v := by
  apply UInt32.toBitVec_inj.mp
  ext i hi
  simp [-UInt32.toUInt32_toUInt8]
  interval_cases i <;> simp

theorem readLe32_write (v : UInt32) (rest : Bytes) : readLe32 (writeLe32 v ++ rest) 0 = v :=
  le32_bytes v

end SnsxOS
