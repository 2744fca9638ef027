import SnsxOS.Framework.Bytes

/-!
# Percent-encoded text

Decoding replaces each percent sign that two hexadecimal digits follow and keeps everything
else. A decoded text is never longer, and is the text itself only when nothing was replaced.
-/

namespace SnsxOS.Framework

def hexValue (c : UInt8) : Option UInt8 :=
  if 48 ≤ c ∧ c ≤ 57 then some (c - 48)
  else if 65 ≤ c ∧ c ≤ 70 then some (c - 55)
  else if 97 ≤ c ∧ c ≤ 102 then some (c - 87)
  else none

/-- The byte that three characters stand for. -/
def escapedByte (c high low : UInt8) : Option UInt8 :=
  if c = 37 then
    match hexValue high, hexValue low with
    | some h, some l => some (h * 16 + l)
    | _, _ => none
  else none

def percentDecode : Bytes → Bytes
  | [] => []
  | [c] => [c]
  | [c, d] => [c, d]
  | c :: high :: low :: text =>
      match escapedByte c high low with
      | some byte => byte :: percentDecode text
      | none => c :: percentDecode (high :: low :: text)

/-- Three characters in a row stand for a byte. -/
def hasEscape : Bytes → Bool
  | c :: high :: low :: text =>
      (escapedByte c high low).isSome || hasEscape (high :: low :: text)
  | _ => false

section Decode

variable {s t : Bytes} {c high low : UInt8}

theorem escapedByte_of_ne (h : c ≠ 37) : escapedByte c high low = none := if_neg h

theorem percentDecode_escape {byte : UInt8} (h : escapedByte c high low = some byte)
    (text : Bytes) : percentDecode (c :: high :: low :: text) = byte :: percentDecode text := by
  rw [percentDecode, h]

theorem percentDecode_plain (h : c ≠ 37) (text : Bytes) :
    percentDecode (c :: text) = c :: percentDecode text := by
  rcases text with _ | ⟨high, _ | ⟨low, text⟩⟩
  · rfl
  · rfl
  · rw [percentDecode, escapedByte_of_ne h]

theorem length_percentDecode_le (s : Bytes) : (percentDecode s).length ≤ s.length := by
  induction s using percentDecode.induct with
  | case1 => simp [percentDecode]
  | case2 c => simp [percentDecode]
  | case3 c d => simp [percentDecode]
  | case4 c high low text byte h ih =>
    rw [percentDecode_escape h]
    simp only [List.length_cons]
    omega
  | case5 c high low text h ih =>
    rw [percentDecode, h]
    simp only [List.length_cons] at ih ⊢
    omega

theorem percentDecode_eq_self (h : hasEscape s = false) : percentDecode s = s := by
  induction s using percentDecode.induct with
  | case1 => rfl
  | case2 c => rfl
  | case3 c d => rfl
  | case4 c high low text byte hbyte ih =>
    rw [hasEscape, hbyte] at h
    cases h
  | case5 c high low text hnone ih =>
    rw [hasEscape, hnone] at h
    rw [percentDecode, hnone]
    dsimp only
    rw [ih h]

theorem length_percentDecode_lt (h : hasEscape s = true) :
    (percentDecode s).length < s.length := by
  induction s using percentDecode.induct with
  | case1 => cases h
  | case2 c => cases h
  | case3 c d => cases h
  | case4 c high low text byte hbyte ih =>
    have hle := length_percentDecode_le text
    rw [percentDecode_escape hbyte]
    simp only [List.length_cons]
    omega
  | case5 c high low text hnone ih =>
    rw [hasEscape, hnone] at h
    have hlt := ih h
    rw [percentDecode, hnone]
    simp only [List.length_cons] at hlt ⊢
    omega

/-- A text as long as before has not changed. -/
theorem hasEscape_eq_false_of_length (h : s.length ≤ (percentDecode s).length) :
    hasEscape s = false := by
  cases hescape : hasEscape s with
  | false => rfl
  | true => exact absurd (length_percentDecode_lt hescape) (by omega)

/-- What is encoded character by character is decoded character by character. -/
theorem percentDecode_flatMap {encode : UInt8 → Bytes}
    (h : ∀ c text, percentDecode (encode c ++ text) = c :: percentDecode text) (s text : Bytes) :
    percentDecode (s.flatMap encode ++ text) = s ++ percentDecode text := by
  induction s with
  | nil => rfl
  | cons c s ih => rw [List.flatMap_cons, List.append_assoc, h, ih, List.cons_append]

end Decode

/-- The characters that a cut encoding still holds whole, and what is left of the next one. -/
theorem take_flatMap_of_lt {α β : Type*} {encode : α → List β} {n : Nat} {s : List α}
    (h : n < (s.flatMap encode).length) :
    ∃ front c rest, s = front ++ c :: rest ∧ (front.flatMap encode).length ≤ n ∧
      n < (front.flatMap encode).length + (encode c).length ∧
      (s.flatMap encode).take n =
        front.flatMap encode ++ (encode c).take (n - (front.flatMap encode).length) := by
  induction s generalizing n with
  | nil => simp at h
  | cons c s ih =>
    by_cases hcut : n < (encode c).length
    · refine ⟨[], c, s, rfl, Nat.zero_le _, by simpa using hcut, ?_⟩
      rw [List.flatMap_cons, List.take_append_of_le_length hcut.le]
      simp
    · have hrest : n - (encode c).length < (s.flatMap encode).length := by
        rw [List.flatMap_cons, List.length_append] at h
        omega
      obtain ⟨front, next, rest, rfl, hle, hlt, htake⟩ := ih hrest
      refine ⟨c :: front, next, rest, rfl, ?_, ?_, ?_⟩
      · rw [List.flatMap_cons, List.length_append]
        omega
      · rw [List.flatMap_cons, List.length_append]
        omega
      · rw [List.flatMap_cons, List.take_append, htake, List.take_of_length_le (by omega),
          List.flatMap_cons, List.length_append, List.append_assoc, Nat.sub_sub]

end SnsxOS.Framework
