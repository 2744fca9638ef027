import SnsxOS.Framework.Bytes

/-!
# Numbers and searches in C strings

The routines of `string.c` that read numbers from text, and the text search of the network
stack, on the content of a string before its terminator. A pointer into a string is the
content from there on.
-/

namespace SnsxOS

open Framework

def isspace (ch : UInt8) : Bool := ch == 32 || ch == 9 || ch == 10 || ch == 13

def isdigit (ch : UInt8) : Bool := 48 ≤ ch && ch ≤ 57

def isprint (ch : UInt8) : Bool := 32 ≤ ch && ch ≤ 126

def asciiLower (ch : UInt8) : UInt8 := if 65 ≤ ch && ch ≤ 90 then ch - 65 + 97 else ch

/-- The digit loop of `atoi`; `int` arithmetic wraps. -/
def atoiDigits (value : Int32) : Bytes → Int32
  | [] => value
  | ch :: str =>
      if isdigit ch then atoiDigits (value * 10 + (ch - 48).toUInt32.toInt32) str else value

def atoi (str : Bytes) : Int32 :=
  match str.dropWhile isspace with
  | 45 :: str => -1 * atoiDigits 0 str
  | str => 1 * atoiDigits 0 str

def strchr (str : Bytes) (ch : UInt8) : Option Bytes :=
  match str.dropWhile (· != ch) with
  | [] => none
  | rest => some rest

/-- The last occurrence of a character. -/
def strrchr : Bytes → UInt8 → Option Bytes
  | [], _ => none
  | c :: str, ch =>
      match strrchr str ch with
      | some rest => some rest
      | none => if c = ch then some (c :: str) else none

/-- The rest of the text from the first occurrence of the needle on. -/
def findText (needle : Bytes) : Bytes → Option Bytes
  | [] => if needle = [] then some [] else none
  | ch :: text =>
      if needle.isPrefixOf (ch :: text) then some (ch :: text) else findText needle text

theorem findText_suffix {needle text rest : Bytes} (h : findText needle text = some rest) :
    rest <:+ text := by
  induction text with
  | nil =>
    rw [findText] at h
    split at h
    · cases h
      exact List.suffix_refl []
    · cases h
  | cons ch text ih =>
    rw [findText] at h
    split at h
    · cases h
      exact List.suffix_refl _
    · exact (ih h).trans (List.suffix_cons ch text)

theorem findText_startsWith {needle text rest : Bytes} (h : findText needle text = some rest) :
    needle <+: rest := by
  induction text with
  | nil =>
    rw [findText] at h
    split at h
    · rename_i hneedle
      exact hneedle ▸ List.nil_prefix
    · cases h
  | cons ch text ih =>
    rw [findText] at h
    split at h
    · rename_i hstarts
      cases h
      exact List.isPrefixOf_iff_prefix.mp hstarts
    · exact ih h

/-- Text without the first character of the needle is passed over. -/
theorem findText_append {c : UInt8} {pre : Bytes} (h : c ∉ pre) (needle rest : Bytes) :
    findText (c :: needle) (pre ++ rest) = findText (c :: needle) rest := by
  induction pre with
  | nil => rfl
  | cons ch pre ih =>
    have hch : ¬ (c :: needle).isPrefixOf (ch :: (pre ++ rest)) = true := by
      rw [List.isPrefixOf_iff_prefix]
      intro hstarts
      have hhead := (List.cons_prefix_cons.mp hstarts).1
      exact h (hhead ▸ List.mem_cons_self)
    rw [List.cons_append, findText, if_neg hch]
    exact ih fun hm => h (List.mem_cons_of_mem ch hm)

theorem findText_eq_none_iff {needle text : Bytes} (hne : needle ≠ []) :
    findText needle text = none ↔ ¬ needle <:+: text := by
  induction text with
  | nil => simp [findText, hne]
  | cons ch text ih =>
    rw [findText, List.infix_cons_iff, ← List.isPrefixOf_iff_prefix]
    split
    · rename_i hstarts
      simp [hstarts]
    · rename_i hstarts
      rw [ih]
      simp [hstarts]

/-- What is found in a text is found in the same place when more text follows. -/
theorem findText_append_right {needle text rest : Bytes} (h : findText needle text = some rest)
    (more : Bytes) : findText needle (text ++ more) = some (rest ++ more) := by
  have hstart := findText_startsWith h
  induction text with
  | nil =>
    rw [findText] at h
    split at h
    · rename_i hneedle
      cases h
      rw [hneedle, List.nil_append]
      cases more <;> rfl
    · cases h
  | cons ch text ih =>
    rw [findText] at h
    split at h
    · rename_i hstarts
      cases h
      rw [List.isPrefixOf_iff_prefix] at hstarts
      rw [List.cons_append, findText, if_pos]
      exact List.isPrefixOf_iff_prefix.mpr (hstarts.trans (List.prefix_append _ more))
    · rename_i hstarts
      have hlength := hstart.length_le.trans (findText_suffix h).length_le
      rw [List.cons_append, findText, if_neg, ih h]
      intro hmore
      rw [List.isPrefixOf_iff_prefix] at hmore hstarts
      apply hstarts
      apply List.prefix_of_prefix_length_le hmore (List.prefix_append (ch :: text) more)
      rw [List.length_cons]
      omega

/-- A character that the needle has not does not complete it. -/
theorem findText_concat_eq_none {needle text : Bytes} {c : UInt8} (hne : needle ≠ [])
    (hc : c ∉ needle) (h : findText needle text = none) : findText needle (text ++ [c]) = none := by
  rw [findText_eq_none_iff hne] at h ⊢
  intro hinfix
  rcases List.infix_concat_iff.mp hinfix with hsuffix | hinfix
  · rcases List.suffix_concat_iff.mp hsuffix with hnil | ⟨front, hfront, -⟩
    · exact hne hnil
    · exact hc (hfront ▸ List.mem_append_right front (List.mem_singleton.mpr rfl))
  · exact h hinfix

/-- A character that is not in the prefix bounds what decides about it. -/
theorem isPrefixOf_append_right {c : UInt8} {front text : Bytes} (hmem : c ∈ text)
    (hfront : c ∉ front) (more : Bytes) :
    front.isPrefixOf (text ++ more) = front.isPrefixOf text := by
  rw [Bool.eq_iff_iff, List.isPrefixOf_iff_prefix, List.isPrefixOf_iff_prefix]
  constructor
  · intro h
    rcases List.prefix_or_prefix_of_prefix h (List.prefix_append text more) with h | h
    · exact h
    · exact absurd (h.subset hmem) hfront
  · intro h
    exact h.trans (List.prefix_append text more)

/-- A search passes text without the needle up to a character that only starts it. -/
theorem findText_append_cons {a c : UInt8} {needle front : Bytes} (hc : c ∉ needle)
    (hfront : ¬ a :: needle <:+: front) (rest : Bytes) :
    findText (a :: needle) (front ++ c :: rest) = findText (a :: needle) (c :: rest) := by
  induction front with
  | nil => rfl
  | cons ch front ih =>
    rw [List.infix_cons_iff, not_or] at hfront
    rw [List.cons_append, findText, if_neg, ih hfront.2]
    intro hstarts
    have hparts := List.cons_prefix_cons.mp (List.isPrefixOf_iff_prefix.mp hstarts)
    have hwhole : needle <+: front ++ [c] ++ rest := by simpa using hparts.2
    rw [← List.isPrefixOf_iff_prefix,
      isPrefixOf_append_right (List.mem_append_right front (List.mem_singleton.mpr rfl)) hc,
      List.isPrefixOf_iff_prefix] at hwhole
    rcases List.prefix_concat_iff.mp hwhole with heq | hshort
    · exact hc (heq ▸ List.mem_append_right front (List.mem_singleton.mpr rfl))
    · exact hfront.1 (List.cons_prefix_cons.mpr ⟨hparts.1, hshort⟩)

end SnsxOS
