import SnsxOS.Editions.Calculator

/-!
# Choosing an entry by its number

The file managers of both editions read the number of an entry with `atoi`, which stops at the
first character that is no digit, takes a minus sign and wraps at 32 bits.
-/

namespace SnsxOS

open Framework

/-- The body that `parse_index` and `shell_parse_index` share. -/
def menuIndex (text : Bytes) (maxCount : Nat) : Option Nat :=
  let parsed := (atoi text).toInt
  if parsed ≤ 0 ∨ parsed.toNat > maxCount then none else some (parsed.toNat - 1)

def Arm64.parseIndex (text : Bytes) (maxCount : Nat) : Option Nat := menuIndex text maxCount

def X86.shellParseIndex (text : Bytes) (maxCount : Nat) : Option Nat := menuIndex text maxCount

namespace Editions

/-- A decimal numeral between white space. It may start with zeros. -/
def Numeral (text : Bytes) (k : Nat) : Prop :=
  ∃ before digits after : Bytes, text = before ++ digits ++ after ∧
    (∀ ch ∈ before, isspace ch = true) ∧ (∀ ch ∈ after, isspace ch = true) ∧
    digits ≠ [] ∧ (∀ ch ∈ digits, isdigit ch = true) ∧ decimalValue digits = k

/-- Exactly the numerals of the numbers from 1 to a count are taken, each for the entry that it
numbers. -/
def TakesNumerals (parse : Bytes → Nat → Option Nat) (text : Bytes) (maxCount : Nat) : Prop :=
  ∀ index, parse text maxCount = some index ↔ Numeral text (index + 1) ∧ index + 1 ≤ maxCount

section Parts

variable (text : Bytes)

/-- A minus sign stands first. -/
def Negated : Prop := (text.dropWhile isspace).head? = some 45

instance : Decidable (Negated text) := inferInstanceAs (Decidable (_ = _))

/-- The text from its first digit on. -/
def unsignedText : Bytes :=
  if Negated text then (text.dropWhile isspace).tail else text.dropWhile isspace

/-- What the digits stand for. -/
def digitsValue : Nat := decimalValue ((unsignedText text).takeWhile isdigit)

/-- The signed number, modulo the 32 bits of an `int`. -/
def residue : Int := (if Negated text then -(digitsValue text : Int) else digitsValue text) % 2 ^ 32

end Parts

variable {text : Bytes} {maxCount index : Nat}

theorem atoiDigits_run (text : Bytes) :
    atoiDigits 0 text = Int32.ofNat (decimalValue (text.takeWhile isdigit)) := by
  have hdigits : ∀ ch ∈ text.takeWhile isdigit, isdigit ch = true :=
    fun ch hch => List.mem_takeWhile_imp hch
  have hread := atoiDigits_text hdigits (notNext_dropWhile isdigit text)
  rwa [List.takeWhile_append_dropWhile] at hread

theorem atoi_eq (text : Bytes) :
    atoi text = Int32.ofInt (if Negated text then -(digitsValue text : Int) else digitsValue text) := by
  rw [atoi, digitsValue, unsignedText]
  split
  · rename_i rest hskip
    have hneg : Negated text := by rw [Negated, hskip]; rfl
    rw [if_pos hneg, if_pos hneg, hskip, List.tail_cons, atoiDigits_run, Int32.ofInt_neg,
      Int32.ofInt_eq_ofNat]
    exact (Int32.neg_eq_neg_one_mul _).symm
  · rename_i hskip
    have hneg : ¬ Negated text := by
      intro hhead
      obtain ⟨rest, hrest⟩ := List.head?_eq_some_iff.mp hhead
      exact hskip rest hrest
    rw [if_neg hneg, if_neg hneg, atoiDigits_run, Int32.one_mul, Int32.ofInt_eq_ofNat]

/-- An `int` is a number from 1 to the count if its residue is that number. -/
theorem toInt_ofInt_eq_iff {value : Int} (hindex : index + 1 < 2 ^ 31) :
    (Int32.ofInt value).toInt = index + 1 ↔ value % 2 ^ 32 = index + 1 := by
  have hlow := Int.emod_nonneg value (show (2 ^ 32 : Int) ≠ 0 by decide)
  rw [Int32.toInt_ofInt, Int.bmod_def]
  norm_num [Int32.size]
  omega

theorem menuIndex_eq_some_iff (hmax : maxCount < 2 ^ 31) :
    menuIndex text maxCount = some index ↔ residue text = index + 1 ∧ index + 1 ≤ maxCount := by
  have hparsed : menuIndex text maxCount = some index ↔
      (atoi text).toInt = index + 1 ∧ index + 1 ≤ maxCount := by
    rw [menuIndex]
    split
    · simp only [reduceCtorEq, false_iff]
      omega
    · simp only [Option.some.injEq]
      omega
  rw [hparsed, atoi_eq, residue]
  constructor
  · intro h
    exact ⟨(toInt_ofInt_eq_iff (by omega)).mp h.1, h.2⟩
  · intro h
    exact ⟨(toInt_ofInt_eq_iff (by omega)).mpr h.1, h.2⟩

theorem takeWhile_text {kind : UInt8 → Bool} {front rest : Bytes}
    (hfront : ∀ ch ∈ front, kind ch = true) (hrest : NotNext kind rest) :
    (front ++ rest).takeWhile kind = front := by
  rw [List.takeWhile_append_of_pos hfront]
  cases rest with
  | nil => simp
  | cons ch rest =>
    rw [List.takeWhile_cons_of_neg (by rw [hrest ch rfl]; exact Bool.false_ne_true),
      List.append_nil]

/-- A numeral has no sign, and only white space follows its digits. -/
theorem numeral_iff (hk : 0 < index) :
    Numeral text index ↔ ¬ Negated text ∧
      (∀ ch ∈ (unsignedText text).dropWhile isdigit, isspace ch = true) ∧
      digitsValue text = index := by
  constructor
  · intro h
    obtain ⟨before, digits, after, rfl, hbefore, hafter, hne, hdigits, hvalue⟩ := h
    have hnext : NotNext isspace (digits ++ after) := by
      intro ch hch
      cases digits with
      | nil => exact absurd rfl hne
      | cons digit digits =>
        cases hch
        exact Bool.eq_false_iff.mpr (isspace_of_isdigit (hdigits ch (by simp)))
    have hskip : (before ++ digits ++ after).dropWhile isspace = digits ++ after := by
      rw [List.append_assoc]
      exact dropWhile_text hbefore hnext
    have hneg : ¬ Negated (before ++ digits ++ after) := by
      rw [Negated, hskip]
      intro hhead
      cases digits with
      | nil => exact hne rfl
      | cons digit digits =>
        cases hhead
        cases hdigits 45 (by simp)
    have hend : NotNext isdigit after := by
      intro ch hch
      have hmem : ch ∈ after := List.mem_of_head? hch
      exact isdigit_of_isspace (hafter ch hmem)
    have hunsigned : unsignedText (before ++ digits ++ after) = digits ++ after := by
      rw [unsignedText, if_neg hneg, hskip]
    refine ⟨hneg, ?_, ?_⟩
    · rw [hunsigned, dropWhile_text hdigits hend]
      exact hafter
    · rw [digitsValue, hunsigned, takeWhile_text hdigits hend, hvalue]
  · intro h
    obtain ⟨hneg, hafter, hvalue⟩ := h
    have hunsigned : unsignedText text = text.dropWhile isspace := by rw [unsignedText, if_neg hneg]
    rw [digitsValue, hunsigned] at hvalue
    rw [hunsigned] at hafter
    refine ⟨text.takeWhile isspace, (text.dropWhile isspace).takeWhile isdigit,
      (text.dropWhile isspace).dropWhile isdigit, ?_, fun ch hch => List.mem_takeWhile_imp hch,
      hafter, ?_, fun ch hch => List.mem_takeWhile_imp hch, hvalue⟩
    · rw [List.append_assoc, List.takeWhile_append_dropWhile, List.takeWhile_append_dropWhile]
    · intro hnil
      rw [hnil] at hvalue
      exact absurd hvalue.symm (Nat.pos_iff_ne_zero.mp hk)

/-- What has to hold of a text whose residue numbers an entry. -/
def ResidueReal (text : Bytes) (maxCount : Nat) : Prop :=
  1 ≤ residue text → residue text ≤ maxCount →
    ¬ Negated text ∧ digitsValue text < 2 ^ 32 ∧
      ∀ ch ∈ (unsignedText text).dropWhile isdigit, isspace ch = true

theorem menuIndex_takesNumerals_iff (hmax : maxCount < 2 ^ 31) :
    TakesNumerals menuIndex text maxCount ↔ ResidueReal text maxCount := by
  constructor
  · intro htakes hlow hhigh
    obtain ⟨index, hindex⟩ : ∃ index : Nat, residue text = index + 1 :=
      ⟨(residue text).toNat - 1, by omega⟩
    have hnumeral := (htakes index).mp ((menuIndex_eq_some_iff hmax).mpr ⟨hindex, by omega⟩)
    obtain ⟨hneg, hafter, hvalue⟩ := (numeral_iff (Nat.succ_pos index)).mp hnumeral.1
    exact ⟨hneg, by omega, hafter⟩
  · intro hreal index
    rw [menuIndex_eq_some_iff hmax]
    constructor
    · intro h
      obtain ⟨hneg, hsmall, hafter⟩ := hreal (by omega) (by omega)
      have hresidue := h.1
      rw [residue, if_neg hneg] at hresidue
      exact ⟨(numeral_iff (Nat.succ_pos index)).mpr ⟨hneg, hafter, by omega⟩, h.2⟩
    · intro h
      obtain ⟨hneg, _, hvalue⟩ := (numeral_iff (Nat.succ_pos index)).mp h.1
      have hindex := h.2
      rw [residue, if_neg hneg]
      exact ⟨by omega, hindex⟩

/-- Both readers take exactly the numerals of entries where no residue comes from a sign, a wrap or
a number with other text behind it. -/
theorem parseIndex_takesNumerals_iff (text : Bytes) (hmax : maxCount < 2 ^ 31) :
    (TakesNumerals Arm64.parseIndex text maxCount ↔ ResidueReal text maxCount) ∧
      (TakesNumerals X86.shellParseIndex text maxCount ↔ ResidueReal text maxCount) :=
  ⟨menuIndex_takesNumerals_iff hmax, menuIndex_takesNumerals_iff hmax⟩

theorem parseIndex_takesNumerals_iff_twelve :
    (TakesNumerals Arm64.parseIndex (ascii " 12 ") 40 ↔ ResidueReal (ascii " 12 ") 40) ∧
      (TakesNumerals X86.shellParseIndex (ascii " 12 ") 40 ↔ ResidueReal (ascii " 12 ") 40) :=
  parseIndex_takesNumerals_iff (ascii " 12 ") (by decide)

/-- The text `4294967297` names the first entry, and so does `1x`. -/
theorem not_parseIndex_takesNumerals :
    ¬ TakesNumerals Arm64.parseIndex (ascii "4294967297") 2 ∧
      ¬ TakesNumerals X86.shellParseIndex (ascii "1x") 2 := by
  constructor
  · intro htakes
    have hfirst : Arm64.parseIndex (ascii "4294967297") 2 = some 0 := by decide
    have hvalue := ((numeral_iff Nat.one_pos).mp ((htakes 0).mp hfirst).1).2.2
    have hdigits : digitsValue (ascii "4294967297") = 4294967297 := by decide
    rw [hdigits] at hvalue
    cases hvalue
  · intro htakes
    have hfirst : X86.shellParseIndex (ascii "1x") 2 = some 0 := by decide
    have hafter := ((numeral_iff Nat.one_pos).mp ((htakes 0).mp hfirst).1).2.1
    have hbehind : (unsignedText (ascii "1x")).dropWhile isdigit = [120] := by decide
    rw [hbehind] at hafter
    cases hafter 120 (List.mem_singleton.mpr rfl)

end Editions

end SnsxOS
