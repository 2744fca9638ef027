import SnsxOS.Lib.Text
import Mathlib.Data.Nat.Digits.Lemmas

/-!
# Decimal numbers

`u32_to_dec` writes a number and `atoi` reads it back.
-/

namespace SnsxOS

open Framework

/-- `u32_to_dec`: the digits are produced from the last one on and then turned round. -/
def u32ToDec (value : UInt32) : Bytes :=
  if value = 0 then [48]
  else ((Nat.digits 10 value.toNat).map fun digit => 48 + UInt8.ofNat digit).reverse

/-- The number a string of digits stands for. -/
def decimalValue (text : Bytes) : Nat := text.foldl (fun n ch => n * 10 + (ch.toNat - 48)) 0

theorem atoiDigits_append {value : Int32} {digits : Bytes} (h : ∀ ch ∈ digits, isdigit ch = true)
    (rest : Bytes) :
    atoiDigits value (digits ++ rest) = atoiDigits (atoiDigits value digits) rest := by
  induction digits generalizing value with
  | nil => rfl
  | cons ch digits ih =>
    have hch := h ch List.mem_cons_self
    have hdigits := fun c hc => h c (List.mem_cons_of_mem ch hc)
    simp only [List.cons_append, atoiDigits, hch, if_true, ih hdigits]

theorem isdigit_digit {digit : Nat} (h : digit < 10) : isdigit (48 + UInt8.ofNat digit) = true := by
  interval_cases digit <;> decide

theorem atoiDigits_digit {digit : Nat} (h : digit < 10) (value : Int32) :
    atoiDigits value [48 + UInt8.ofNat digit] = value * 10 + Int32.ofNat digit := by
  rw [atoiDigits, isdigit_digit h, if_pos rfl, atoiDigits]
  congr 1
  interval_cases digit <;> decide

theorem atoiDigits_digits {digits : List Nat} (h : ∀ digit ∈ digits, digit < 10) :
    atoiDigits 0 (digits.map fun digit => 48 + UInt8.ofNat digit).reverse =
      Int32.ofNat (Nat.ofDigits 10 digits) := by
  induction digits with
  | nil => rfl
  | cons digit digits ih =>
    have hdigit := h digit List.mem_cons_self
    have hdigits := fun d hd => h d (List.mem_cons_of_mem digit hd)
    rw [List.map_cons, List.reverse_cons, atoiDigits_append, ih hdigits, atoiDigits_digit hdigit,
      Nat.ofDigits_cons]
    · rw [Int32.ofNat_add, Int32.ofNat_mul, Int32.add_comm, Int32.mul_comm]
      rfl
    · intro ch hch
      obtain ⟨d, hd, rfl⟩ := List.mem_map.mp (List.mem_reverse.mp hch)
      exact isdigit_digit (hdigits d hd)

theorem isspace_of_isdigit {ch : UInt8} (h : isdigit ch = true) : ¬ isspace ch = true := by
  simp only [isdigit, isspace, Bool.and_eq_true, Bool.or_eq_true, decide_eq_true_eq, beq_iff_eq,
    UInt8.le_iff_toNat_le, ← UInt8.toNat_inj] at h ⊢
  simp at h ⊢
  omega

theorem u32ToDec_digits (value : UInt32) : ∀ ch ∈ u32ToDec value, isdigit ch = true := by
  rw [u32ToDec]
  split
  · decide +kernel
  · intro ch hch
    obtain ⟨d, hd, rfl⟩ := List.mem_map.mp (List.mem_reverse.mp hch)
    exact isdigit_digit (Nat.digits_lt_base (by decide) hd)

theorem u32ToDec_ne_nil (value : UInt32) : u32ToDec value ≠ [] := by
  rw [u32ToDec]
  split
  · exact List.cons_ne_nil 48 []
  · rename_i hvalue
    have hnat : value.toNat ≠ 0 := fun h => hvalue (UInt32.toNat_inj.mp h)
    simpa [Nat.digits_ne_nil_iff_ne_zero] using hnat

theorem length_u32ToDec_le {value : UInt32} {k : Nat} (hk : 0 < k) (h : value.toNat < 10 ^ k) :
    (u32ToDec value).length ≤ k := by
  rw [u32ToDec]
  split
  · exact hk
  · rw [List.length_reverse, List.length_map]
    exact (Nat.digits_length_le_iff (by decide) value.toNat).mpr h

theorem decimalValue_digits {digits : List Nat} (h : ∀ digit ∈ digits, digit < 10) :
    decimalValue (digits.map fun digit => 48 + UInt8.ofNat digit).reverse =
      Nat.ofDigits 10 digits := by
  induction digits with
  | nil => rfl
  | cons digit digits ih =>
    have hdigit := h digit List.mem_cons_self
    have hdigits := ih fun d hd => h d (List.mem_cons_of_mem digit hd)
    have hbyte : (48 + UInt8.ofNat digit).toNat - 48 = digit := by
      interval_cases digit <;> rfl
    rw [decimalValue] at hdigits ⊢
    rw [List.map_cons, List.reverse_cons, List.foldl_append, hdigits, List.foldl_cons,
      List.foldl_nil, hbyte, Nat.ofDigits_cons]
    omega

/-- The text of a number stands for it. -/
theorem decimalValue_u32ToDec (value : UInt32) : decimalValue (u32ToDec value) = value.toNat := by
  rw [u32ToDec]
  split
  · rename_i hzero
    rw [hzero]
    rfl
  · rw [decimalValue_digits fun d hd => Nat.digits_lt_base (by decide) hd, Nat.ofDigits_digits]

theorem atoiDigits_decimal {text : Bytes} (htext : ∀ ch ∈ text, isdigit ch = true) (n : Nat) :
    atoiDigits (Int32.ofNat n) text =
      Int32.ofNat (text.foldl (fun n ch => n * 10 + (ch.toNat - 48)) n) := by
  induction text generalizing n with
  | nil => rfl
  | cons ch text ih =>
    have hch := htext ch (by simp)
    have hdigit : (ch - 48).toUInt32.toInt32 = Int32.ofNat (ch.toNat - 48) := by
      have hle : (48 : UInt8) ≤ ch := by
        rw [isdigit, Bool.and_eq_true] at hch
        exact of_decide_eq_true hch.1
      have hnat : (ch - 48).toUInt32 = UInt32.ofNat (ch.toNat - 48) := by
        rw [← UInt32.toNat_inj, UInt8.toNat_toUInt32, UInt8.toNat_sub_of_le _ _ hle,
          UInt32.toNat_ofNat', Nat.mod_eq_of_lt]
        · rfl
        · have hch := ch.toNat_lt
          omega
      rw [hnat, UInt32.toInt32_ofNat']
    rw [atoiDigits, if_pos hch, hdigit, List.foldl_cons, ← ih fun c hc => htext c (by simp [hc]),
      Int32.ofNat_add, Int32.ofNat_mul]
    rfl

/-- Text that starts with a digit has nothing to skip and no sign. -/
theorem atoi_of_digits {text : Bytes} (htext : ∀ ch ∈ text, isdigit ch = true) :
    atoi text = atoiDigits 0 text := by
  have hskip : text.dropWhile isspace = text := by
    cases text with
    | nil => rfl
    | cons ch text =>
      exact List.dropWhile_cons_of_neg (isspace_of_isdigit (htext ch List.mem_cons_self))
  rw [atoi, hskip]
  split
  · have hminus := htext 45 (by simp)
    cases hminus
  · rw [Int32.one_mul]

/-- A number is read back from its decimal text, as a signed number. -/
theorem atoi_u32ToDec (value : UInt32) : atoi (u32ToDec value) = value.toInt32 := by
  have hvalue : atoiDigits 0 (u32ToDec value) = value.toInt32 := by
    rw [u32ToDec]
    split
    · rename_i hzero
      rw [hzero]
      decide
    · rw [atoiDigits_digits fun d hd => Nat.digits_lt_base (by decide) hd, Nat.ofDigits_digits]
      rw [← UInt32.toInt32_ofNat', UInt32.ofNat_toNat]
  rw [atoi_of_digits (u32ToDec_digits value), hvalue]

theorem u32ToDec_injective : Function.Injective u32ToDec := by
  intro a b h
  have hatoi := congrArg atoi h
  rw [atoi_u32ToDec, atoi_u32ToDec] at hatoi
  rw [← UInt32.toUInt32_toInt32 a, hatoi, UInt32.toUInt32_toInt32]

end SnsxOS
