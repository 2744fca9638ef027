import SnsxOS.Framework.Bytes

/-!
# One's complement sums

The Internet checksum adds the 16-bit words of a message with end-around carry. The sum depends
on the plain sum of the words only, and a field that holds the complement of the sum of the rest
brings the sum of the whole to all ones.
-/

namespace SnsxOS.Framework

/-- The big-endian 16-bit words of a message, the last one padded. -/
def words16 : Bytes → List Nat
  | [] => []
  | [high] => [high.toNat * 256]
  | high :: low :: data => (high.toNat * 256 + low.toNat) :: words16 data

/-- Addition of 16-bit numbers with the carry added back. -/
def endAround (a b : Nat) : Nat := if a + b < 2 ^ 16 then a + b else a + b - (2 ^ 16 - 1)

def onesSum (data : Bytes) : Nat := (words16 data).foldl endAround 0

/-- A sum folded to 16 bits; only zero folds to zero. -/
def carryFold (n : Nat) : Nat := if n = 0 then 0 else (n - 1) % 65535 + 1

theorem carryFold_le (n : Nat) : carryFold n ≤ 65535 := by
  rw [carryFold]
  split
  · omega
  · omega

theorem carryFold_of_le {n : Nat} (h : n ≤ 65535) : carryFold n = n := by
  rw [carryFold]
  split
  · omega
  · omega

theorem endAround_eq {a b : Nat} (ha : a ≤ 65535) (hb : b ≤ 65535) :
    endAround a b = carryFold (a + b) := by
  rw [endAround, carryFold]
  split
  · split
    · omega
    · omega
  · split
    · omega
    · omega

theorem carryFold_add (n k : Nat) : carryFold (carryFold n + k) = carryFold (n + k) := by
  simp only [carryFold]
  split
  · rename_i hzero
    rw [hzero]
  · split
    · omega
    · split
      · omega
      · omega

theorem words16_le (data : Bytes) : ∀ w ∈ words16 data, w ≤ 65535 := by
  induction data using words16.induct with
  | case1 => simp [words16]
  | case2 high =>
    intro w hw
    rw [words16, List.mem_singleton] at hw
    have := high.toNat_lt
    omega
  | case3 high low data ih =>
    intro w hw
    rw [words16, List.mem_cons] at hw
    rcases hw with rfl | hw
    · have := high.toNat_lt
      have := low.toNat_lt
      omega
    · exact ih w hw

theorem foldl_endAround {ws : List Nat} (h : ∀ w ∈ ws, w ≤ 65535) {a : Nat} (ha : a ≤ 65535) :
    ws.foldl endAround a = carryFold (a + ws.sum) := by
  induction ws generalizing a with
  | nil => exact (carryFold_of_le ha).symm
  | cons w ws ih =>
    rw [List.foldl_cons, endAround_eq ha (h w (by simp)),
      ih (fun v hv => h v (by simp [hv])) (carryFold_le _), carryFold_add, List.sum_cons,
      Nat.add_assoc]

/-- The order in which carries are added back does not matter. -/
theorem onesSum_eq (data : Bytes) : onesSum data = carryFold (words16 data).sum := by
  rw [onesSum, foldl_endAround (words16_le data) (by omega), Nat.zero_add]

/-- Words do not straddle a border at an even distance. -/
theorem words16_append (pre data : Bytes) (h : pre.length % 2 = 0) :
    words16 (pre ++ data) = words16 pre ++ words16 data := by
  induction pre using words16.induct with
  | case1 => rfl
  | case2 high => simp at h
  | case3 high low pre ih =>
    have heven : pre.length % 2 = 0 := by
      simp only [List.length_cons] at h
      omega
    rw [List.cons_append, List.cons_append, words16, words16, ih heven, List.cons_append]

theorem sum_words16_le (data : Bytes) : (words16 data).sum ≤ 65535 * data.length := by
  induction data using words16.induct with
  | case1 => simp [words16]
  | case2 high =>
    have := high.toNat_lt
    simp only [words16, List.sum_cons, List.sum_nil, List.length_singleton]
    omega
  | case3 high low data ih =>
    have := high.toNat_lt
    have := low.toNat_lt
    simp only [words16, List.sum_cons, List.length_cons]
    omega

theorem carryFold_complement {n : Nat} (h : 0 < n) :
    carryFold (n + (65535 - carryFold n)) = 65535 := by
  simp only [carryFold]
  split
  · omega
  · split
    · omega
    · omega

/-- A message whose checksum field holds the complement of the sum of the rest sums to all
ones. -/
theorem onesSum_checksum {pre post : Bytes} {high low : UInt8} (hpre : pre.length % 2 = 0)
    (hsum : 0 < (words16 (pre ++ 0 :: 0 :: post)).sum)
    (hfield : high.toNat * 256 + low.toNat =
      65535 - carryFold (words16 (pre ++ 0 :: 0 :: post)).sum) :
    onesSum (pre ++ high :: low :: post) = 65535 := by
  have hzero : (words16 (pre ++ 0 :: 0 :: post)).sum =
      (words16 pre).sum + (words16 post).sum := by
    rw [words16_append pre _ hpre, List.sum_append, words16, List.sum_cons]
    simp
  have hwhole : (words16 (pre ++ high :: low :: post)).sum =
      (words16 (pre ++ 0 :: 0 :: post)).sum + (high.toNat * 256 + low.toNat) := by
    rw [hzero, words16_append pre _ hpre, List.sum_append, words16, List.sum_cons]
    omega
  rw [onesSum_eq, hwhole, hfield]
  exact carryFold_complement hsum

end SnsxOS.Framework
