import Mathlib.Tactic

/-!
# The absolute pointer

`pointer_scale_axis` maps the range of a device onto the pixels of a screen. It multiplies the
offset by the pixel count in 64 bits before it divides by the range.
-/

namespace SnsxOS.Arm64

def pointerScaleAxis (value min max : UInt64) (pixels : UInt32) : Int32 :=
  if pixels = 0 ∨ max ≤ min then 0 else
    let value := if value < min then min else value
    let value := if value > max then max else value
    let range := max - min
    let offset := value - min
    let scaled := offset * (pixels - 1).toUInt64 / range
    scaled.toUInt32.toInt32

/-- The coordinates of an axis: they lie on the screen, reach both edges, keep the order of the
values, and none has lost a part of its product. -/
structure PointerScales (min max : UInt64) (pixels : UInt32) : Prop where
  nonneg : ∀ value, 0 ≤ (pointerScaleAxis value min max pixels).toInt
  onScreen : ∀ value, (pointerScaleAxis value min max pixels).toInt ≤ pixels.toNat - 1
  first : (pointerScaleAxis min min max pixels).toInt = 0
  last : (pointerScaleAxis max min max pixels).toInt = pixels.toNat - 1
  monotone : ∀ value value', value ≤ value' →
    (pointerScaleAxis value min max pixels).toInt ≤ (pointerScaleAxis value' min max pixels).toInt
  exact : ∀ value, min ≤ value → value ≤ max →
    (pointerScaleAxis value min max pixels).toInt =
      ((value.toNat - min.toNat) * (pixels.toNat - 1) / (max.toNat - min.toNat) : Nat)

/-- How far a value lies above the least one, within the range of the device. -/
def pointerOffset (value min max : UInt64) : Nat :=
  Nat.min (value.toNat - min.toNat) (max.toNat - min.toNat)

section Axis

variable {min max : UInt64} {pixels : UInt32}

theorem pointerOffset_le (value : UInt64) :
    pointerOffset value min max ≤ max.toNat - min.toNat := Nat.min_le_right _ _

theorem pointerOffset_mono {value value' : UInt64} (h : value ≤ value') :
    pointerOffset value min max ≤ pointerOffset value' min max := by
  have hvalue : value.toNat ≤ value'.toNat := UInt64.le_iff_toNat_le.mp h
  have hoffset : value.toNat - min.toNat ≤ value'.toNat - min.toNat := by omega
  exact min_le_min_right _ hoffset

theorem pointerOffset_of_le {value : UInt64} (h : value ≤ max) :
    pointerOffset value min max = value.toNat - min.toNat := by
  have hvalue : value.toNat ≤ max.toNat := UInt64.le_iff_toNat_le.mp h
  have hoffset : value.toNat - min.toNat ≤ max.toNat - min.toNat := by omega
  exact min_eq_left hoffset

/-- The offset that the code computes from the clamped value. -/
theorem toNat_clamped (hrange : min < max) (value : UInt64) :
    ((if (if value < min then min else value) > max then max
      else if value < min then min else value) - min).toNat = pointerOffset value min max := by
  have hlt : min.toNat < max.toNat := UInt64.lt_iff_toNat_lt.mp hrange
  rw [pointerOffset]
  by_cases hlow : value < min
  · have hvalue : value.toNat < min.toNat := UInt64.lt_iff_toNat_lt.mp hlow
    have hmin : ¬ min > max := fun h => by
      have hgt : max.toNat < min.toNat := UInt64.lt_iff_toNat_lt.mp h
      omega
    rw [if_pos hlow, if_neg hmin, UInt64.sub_self]
    have hzero : value.toNat - min.toNat = 0 := by omega
    simp [hzero]
  · have hvalue : min.toNat ≤ value.toNat := by
      have h := mt UInt64.lt_iff_toNat_lt.mpr hlow
      omega
    rw [if_neg hlow]
    by_cases hhigh : value > max
    · have hmax : max.toNat < value.toNat := UInt64.lt_iff_toNat_lt.mp hhigh
      have hle : max.toNat - min.toNat ≤ value.toNat - min.toNat := by omega
      rw [if_pos hhigh, UInt64.toNat_sub_of_le _ _ (UInt64.le_iff_toNat_le.mpr hlt.le)]
      exact (min_eq_right hle).symm
    · have hmax : value.toNat ≤ max.toNat := by
        have h := mt UInt64.lt_iff_toNat_lt.mpr hhigh
        omega
      have hle : value.toNat - min.toNat ≤ max.toNat - min.toNat := by omega
      rw [if_neg hhigh, UInt64.toNat_sub_of_le _ _ (UInt64.le_iff_toNat_le.mpr hvalue)]
      exact (min_eq_left hle).symm

/-- An overflow of the product never carries a coordinate past the last pixel. -/
theorem wrapped_quotient_le {offset range scale : Nat} (h : offset ≤ range) :
    offset * scale % 2 ^ 64 / range ≤ scale := by
  apply Nat.div_le_of_le_mul
  exact (Nat.mod_le _ _).trans (Nat.mul_le_mul_right scale h)

theorem toInt_of_small {scaled : UInt64} (h : scaled.toNat < 2 ^ 31) :
    scaled.toUInt32.toInt32.toInt = scaled.toNat := by
  have hnat : scaled.toUInt32.toNat = scaled.toNat := by
    rw [UInt64.toNat_toUInt32, Nat.mod_eq_of_lt (by omega)]
  have hsmall : 2 * scaled.toUInt32.toNat < 2 ^ 32 := by omega
  rw [← hnat]
  exact BitVec.toInt_eq_toNat_of_lt hsmall

/-- What the 64-bit arithmetic computes. -/
theorem toInt_pointerScaleAxis (hrange : min < max) (hone : 1 ≤ pixels.toNat)
    (hpixels : pixels.toNat < 2 ^ 31) (value : UInt64) :
    (pointerScaleAxis value min max pixels).toInt =
      (pointerOffset value min max * (pixels.toNat - 1) % 2 ^ 64 / (max.toNat - min.toNat) : Nat) := by
  have hlt : min.toNat < max.toNat := UInt64.lt_iff_toNat_lt.mp hrange
  have hguard : ¬ (pixels = 0 ∨ max ≤ min) := by
    intro h
    cases h with
    | inl hzero => simp [hzero] at hone
    | inr hle =>
      have hnat : max.toNat ≤ min.toNat := UInt64.le_iff_toNat_le.mp hle
      omega
  have hrangeNat : (max - min).toNat = max.toNat - min.toNat :=
    UInt64.toNat_sub_of_le _ _ (UInt64.le_iff_toNat_le.mpr hlt.le)
  have hpixel : (1 : UInt32) ≤ pixels := UInt32.le_iff_toNat_le.mpr hone
  have hscale : (pixels - 1).toUInt64.toNat = pixels.toNat - 1 := by
    rw [UInt32.toNat_toUInt64, UInt32.toNat_sub_of_le _ _ hpixel]
    rfl
  have hquotient : pointerOffset value min max * (pixels.toNat - 1) % 2 ^ 64 /
      (max.toNat - min.toNat) ≤ pixels.toNat - 1 := wrapped_quotient_le (pointerOffset_le value)
  rw [pointerScaleAxis, if_neg hguard]
  dsimp only
  rw [← toNat_clamped hrange value] at hquotient ⊢
  generalize (if (if value < min then min else value) > max then max
    else if value < min then min else value) - min = offset at hquotient ⊢
  have hscaled : (offset * (pixels - 1).toUInt64 / (max - min)).toNat =
      offset.toNat * (pixels.toNat - 1) % 2 ^ 64 / (max.toNat - min.toNat) := by
    rw [UInt64.toNat_div, UInt64.toNat_mul, hscale, hrangeNat]
  rw [← hscaled] at hquotient ⊢
  have hsmall : (offset * (pixels - 1).toUInt64 / (max - min)).toNat < 2 ^ 31 := by omega
  exact toInt_of_small hsmall

/-- The arithmetic is exact where the product of the whole range fits 64 bits. -/
theorem toInt_pointerScaleAxis_of_fits (hrange : min < max) (hone : 1 ≤ pixels.toNat)
    (hpixels : pixels.toNat < 2 ^ 31)
    (hfits : (max.toNat - min.toNat) * (pixels.toNat - 1) < 2 ^ 64) (value : UInt64) :
    (pointerScaleAxis value min max pixels).toInt =
      (pointerOffset value min max * (pixels.toNat - 1) / (max.toNat - min.toNat) : Nat) := by
  have hproduct : pointerOffset value min max * (pixels.toNat - 1) < 2 ^ 64 :=
    (Nat.mul_le_mul_right _ (pointerOffset_le value)).trans_lt hfits
  rw [toInt_pointerScaleAxis hrange hone hpixels, Nat.mod_eq_of_lt hproduct]

/-- Where it does not, the greatest value misses the last pixel. -/
theorem toInt_pointerScaleAxis_max_lt (hrange : min < max) (hone : 1 ≤ pixels.toNat)
    (hpixels : pixels.toNat < 2 ^ 31)
    (hover : 2 ^ 64 ≤ (max.toNat - min.toNat) * (pixels.toNat - 1)) :
    (pointerScaleAxis max min max pixels).toInt < pixels.toNat - 1 := by
  have hquotient : (max.toNat - min.toNat) * (pixels.toNat - 1) % 2 ^ 64 /
      (max.toNat - min.toNat) < pixels.toNat - 1 := by
    apply Nat.div_lt_of_lt_mul
    exact (Nat.mod_lt _ (by decide)).trans_le hover
  rw [toInt_pointerScaleAxis hrange hone hpixels, pointerOffset_of_le (UInt64.le_refl max)]
  omega

/-- The whole law holds of a range exactly if its product with the last pixel fits 64 bits. -/
theorem pointerScales_iff (hrange : min < max) (hone : 1 ≤ pixels.toNat)
    (hpixels : pixels.toNat < 2 ^ 31) :
    PointerScales min max pixels ↔
      (max.toNat - min.toNat) * (pixels.toNat - 1) < 2 ^ 64 := by
  constructor
  · intro hscales
    by_contra hover
    have hlast := toInt_pointerScaleAxis_max_lt hrange hone hpixels (not_lt.mp hover)
    rw [hscales.last] at hlast
    exact lt_irrefl _ hlast
  · intro hfits
    have hvalue := toInt_pointerScaleAxis_of_fits hrange hone hpixels hfits
    have hlt : min.toNat < max.toNat := UInt64.lt_iff_toNat_lt.mp hrange
    have hlow : min ≤ max := UInt64.le_iff_toNat_le.mpr hlt.le
    constructor
    · intro value
      rw [hvalue]
      exact Int.natCast_nonneg _
    · intro value
      have hquotient : pointerOffset value min max * (pixels.toNat - 1) /
          (max.toNat - min.toNat) ≤ pixels.toNat - 1 :=
        Nat.div_le_of_le_mul (Nat.mul_le_mul_right _ (pointerOffset_le value))
      rw [hvalue]
      omega
    · rw [hvalue, pointerOffset_of_le hlow]
      simp
    · have hpos : 0 < max.toNat - min.toNat := by omega
      rw [hvalue, pointerOffset_of_le (UInt64.le_refl max), Nat.mul_div_cancel_left _ hpos]
      omega
    · intro value value' h
      rw [hvalue, hvalue]
      apply Int.ofNat_le.mpr
      exact Nat.div_le_div_right (Nat.mul_le_mul_right _ (pointerOffset_mono h))
    · intro value _ hmax
      rw [hvalue, pointerOffset_of_le hmax]

end Axis

theorem pointerScales_iff_tablet :
    PointerScales 0 32767 1024 ↔ ((32767 : UInt64).toNat - (0 : UInt64).toNat) *
      ((1024 : UInt32).toNat - 1) < 2 ^ 64 :=
  pointerScales_iff (by decide) (by decide) (by decide)

/-- On a range of half the 64-bit values and a screen of three pixels the right edge is drawn at the
left one. -/
theorem not_pointerScales : ¬ ∀ (min max : UInt64) (pixels : UInt32), min < max →
    1 ≤ pixels.toNat → pixels.toNat < 2 ^ 31 → PointerScales min max pixels := by
  intro h
  have hlast := (h 0 0x8000000000000000 3 (by decide) (by decide) (by decide)).last
  have hzero : (pointerScaleAxis 0x8000000000000000 0 0x8000000000000000 3).toInt = 0 := by decide
  rw [hzero] at hlast
  cases hlast

end SnsxOS.Arm64
