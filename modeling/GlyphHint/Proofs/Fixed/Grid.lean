import GlyphHint.Proofs.Fixed.Scaling
import Mathlib.Order.Bounds.Defs
set_option autoImplicit false

/-!
# Rounding to the grid

The grid is made of the words that stand for whole numbers, the multiples of 64.  Clearing the six
fraction bits of a word rounds it down to the grid, also where the word is negative
(`toInt_floor`).  Rounding up adds 63 before, so it reaches the next grid point as long as the sum
does not wrap (`toInt_ceiling`).  It wraps for the 63 greatest words, above which no grid point
fits; they are rounded to the least word, which lies on the grid too (`ceiling_of_top`).
-/

namespace GlyphHint.Fixed

/-! ## Clearing the fraction -/

/-- A word is the sum of what the mask clears and what it keeps. -/
theorem toNat_clear_add_fraction (b : BitVec 32) :
    (b &&& ~~~63#32).toNat + (b &&& 63#32).toNat = b.toNat := by
  have hapart : (b &&& ~~~63#32) &&& (b &&& 63#32) = 0#32 := by
    ext i
    simp only [BitVec.getElem_and, BitVec.getElem_not]
    grind
  have hjoin : (b &&& ~~~63#32) ||| (b &&& 63#32) = b := by
    ext i
    simp only [BitVec.getElem_or, BitVec.getElem_and, BitVec.getElem_not]
    grind
  rw [← BitVec.toNat_add_of_and_eq_zero hapart, BitVec.add_eq_or_of_and_eq_zero _ _ hapart, hjoin]

theorem toNat_clear (b : BitVec 32) : (b &&& ~~~63#32).toNat = 64 * (b.toNat / 64) := by
  have hfraction : (b &&& 63#32).toNat = b.toNat % 64 := by
    rw [BitVec.toNat_and]
    exact Nat.and_two_pow_sub_one_eq_mod b.toNat 6
  have hsum := toNat_clear_add_fraction b
  omega

variable {x y : Int32}

/-- Rounding down divides by 64 and rounds the quotient down. -/
theorem toInt_floor (x : Int32) : (floor x).toInt = 64 * (x.toInt / 64) := by
  have hclear : (floor x).toBitVec.toNat = 64 * (x.toBitVec.toNat / 64) := toNat_clear x.toBitVec
  have hx : x.toInt = x.toBitVec.toInt := rfl
  have hfloor : (floor x).toInt = (floor x).toBitVec.toInt := rfl
  have hlt := x.toBitVec.isLt
  rw [hfloor, hx, BitVec.toInt_eq_toNat_cond, BitVec.toInt_eq_toNat_cond, hclear]
  split <;> split <;> omega

/-- Rounding up is rounding down after the addition. -/
theorem ceiling_eq_floor (x : Int32) : ceiling x = floor (x + 63) :=
  rfl

theorem toInt_add_63 (h : x.toInt ≤ 2 ^ 31 - 64) : (x + 63).toInt = x.toInt + 63 := by
  have hsum : (x + 63).toInt = (x.toInt + 63).bmod (2 ^ 32) := Int32.toInt_add x 63
  have hlow := x.le_toInt
  have hfits : Fits (x.toInt + 63) := ⟨by omega, by omega⟩
  rw [hsum, hfits.bmod_eq]

theorem toInt_ceiling (h : x.toInt ≤ 2 ^ 31 - 64) :
    (ceiling x).toInt = 64 * ((x.toInt + 63) / 64) := by
  rw [ceiling_eq_floor, toInt_floor, toInt_add_63 h]

/-- The words above the greatest grid point wrap to the least word. -/
theorem ceiling_of_top (h : 2 ^ 31 - 64 < x.toInt) : ceiling x = Int32.minValue := by
  have hhigh := x.toInt_lt
  have hsum : (x + 63).toInt = (x.toInt + 63).bmod (2 ^ 32) := Int32.toInt_add x 63
  have hwraps : (x.toInt + 63).bmod (2 ^ 32) = x.toInt + 63 - 2 ^ 32 := by
    rw [← Int.sub_bmod_right]
    exact Int.bmod_eq_of_le (by norm_num; omega) (by norm_num; omega)
  have hleast : Int32.minValue.toInt = -2 ^ 31 := rfl
  apply Int32.toInt_inj.mp
  rw [ceiling_eq_floor, toInt_floor, hsum, hwraps, hleast]
  omega

/-! ## The grid -/

theorem floor_of_dvd (h : 64 ∣ x.toInt) : floor x = x := by
  apply Int32.toInt_inj.mp
  rw [toInt_floor]
  omega

theorem ceiling_of_dvd (h : 64 ∣ x.toInt) : ceiling x = x := by
  have hhigh := x.toInt_lt
  apply Int32.toInt_inj.mp
  rw [toInt_ceiling (by omega)]
  omega

theorem dvd_floor (x : Int32) : 64 ∣ (floor x).toInt := by
  rw [toInt_floor]
  exact Int.dvd_mul_right 64 _

theorem dvd_ceiling (x : Int32) : 64 ∣ (ceiling x).toInt :=
  dvd_floor (x + 63)

theorem isGreatest_floor (x : Int32) :
    IsGreatest {m : Int | 64 ∣ m ∧ m ≤ x.toInt} (floor x).toInt := by
  refine ⟨⟨dvd_floor x, ?_⟩, ?_⟩
  · rw [toInt_floor]
    omega
  · rintro m ⟨hm, hle⟩
    rw [toInt_floor]
    omega

theorem isLeast_ceiling (h : x.toInt ≤ 2 ^ 31 - 64) :
    IsLeast {m : Int | 64 ∣ m ∧ x.toInt ≤ m} (ceiling x).toInt := by
  refine ⟨⟨dvd_ceiling x, ?_⟩, ?_⟩
  · rw [toInt_ceiling h]
    omega
  · rintro m ⟨hm, hle⟩
    rw [toInt_ceiling h]
    omega

theorem floor_mono (h : x ≤ y) : floor x ≤ floor y := by
  rw [Int32.le_iff_toInt_le] at h ⊢
  rw [toInt_floor, toInt_floor]
  omega

theorem ceiling_mono (h : x ≤ y) (hy : y.toInt ≤ 2 ^ 31 - 64) : ceiling x ≤ ceiling y := by
  rw [Int32.le_iff_toInt_le] at h ⊢
  rw [toInt_ceiling (h.trans hy), toInt_ceiling hy]
  omega

/-! ## Mirror images -/

/-- Negation is exact but for the least word, which is its own negative. -/
theorem toInt_neg_of_ne (h : x ≠ Int32.minValue) : (-x).toInt = -x.toInt := by
  have hleast : x.toInt ≠ -2 ^ 31 := fun hx => h (Int32.toInt_inj.mp hx)
  have hlow := x.le_toInt
  have hhigh := x.toInt_lt
  have hfits : Fits (-x.toInt) := ⟨by omega, by omega⟩
  rw [Int32.toInt_neg, hfits.bmod_eq]

/-- Rounding up mirrors rounding down, also where it wraps. -/
theorem ceiling_eq_neg_floor_neg (x : Int32) : ceiling x = -floor (-x) := by
  by_cases hleast : x = Int32.minValue
  · rw [hleast]
    rfl
  have hneg := toInt_neg_of_ne hleast
  by_cases htop : x.toInt ≤ 2 ^ 31 - 64
  · have hinside : floor (-x) ≠ Int32.minValue := by
      intro h
      have hvalue : (floor (-x)).toInt = -2 ^ 31 := by
        rw [h]
        rfl
      rw [toInt_floor, hneg] at hvalue
      omega
    apply Int32.toInt_inj.mp
    rw [toInt_ceiling htop, toInt_neg_of_ne hinside, toInt_floor, hneg]
    omega
  · have htop : 2 ^ 31 - 64 < x.toInt := not_le.mp htop
    have hhigh := x.toInt_lt
    have hfloor : floor (-x) = Int32.minValue := by
      have hvalue : Int32.minValue.toInt = -2 ^ 31 := rfl
      apply Int32.toInt_inj.mp
      rw [toInt_floor, hneg, hvalue]
      omega
    rw [ceiling_of_top htop, hfloor]
    rfl

/-- Rounding to the grid is exact.  A word is rounded down to the greatest multiple of 64 that is
not above it, and up to the least one that is not below it, except that the words above the greatest
grid point are rounded up to the least word.  What is rounded stays where it is, in whichever way it
is rounded again; the order of words is kept, for rounding up as far as it does not wrap; and
rounding up is the mirror image of rounding down. -/
theorem rounding_to_grid_exact (x : Int32) :
    IsGreatest {m : Int | 64 ∣ m ∧ m ≤ x.toInt} (floor x).toInt ∧
    (x.toInt ≤ 2 ^ 31 - 64 → IsLeast {m : Int | 64 ∣ m ∧ x.toInt ≤ m} (ceiling x).toInt) ∧
    (2 ^ 31 - 64 < x.toInt → ceiling x = Int32.minValue) ∧
    (floor (floor x) = floor x ∧ ceiling (ceiling x) = ceiling x ∧
      floor (ceiling x) = ceiling x ∧ ceiling (floor x) = floor x) ∧
    (∀ y, x ≤ y → floor x ≤ floor y) ∧
    (∀ y, x ≤ y → y.toInt ≤ 2 ^ 31 - 64 → ceiling x ≤ ceiling y) ∧
    ceiling x = -floor (-x) := by
  refine ⟨isGreatest_floor x, isLeast_ceiling, ceiling_of_top, ⟨?_, ?_, ?_, ?_⟩,
    fun _ => floor_mono, fun _ => ceiling_mono, ceiling_eq_neg_floor_neg x⟩
  · exact floor_of_dvd (dvd_floor x)
  · exact ceiling_of_dvd (dvd_ceiling x)
  · exact floor_of_dvd (dvd_ceiling x)
  · exact ceiling_of_dvd (dvd_floor x)

/-- A negative word between two grid points, the greatest grid point, and the word behind it, which
wraps. -/
theorem rounding_to_grid_exact_edges :
    ((-65 : Int32).toInt ≤ 2 ^ 31 - 64 ∧
      IsLeast {m : Int | 64 ∣ m ∧ -65 ≤ m} (ceiling (-65)).toInt ∧
      (-65 : Int32) ≤ 2147483584 ∧ floor (-65) ≤ floor 2147483584 ∧
      (2147483584 : Int32).toInt ≤ 2 ^ 31 - 64 ∧ ceiling (-65) ≤ ceiling 2147483584) ∧
    (2 ^ 31 - 64 < (2147483585 : Int32).toInt ∧ ceiling 2147483585 = Int32.minValue) := by
  obtain ⟨-, hleast, -, -, hfloor, hceiling, -⟩ := rounding_to_grid_exact (-65)
  obtain ⟨-, -, hwraps, -⟩ := rounding_to_grid_exact 2147483585
  have horder : (-65 : Int32) ≤ 2147483584 := by decide
  refine ⟨⟨by decide, hleast (by decide), horder, hfloor _ horder, by decide,
    hceiling _ horder (by decide)⟩, by decide, hwraps (by decide)⟩

end GlyphHint.Fixed
