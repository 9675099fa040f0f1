import GlyphHint.Fixed
import Mathlib.Algebra.Order.Ring.Abs
import Mathlib.Tactic.Linarith
import Mathlib.Tactic.NormNum
import Mathlib.Tactic.Ring
set_option autoImplicit false

/-!
# Products and quotients of coordinates

The 64-bit intermediates of a product and of a quotient hold the integers that they stand for:
neither the product of two words, nor a word shifted by six bits, nor a quotient of these leaves the
range of a signed 64-bit word (`toInt_wideProduct`, `toInt_widened`, `toInt_wideQuotient`).  So the
only places where a result departs from the rational one are its rounding, which is down for
products and toward zero for quotients, and the cut to 32 bits, which keeps the signed residue.
-/

namespace GlyphHint.Fixed

/-- The integer is the value of a signed 32-bit word. -/
def Fits (z : Int) : Prop :=
  -2 ^ 31 ≤ z ∧ z < 2 ^ 31

instance (z : Int) : Decidable (Fits z) :=
  inferInstanceAs (Decidable (_ ∧ _))

theorem fits_toInt (x : Int32) : Fits x.toInt :=
  ⟨x.le_toInt, x.toInt_lt⟩

/-- Cutting an integer that fits changes nothing. -/
theorem Fits.bmod_eq {z : Int} (h : Fits z) : z.bmod (2 ^ 32) = z := by
  obtain ⟨hlow, hhigh⟩ := h
  norm_num at hlow hhigh
  exact Int.bmod_eq_of_le (by norm_num; omega) (by norm_num; omega)

theorem Fits.toInt_ofInt {z : Int} (h : Fits z) : (Int32.ofInt z).toInt = z :=
  Int32.toInt_ofInt.trans h.bmod_eq

/-! ## Wide intermediates -/

variable (a b : Int32)

theorem abs_toInt_le : |a.toInt| ≤ 2 ^ 31 :=
  abs_le.mpr ⟨a.le_toInt, a.toInt_lt.le⟩

/-- The product of two words fits 64 bits. -/
theorem toInt_wideProduct : (a.toInt64 * b.toInt64).toInt = a.toInt * b.toInt := by
  have hsize : |a.toInt * b.toInt| ≤ 2 ^ 31 * 2 ^ 31 := by
    rw [abs_mul]
    exact mul_le_mul (abs_toInt_le a) (abs_toInt_le b) (abs_nonneg _) (by norm_num)
  obtain ⟨hlow, hhigh⟩ := abs_le.mp hsize
  norm_num at hlow hhigh
  rw [Int64.toInt_mul, Int32.toInt_toInt64, Int32.toInt_toInt64]
  exact Int.bmod_eq_of_le (by norm_num; omega) (by norm_num; omega)

/-- Shifting a wide word down by six bits rounds its 64th part down. -/
theorem toInt_shiftRight_six (x : Int64) : (x >>> 6).toInt = x.toInt.fdiv 64 := by
  have hbits : (x >>> 6).toBitVec = x.toBitVec.sshiftRight 6 := by
    rw [Int64.toBitVec_shiftRight]
    rfl
  have hvalue : (x >>> 6).toInt = x.toInt / 64 := by
    change (x >>> 6).toBitVec.toInt = _
    rw [hbits, BitVec.toInt_sshiftRight, Int.shiftRight_eq_div_pow]
    rfl
  rw [hvalue, Int.fdiv_eq_ediv_of_nonneg _ (by norm_num)]

/-- Shifting up by six bits multiplies by 64. -/
theorem shiftLeft_six (x : Int64) : x <<< 6 = x * 64 := by
  apply Int64.toBitVec_inj.mp
  rw [Int64.toBitVec_shiftLeft, Int64.toBitVec_mul]
  change x.toBitVec <<< 6 = _
  rw [BitVec.shiftLeft_eq_mul_twoPow]
  rfl

/-- A word shifted up by six bits fits 64 bits. -/
theorem toInt_widened : (a.toInt64 <<< 6).toInt = 64 * a.toInt := by
  have h := toInt_wideProduct a 64
  rw [shiftLeft_six, mul_comm (64 : Int)]
  exact h

/-- A quotient with a widened dividend fits 64 bits. -/
theorem toInt_wideQuotient :
    ((a.toInt64 <<< 6) / b.toInt64).toInt = (64 * a.toInt).tdiv b.toInt := by
  -- Only the least wide word has a quotient that does not fit, and the dividend is far above it.
  have hdividend : a.toInt64 <<< 6 ≠ Int64.minValue := by
    intro h
    have hvalue : 64 * a.toInt = -2 ^ 63 := by
      rw [← toInt_widened, h]
      rfl
    have hlow := a.le_toInt
    omega
  rw [Int64.toInt_div_of_ne_left _ _ hdividend, toInt_widened, Int32.toInt_toInt64]

/-! ## Results -/

theorem toInt_mul : (mul a b).toInt = ((a.toInt * b.toInt).fdiv 64).bmod (2 ^ 32) := by
  rw [mul, Int64.toInt_toInt32, toInt_shiftRight_six, toInt_wideProduct]

theorem exists_div? {b : Int32} (h : b ≠ 0) :
    ∃ q, div? a b = some q ∧ q.toInt = ((64 * a.toInt).tdiv b.toInt).bmod (2 ^ 32) := by
  refine ⟨_, if_neg h, ?_⟩
  rw [Int64.toInt_toInt32, toInt_wideQuotient]

/-- A quotient that comes out at a word is that word. -/
theorem div?_of_tdiv_eq {a b q : Int32} (h : b ≠ 0) (hq : (64 * a.toInt).tdiv b.toInt = q.toInt) :
    div? a b = some q := by
  obtain ⟨r, hr, hvalue⟩ := exists_div? a h
  rw [hq, (fits_toInt q).bmod_eq] at hvalue
  rw [hr, Int32.toInt_inj.mp hvalue]

theorem mul_comm_word : mul a b = mul b a := by
  apply Int32.toInt_inj.mp
  rw [toInt_mul, toInt_mul, mul_comm a.toInt]

/-- A product with a word of whole units loses nothing if it fits. -/
theorem toInt_mul_whole {a b : Int32} {n : Int} (hb : b.toInt = 64 * n)
    (hfits : Fits (a.toInt * n)) : (mul a b).toInt = a.toInt * n := by
  have hproduct : a.toInt * b.toInt = a.toInt * n * 64 := by
    rw [hb]
    ring
  rw [toInt_mul, hproduct, Int.mul_fdiv_cancel _ (by norm_num), hfits.bmod_eq]

theorem mul_one_word : mul a one = a := by
  apply Int32.toInt_inj.mp
  have hone : one.toInt = 64 * 1 := rfl
  rw [toInt_mul_whole hone (by rw [mul_one]; exact fits_toInt a), mul_one]

theorem div?_one : div? a one = some a := by
  refine div?_of_tdiv_eq (by decide) ?_
  exact Int.mul_tdiv_cancel_left _ (by decide)

/-- What rounding down drops is nonnegative and less than one unit of the last place. -/
theorem mul_remainder {a b : Int32} (h : Fits ((a.toInt * b.toInt).fdiv 64)) :
    0 ≤ a.toInt * b.toInt - 64 * (mul a b).toInt ∧
      a.toInt * b.toInt - 64 * (mul a b).toInt < 64 := by
  rw [toInt_mul, h.bmod_eq, Int.fdiv_eq_ediv_of_nonneg _ (by norm_num)]
  omega

/-- What rounding toward zero drops is less than the divisor. -/
theorem tdiv_remainder_lt (m : Int) {n : Int} (h : n ≠ 0) : |m - n * m.tdiv n| < |n| := by
  have hsplit := Int.mul_tdiv_add_tmod m n
  have hrest : m - n * m.tdiv n = m.tmod n := by omega
  rw [hrest, Int.abs_eq_natAbs, Int.abs_eq_natAbs, Int.natAbs_tmod]
  have hpos : 0 < n.natAbs := Int.natAbs_pos.mpr h
  exact_mod_cast Nat.mod_lt _ hpos

/-- Dividing a product by its factor gives the other factor back, where the factor is a whole
number and the product fits. -/
theorem div?_mul_whole {b : Int32} {n : Int} (hn : n ≠ 0) (hb : b.toInt = 64 * n)
    (hfits : Fits (a.toInt * n)) : div? (mul a b) b = some a := by
  have hzero : b ≠ 0 := by
    rintro rfl
    have hvalue : (0 : Int) = 64 * n := hb
    omega
  refine div?_of_tdiv_eq hzero ?_
  have hdividend : 64 * (a.toInt * n) = a.toInt * (64 * n) := by ring
  rw [toInt_mul_whole hb hfits, hb, hdividend]
  exact Int.mul_tdiv_cancel _ (by omega)

/-- Products and quotients are exact up to their rounding and the cut to 32 bits.  The 64-bit
product, shifts and quotient are those of the integers.  A product is the signed residue of a 64th
of the integer product, rounded down; a quotient, which there is unless the divisor is zero, is that
of 64 times the dividend by the divisor, rounded toward zero.  So the order of factors does not
matter and one is neutral; where nothing is cut, the rounding drops less than a unit of the last
place or than the divisor; and a division undoes a multiplication by a whole number. -/
theorem products_and_quotients_exact (a b : Int32) :
    ((a.toInt64 * b.toInt64).toInt = a.toInt * b.toInt ∧
      ((a.toInt64 * b.toInt64) >>> 6).toInt = (a.toInt * b.toInt).fdiv 64 ∧
      (a.toInt64 <<< 6).toInt = 64 * a.toInt ∧
      ((a.toInt64 <<< 6) / b.toInt64).toInt = (64 * a.toInt).tdiv b.toInt) ∧
    ((mul a b).toInt = ((a.toInt * b.toInt).fdiv 64).bmod (2 ^ 32) ∧
      (Fits ((a.toInt * b.toInt).fdiv 64) →
        0 ≤ a.toInt * b.toInt - 64 * (mul a b).toInt ∧
          a.toInt * b.toInt - 64 * (mul a b).toInt < 64)) ∧
    ((div? a b = none ↔ b = 0) ∧
      (b ≠ 0 → ∃ q, div? a b = some q ∧
        q.toInt = ((64 * a.toInt).tdiv b.toInt).bmod (2 ^ 32) ∧
        (Fits ((64 * a.toInt).tdiv b.toInt) →
          |64 * a.toInt - b.toInt * q.toInt| < |b.toInt|))) ∧
    (mul a b = mul b a ∧ mul a one = a ∧ mul one a = a ∧ div? a one = some a) ∧
    ∀ n : Int, n ≠ 0 → Fits (64 * n) → Fits (a.toInt * n) →
      div? (mul a (Int32.ofInt (64 * n))) (Int32.ofInt (64 * n)) = some a := by
  refine ⟨⟨toInt_wideProduct a b, ?_, toInt_widened a, toInt_wideQuotient a b⟩,
    ⟨toInt_mul a b, mul_remainder⟩, ⟨div?_eq_none_iff a b, ?_⟩,
    ⟨mul_comm_word a b, mul_one_word a, ?_, div?_one a⟩, ?_⟩
  · rw [toInt_shiftRight_six, toInt_wideProduct]
  · intro hb
    obtain ⟨q, hq, hvalue⟩ := exists_div? a hb
    refine ⟨q, hq, hvalue, ?_⟩
    intro hfits
    have hdivisor : b.toInt ≠ 0 := fun h => hb (Int32.toInt_inj.mp h)
    rw [hvalue, hfits.bmod_eq]
    exact tdiv_remainder_lt _ hdivisor
  · rw [mul_comm_word]
    exact mul_one_word a
  · intro n hn hfactor hproduct
    exact div?_mul_whole a hn hfactor.toInt_ofInt hproduct

/-- The product of -23 and 7 rounds -161/64 down and their quotient rounds -1472/7 toward zero; a
division by the whole number -3 undoes the multiplication by it. -/
theorem products_and_quotients_exact_negative :
    (Fits ((-161 : Int).fdiv 64) ∧ 0 ≤ -161 - 64 * (mul (-23) 7).toInt ∧
      -161 - 64 * (mul (-23) 7).toInt < 64) ∧
    ((7 : Int32) ≠ 0 ∧ Fits ((64 * -23 : Int).tdiv 7) ∧
      ∃ q, div? (-23) 7 = some q ∧ |64 * -23 - 7 * q.toInt| < |(7 : Int)|) ∧
    ((-3 : Int) ≠ 0 ∧ Fits (64 * -3) ∧ Fits (-23 * -3) ∧
      div? (mul (-23) (Int32.ofInt (64 * -3))) (Int32.ofInt (64 * -3)) = some (-23)) := by
  obtain ⟨-, ⟨-, hmul⟩, ⟨-, hdiv⟩, -, hundo⟩ := products_and_quotients_exact (-23) 7
  have hfloor : Fits ((-161 : Int).fdiv 64) := by decide
  have htruncated : Fits ((64 * -23 : Int).tdiv 7) := by decide
  obtain ⟨q, hq, -, hrest⟩ := hdiv (by decide)
  refine ⟨⟨hfloor, hmul hfloor⟩, ⟨by decide, htruncated, q, hq, hrest htruncated⟩, ?_⟩
  exact ⟨by decide, by decide, by decide, hundo (-3) (by decide) (by decide) (by decide)⟩

end GlyphHint.Fixed
