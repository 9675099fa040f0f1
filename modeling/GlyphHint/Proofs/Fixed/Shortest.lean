import GlyphHint.Proofs.Fixed.Scaling
import Mathlib.Algebra.Field.Rat
import Mathlib.Algebra.Order.Field.Power
import Mathlib.Algebra.Order.Ring.Rat
import Mathlib.Tactic.FieldSimp
import Mathlib.Tactic.Positivity
set_option autoImplicit false

/-!
# Shortest decimals of coordinates

A double is a binary number of 53 significant bits (`IsDouble`), and a decimal reads as a double
that is nearest to it (`ReadsAs`).  The coordinate that a word stands for is a double, and it is the
shortest decimal that reads as this double: any other decimal that does needs more digits
(`isShortest_coordinate`).  The reason is that a coordinate has six places at most, while the
doubles around it lie so close that no other decimal of six places reads as it.
-/

namespace GlyphHint.Fixed

/-- The coordinate that a word stands for. -/
def coordinate (v : Int32) : ℚ :=
  (v.toInt : ℚ) / 64

theorem coordinate_inj {v w : Int32} : coordinate v = coordinate w ↔ v = w := by
  unfold coordinate
  rw [div_left_inj' (by norm_num), Int.cast_inj, Int32.toInt_inj]

/-! ## Doubles and decimals -/

/-- The rational is the value of a finite double. -/
def IsDouble (x : ℚ) : Prop :=
  ∃ m e : ℤ, |m| < 2 ^ 53 ∧ -1074 ≤ e ∧ e ≤ 971 ∧ x = m * 2 ^ e

/-- The decimal is read as this double, which no other double is nearer to. -/
def ReadsAs (d x : ℚ) : Prop :=
  IsDouble x ∧ ∀ y, IsDouble y → |d - x| ≤ |d - y|

/-- The rational is a decimal with that many significant digits at most. -/
def HasDigits (k : ℕ) (d : ℚ) : Prop :=
  ∃ n e : ℤ, |n| < 10 ^ k ∧ d = n * 10 ^ e

/-- The decimal is read as this double, and any other one that is needs more digits. -/
def IsShortest (x d : ℚ) : Prop :=
  ReadsAs d x ∧ ∀ d' k, ReadsAs d' x → HasDigits k d' → d' = d ∨ ∃ j < k, HasDigits j d

theorem IsDouble.readsAs {x : ℚ} (h : IsDouble x) : ReadsAs x x := by
  refine ⟨h, fun y _ => ?_⟩
  rw [sub_self, abs_zero]
  exact abs_nonneg _

/-! ## Around a coordinate -/

variable {v : Int32} {d : ℚ}

/-- The multiples of `2⁻²⁷` next to a coordinate are doubles, and it is one itself. -/
theorem isDouble_near {n : ℤ} (hn : |n| ≤ 1) : IsDouble (coordinate v + n * 2 ^ (-27 : ℤ)) := by
  have hlow := v.le_toInt
  have hhigh := v.toInt_lt
  obtain ⟨hn, hn'⟩ := abs_le.mp hn
  refine ⟨v.toInt * 2 ^ 21 + n, -27, ?_, by norm_num, by norm_num, ?_⟩
  · rw [abs_lt]
    constructor <;> omega
  · unfold coordinate
    push_cast
    rw [zpow_neg]
    norm_num
    ring

theorem isDouble_coordinate (v : Int32) : IsDouble (coordinate v) := by
  have h := isDouble_near (v := v) (n := 0) (by norm_num)
  simpa using h

/-- What is no nearer to either neighbour than to the point between them lies within half their
distance. -/
theorem abs_sub_le_half {x y : ℚ} (hpos : 0 < y) (habove : |d - x| ≤ |d - (x + y)|)
    (hbelow : |d - x| ≤ |d - (x - y)|) : |d - x| ≤ y / 2 := by
  have habove := sq_le_sq.mpr habove
  have hbelow := sq_le_sq.mpr hbelow
  rw [abs_le]
  constructor <;> nlinarith

/-- A decimal that reads as a coordinate lies close to it. -/
theorem abs_sub_lt_of_readsAs (h : ReadsAs d (coordinate v)) :
    |d - coordinate v| < 1 / 10 ^ 8 := by
  have habove := h.2 _ (isDouble_near (v := v) (n := 1) (by norm_num))
  have hbelow := h.2 _ (isDouble_near (v := v) (n := -1) (by norm_num))
  rw [Int.cast_one, one_mul] at habove
  rw [Int.cast_neg, Int.cast_one, neg_one_mul, ← sub_eq_add_neg] at hbelow
  refine (abs_sub_le_half (by positivity) habove hbelow).trans_lt ?_
  norm_num

/-- A coordinate has six places at most. -/
theorem coordinate_eq_millionths (v : Int32) :
    coordinate v = ((15625 * v.toInt : ℤ) : ℚ) / 10 ^ 6 := by
  unfold coordinate
  push_cast
  ring

/-- No other decimal of six places reads as the coordinate. -/
theorem eq_of_readsAs_millionths {m : ℤ} (h : ReadsAs d (coordinate v)) (hd : d = m / 10 ^ 6) :
    d = coordinate v := by
  have hclose := abs_sub_lt_of_readsAs h
  rw [hd, coordinate_eq_millionths, ← sub_div, abs_div, div_lt_iff₀ (by positivity)] at hclose
  have hless : |(m : ℚ) - ((15625 * v.toInt : ℤ) : ℚ)| < 1 := hclose.trans_le (by norm_num)
  have hsame : |m - 15625 * v.toInt| < 1 := by exact_mod_cast hless
  rw [hd, coordinate_eq_millionths, sub_eq_zero.mp (Int.abs_lt_one_iff.mp hsame)]

/-- A decimal with places behind the sixth that reads as the coordinate needs more digits. -/
theorem exists_fewer_digits {k n : ℕ} {m : ℤ} (h : ReadsAs d (coordinate v)) (hm : |m| < 10 ^ k)
    (hd : d = m / 10 ^ (7 + n)) :
    d = coordinate v ∨ ∃ j < k, HasDigits j (coordinate v) := by
  have hclose := abs_sub_lt_of_readsAs h
  have hlonger : 10 * |15625 * v.toInt| < 10 ^ k := by
    -- with one more digit the coordinate is hardly greater than the decimal, which has `k` of them
    have hvalue : (|15625 * v.toInt| : ℤ) = |coordinate v| * 10 ^ 6 := by
      rw [coordinate_eq_millionths, abs_div, abs_of_pos (by positivity : (0 : ℚ) < 10 ^ 6),
        div_mul_cancel₀ _ (by positivity), Int.cast_abs]
    have hdigits : |d| * 10 ^ 7 ≤ |(m : ℚ)| := by
      rw [hd, abs_div, abs_of_pos (by positivity : (0 : ℚ) < 10 ^ (7 + n)), pow_add,
        div_mul_eq_mul_div, div_le_iff₀ (by positivity)]
      have hpow : (1 : ℚ) ≤ 10 ^ n := one_le_pow₀ (by norm_num)
      nlinarith [abs_nonneg (m : ℚ)]
    have hnear : |coordinate v| ≤ |d| + |d - coordinate v| := by
      have := abs_sub_abs_le_abs_sub (coordinate v) d
      rw [abs_sub_comm] at this
      linarith
    have hless : ((10 * |15625 * v.toInt| : ℤ) : ℚ) < ((|m| + 1 : ℤ) : ℚ) := by
      rw [Int.cast_mul, hvalue, Int.cast_add, Int.cast_one]
      push_cast
      linarith
    have : 10 * |15625 * v.toInt| < |m| + 1 := by exact_mod_cast hless
    omega
  cases k with
  | zero =>
    left
    have hzero : m = 0 := Int.abs_lt_one_iff.mp hm
    have hcoordinate : 15625 * v.toInt = 0 := Int.abs_lt_one_iff.mp (by omega)
    rw [hd, hzero, coordinate_eq_millionths, hcoordinate]
    simp
  | succ k =>
    right
    refine ⟨k, Nat.lt_succ_self k, 15625 * v.toInt, -6, ?_, ?_⟩
    · rw [pow_succ] at hlonger
      omega
    · rw [coordinate_eq_millionths, zpow_neg]
      rfl

/-- A coordinate is the shortest decimal that reads as the double of its value. -/
theorem isShortest_coordinate (v : Int32) : IsShortest (coordinate v) (coordinate v) := by
  refine ⟨(isDouble_coordinate v).readsAs, ?_⟩
  rintro d k h ⟨m, e, hm, hd⟩
  by_cases he : -6 ≤ e
  · left
    obtain ⟨n, hn⟩ := Int.eq_ofNat_of_zero_le (by omega : 0 ≤ e + 6)
    apply eq_of_readsAs_millionths (m := m * 10 ^ n) h
    have hplaces : (10 : ℚ) ^ e * 10 ^ 6 = 10 ^ n := by
      rw [← zpow_natCast, ← zpow_natCast, ← hn, zpow_add₀ (by norm_num)]
      rfl
    rw [hd, eq_div_iff (by positivity), mul_assoc, hplaces]
    push_cast
    rfl
  · obtain ⟨n, hn⟩ := Int.eq_ofNat_of_zero_le (by omega : 0 ≤ -7 - e)
    apply exists_fewer_digits (n := n) h hm
    have hplaces : e = -((7 + n : ℕ) : ℤ) := by
      push_cast
      omega
    rw [hd, hplaces, zpow_neg, zpow_natCast, div_eq_mul_inv]

end GlyphHint.Fixed
