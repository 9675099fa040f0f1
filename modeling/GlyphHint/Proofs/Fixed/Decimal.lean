import GlyphHint.Proofs.Fixed.Shortest
import GlyphHint.Proofs.Text.Numeral
import GlyphHint.Proofs.Text.Visible
set_option autoImplicit false

/-!
# Decimals of coordinates

The decimal that is shown for a word is the canonical numeral of the coordinate that the word stands
for.  Its places come from long division, one for each remainder; the remainders of a coordinate end
after six places, because 64 divides a million, and the last place is not zero, because it is the
quotient of the last remainder that is not (`placesValue_fractionDigits`, `last_fractionDigits`).
-/

namespace GlyphHint.Fixed

open Text

/-! ## Long division -/

section Division

variable {places r : Nat}

theorem length_fractionDigits_le (places r : Nat) : (fractionDigits places r).length ≤ places := by
  induction places generalizing r with
  | zero => exact Nat.le_refl 0
  | succ places ih =>
    rw [fractionDigits]
    split
    · exact Nat.zero_le _
    · exact Nat.succ_le_succ (ih _)

/-- A remainder that comes to an end leaves one that does so a place earlier. -/
theorem dvd_of_next (h : 64 ∣ 10 ^ (places + 1) * r) : 64 ∣ 10 ^ places * (10 * r % 64) := by
  have hsplit : 10 ^ (places + 1) * r =
      64 * (10 ^ places * (10 * r / 64)) + 10 ^ places * (10 * r % 64) := by
    calc 10 ^ (places + 1) * r = 10 ^ places * (10 * r) := by ring
      _ = 10 ^ places * (64 * (10 * r / 64) + 10 * r % 64) := by rw [Nat.div_add_mod]
      _ = _ := by ring
  rw [hsplit] at h
  exact (Nat.dvd_add_right (Nat.dvd_mul_right 64 _)).mp h

/-- Places that come to an end have the value of the fraction. -/
theorem placesValue_fractionDigits (hr : r < 64) (h : 64 ∣ 10 ^ places * r) :
    Numeral.placesValue (fractionDigits places r) = (r : ℚ) / 64 := by
  induction places generalizing r with
  | zero =>
    have hzero : r = 0 := by
      rw [pow_zero, one_mul] at h
      exact Nat.eq_zero_of_dvd_of_lt h hr
    simp [hzero, Numeral.placesValue]
  | succ places ih =>
    rw [fractionDigits]
    split
    · next hzero => simp [hzero, Numeral.placesValue]
    · have hsplit : (64 * (10 * r / 64 : ℕ) : ℚ) + (10 * r % 64 : ℕ) = 10 * r := by
        exact_mod_cast Nat.div_add_mod (10 * r) 64
      rw [Numeral.placesValue, ih (Nat.mod_lt _ (by norm_num)) (dvd_of_next h)]
      linarith

/-- The last place is the quotient of a remainder that is not zero. -/
theorem last_fractionDigits (hr : r < 64) (h : 64 ∣ 10 ^ places * r) :
    (fractionDigits places r).getLast? ≠ some 0 := by
  induction places generalizing r with
  | zero => simp [fractionDigits]
  | succ places ih =>
    have hlast := ih (Nat.mod_lt (10 * r) (by norm_num)) (dvd_of_next h)
    rw [fractionDigits]
    split
    · simp
    · next hne =>
      cases hrest : fractionDigits places (10 * r % 64) with
      | cons d ds =>
        rw [hrest] at hlast
        simpa using hlast
      | nil =>
        -- the fraction ends with this place, so the division leaves nothing
        have hnext : 10 * r % 64 < 64 := Nat.mod_lt _ (by norm_num)
        have hvalue := placesValue_fractionDigits hnext (dvd_of_next h)
        rw [hrest] at hvalue
        have hzero : 10 * r % 64 = 0 := by
          have : ((10 * r % 64 : ℕ) : ℚ) = 0 := by
            rw [eq_comm, Numeral.placesValue, div_eq_zero_iff] at hvalue
            exact hvalue.resolve_right (by norm_num)
          exact_mod_cast this
        simp only [List.getLast?_singleton, ne_eq, Option.some.injEq]
        omega

theorem fractionDigits_eq_nil_iff : fractionDigits (places + 1) r = [] ↔ r = 0 := by
  rw [fractionDigits]
  split <;> simp_all

end Division

/-! ## The numeral of a coordinate -/

/-- The parts of the decimal of a word. -/
def numeral (v : Int32) : Numeral :=
  ⟨decide (v < 0), v.toInt.natAbs / 64, fractionDigits 6 (v.toInt.natAbs % 64)⟩

variable (v : Int32)

theorem decimal_eq_text : decimal v = (numeral v).text := by
  have hplaces : ∀ r, fractionText r = Numeral.placesText (fractionDigits 6 r) := by
    intro r
    unfold fractionText Numeral.placesText
    split <;> simp_all
  unfold decimal Numeral.text numeral
  simp only [hplaces, decide_eq_true_eq]

theorem remainder_lt : v.toInt.natAbs % 64 < 64 :=
  Nat.mod_lt _ (by norm_num)

/-- The remainders of a coordinate end after six places. -/
theorem dvd_million : 64 ∣ 10 ^ 6 * (v.toInt.natAbs % 64) :=
  Dvd.dvd.mul_right (by norm_num) _

theorem magnitude_numeral : (numeral v).magnitude = |(v.toInt : ℚ)| / 64 := by
  have hsplit : (64 * (v.toInt.natAbs / 64 : ℕ) : ℚ) + (v.toInt.natAbs % 64 : ℕ) =
      |(v.toInt : ℚ)| := by
    rw [← Int.cast_abs, Int.abs_eq_natAbs, Int.cast_natCast]
    exact_mod_cast Nat.div_add_mod v.toInt.natAbs 64
  rw [Numeral.magnitude, numeral, placesValue_fractionDigits (remainder_lt v) (dvd_million v)]
  linarith

theorem lt_zero_iff : v < 0 ↔ v.toInt < 0 :=
  Int32.lt_iff_toInt_lt

theorem value_numeral : (numeral v).value = coordinate v := by
  rw [Numeral.value, magnitude_numeral, coordinate]
  have hnegative : (numeral v).negative = true ↔ v < 0 := decide_eq_true_iff
  by_cases hsign : v < 0
  · have hneg : (v.toInt : ℚ) ≤ 0 := by exact_mod_cast ((lt_zero_iff v).mp hsign).le
    rw [if_pos (hnegative.mpr hsign), abs_of_nonpos hneg]
    ring
  · have hpos : (0 : ℚ) ≤ v.toInt := by
      exact_mod_cast not_lt.mp (mt (lt_zero_iff v).mpr hsign)
    rw [if_neg (mt hnegative.mp hsign), abs_of_nonneg hpos]

theorem canonical_numeral : (numeral v).Canonical where
  digits := fractionDigits_lt_ten (remainder_lt v)
  last := last_fractionDigits (remainder_lt v) (dvd_million v)
  sign := by
    intro hsign
    have hneg : v.toInt < 0 := (lt_zero_iff v).mp (of_decide_eq_true hsign)
    rw [value_numeral, coordinate, div_ne_zero_iff, Int.cast_ne_zero]
    exact ⟨hneg.ne, by norm_num⟩

/-- Different words have different decimals. -/
theorem decimal_inj {v w : Int32} (h : decimal w = decimal v) : w = v := by
  rw [decimal_eq_text, decimal_eq_text] at h
  have hnumeral := (canonical_numeral w).text_inj (canonical_numeral v) h
  rw [← coordinate_inj, ← value_numeral, ← value_numeral, hnumeral]

/-- The decimal of a word is exact.  It is the text of the one canonical numeral whose value is the
64th of the word: the sign is there exactly if the word is negative, the whole part is the one of
the 64th of its magnitude and has no leading zeros, and there are places, six at most, exactly if
64 does not divide the word.  So different words have different decimals; and the decimal is the
shortest one that reads as the double of this value. -/
theorem decimal_exact (v : Int32) :
    ∃ n : Numeral, decimal v = n.text ∧ n.Canonical ∧ n.value = (v.toInt : ℚ) / 64 ∧
      (n.negative = true ↔ v < 0) ∧
      n.whole = v.toInt.natAbs / 64 ∧ Json.IsInteger (toString n.whole).toList ∧
      (n.places ≠ [] ↔ ¬ 64 ∣ v.toInt) ∧ n.places.length ≤ 6 ∧
      (∀ m : Numeral, m.Canonical → m.value = (v.toInt : ℚ) / 64 → m = n) ∧
      (∀ w, decimal w = decimal v → w = v) ∧
      IsShortest ((v.toInt : ℚ) / 64) n.value := by
  have hvalue := value_numeral v
  refine ⟨numeral v, decimal_eq_text v, canonical_numeral v, hvalue, ?sign, rfl, ?whole, ?places,
    length_fractionDigits_le 6 _, ?unique, fun w => decimal_inj, ?shortest⟩
  case sign => exact decide_eq_true_iff
  case whole =>
    have hwhole : (toString (numeral v).whole).toList = Nat.toDigits 10 (numeral v).whole :=
      Nat.toList_repr
    rw [hwhole]
    exact isInteger_toDigits _
  case places =>
    have hdvd : v.toInt.natAbs % 64 = 0 ↔ 64 ∣ v.toInt := by omega
    exact not_congr (fractionDigits_eq_nil_iff.trans hdvd)
  case unique =>
    intro m hm hsame
    exact hm.unique (canonical_numeral v) (hsame.trans hvalue.symm)
  case shortest =>
    rw [hvalue]
    exact isShortest_coordinate v

/-- The word -1 stands for a fraction between -1 and 0, which still has its sign. -/
theorem decimal_exact_minusOne :
    decimal (-1) = "-0.015625" ∧ (Numeral.mk true 0 [0, 1, 5, 6, 2, 5]).Canonical ∧
      (Numeral.mk true 0 [0, 1, 5, 6, 2, 5]).value = ((-1 : Int32).toInt : ℚ) / 64 ∧
      ∀ w, decimal w = decimal (-1) → w = -1 := by
  obtain ⟨n, htext, -, -, -, -, -, -, -, hunique, hinj, -⟩ := decimal_exact (-1)
  have hvalue : (Numeral.mk true 0 [0, 1, 5, 6, 2, 5]).value = ((-1 : Int32).toInt : ℚ) / 64 := by
    have hint : (-1 : Int32).toInt = -1 := rfl
    rw [hint]
    norm_num [Numeral.value, Numeral.magnitude, Numeral.placesValue]
  have hcanonical : (Numeral.mk true 0 [0, 1, 5, 6, 2, 5]).Canonical := by
    refine ⟨by decide, by decide, fun _ => ?_⟩
    norm_num [Numeral.value, Numeral.magnitude, Numeral.placesValue]
  refine ⟨?_, hcanonical, hvalue, hinj⟩
  rw [htext, ← hunique _ hcanonical hvalue]
  rfl

end GlyphHint.Fixed
