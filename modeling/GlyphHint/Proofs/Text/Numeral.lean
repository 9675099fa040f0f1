import GlyphHint.Proofs.Json.Lexeme
import Mathlib.Algebra.Field.Rat
import Mathlib.Algebra.Order.Field.Basic
import Mathlib.Algebra.Order.Ring.Rat
import Mathlib.Tactic.Linarith
import Mathlib.Tactic.NormNum
set_option autoImplicit false

/-!
# Decimal numerals

A numeral has a sign, a whole part and places behind a point, and stands for a rational.  It is
canonical if no place could be left out and zero has no sign; a whole part is always written without
leading zeros.  There is one canonical numeral of a rational at most (`Numeral.Canonical.unique`),
and different canonical numerals have different texts (`Numeral.Canonical.text_inj`).
-/

namespace GlyphHint.Text

open Json

/-- A number is written without leading zeros. -/
theorem isInteger_toDigits (n : Nat) : IsInteger (Nat.toDigits 10 n) := by
  refine ⟨⟨Nat.toDigits_ne_nil, fun c hc =>
    Nat.isDigit_of_mem_toDigits (by decide) (by decide) hc⟩, ?_⟩
  induction n using Nat.strongRecOn with
  | ind n ih =>
    intro tail h
    rw [Nat.toDigits_eq_if (by decide)] at h
    split at h
    · exact (List.cons.inj h).2.symm
    · have hne : Nat.toDigits 10 (n / 10) ≠ [] := Nat.toDigits_ne_nil
      obtain ⟨c, digits, hc⟩ := List.exists_cons_of_ne_nil hne
      rw [hc, List.cons_append] at h
      obtain ⟨rfl, -⟩ := List.cons.inj h
      -- the digits in front of the last one would be a zero, and the number less than ten
      have hzero := ih (n / 10) (by omega) digits hc
      have hvalue : Nat.ofDigitChars 10 (Nat.toDigits 10 (n / 10)) 0 = n / 10 :=
        Nat.ofDigitChars_ten_toDigits
      rw [hc, hzero] at hvalue
      have : Nat.ofDigitChars 10 ['0'] 0 = 0 := rfl
      omega

/-- A decimal numeral. -/
structure Numeral where
  negative : Bool
  /-- the number in front of the point -/
  whole : Nat
  /-- the digits behind the point, of which there may be none -/
  places : List Nat
  deriving DecidableEq, Repr

namespace Numeral

/-- The value of digits behind a point. -/
def placesValue : List Nat → ℚ
  | [] => 0
  | d :: rest => (d + placesValue rest) / 10

/-- The value without the sign. -/
def magnitude (n : Numeral) : ℚ :=
  n.whole + placesValue n.places

/-- The rational that a numeral stands for. -/
def value (n : Numeral) : ℚ :=
  if n.negative then -n.magnitude else n.magnitude

/-- The point with the digits behind it, where there are any. -/
def placesText : List Nat → String
  | [] => ""
  | digits => "." ++ String.ofList (digits.map Nat.digitChar)

/-- The text of a numeral. -/
def text (n : Numeral) : String :=
  (if n.negative then "-" else "") ++ toString n.whole ++ placesText n.places

/-- Every place is a digit and none could be left out, and zero has no sign. -/
structure Canonical (n : Numeral) : Prop where
  digits : ∀ d ∈ n.places, d < 10
  last : n.places.getLast? ≠ some 0
  sign : n.negative = true → n.value ≠ 0

/-! ## Values -/

section Places

variable {ds es : List Nat}

theorem placesValue_bounds (h : ∀ d ∈ ds, d < 10) : 0 ≤ placesValue ds ∧ placesValue ds < 1 := by
  induction ds with
  | nil => exact ⟨le_rfl, one_pos⟩
  | cons d ds ih =>
    rw [List.forall_mem_cons] at h
    obtain ⟨hlow, hhigh⟩ := ih h.2
    have hd : (d : ℚ) ≤ 9 := by exact_mod_cast Nat.le_of_lt_succ h.1
    have hd' : (0 : ℚ) ≤ d := Nat.cast_nonneg d
    rw [placesValue]
    constructor <;> linarith

/-- A whole number and a fraction are determined by their sum. -/
theorem eq_of_add_eq {a b : Nat} {x y : ℚ} (hx : 0 ≤ x ∧ x < 1) (hy : 0 ≤ y ∧ y < 1)
    (h : (a : ℚ) + x = b + y) : a = b ∧ x = y := by
  have hle : (a : ℚ) < b + 1 := by linarith
  have hge : (b : ℚ) < a + 1 := by linarith
  have hab : a = b := by
    have hle : a < b + 1 := by exact_mod_cast hle
    have hge : b < a + 1 := by exact_mod_cast hge
    omega
  subst hab
  exact ⟨rfl, add_left_cancel h⟩

theorem last_of_cons {d : Nat} (h : (d :: ds).getLast? ≠ some 0) :
    ds.getLast? ≠ some 0 ∧ (ds = [] → d ≠ 0) := by
  cases ds with
  | nil => simpa using h
  | cons e ds => simpa using h

/-- Places that cannot be left out have a value. -/
theorem placesValue_ne_zero (h : ∀ d ∈ ds, d < 10) (hlast : ds.getLast? ≠ some 0) (hne : ds ≠ []) :
    placesValue ds ≠ 0 := by
  induction ds with
  | nil => exact absurd rfl hne
  | cons d ds ih =>
    rw [List.forall_mem_cons] at h
    obtain ⟨hlast, hd⟩ := last_of_cons hlast
    have hlow := (placesValue_bounds h.2).1
    have hd' : (0 : ℚ) ≤ d := Nat.cast_nonneg d
    intro hzero
    rw [placesValue] at hzero
    have hrest : placesValue ds = 0 := by linarith
    have hfirst : (d : ℚ) = 0 := by linarith
    by_cases hnil : ds = []
    · exact hd hnil (by exact_mod_cast hfirst)
    · exact ih h.2 hlast hnil hrest

theorem placesValue_inj (h : ∀ d ∈ ds, d < 10) (hlast : ds.getLast? ≠ some 0)
    (h' : ∀ e ∈ es, e < 10) (hlast' : es.getLast? ≠ some 0)
    (hvalue : placesValue ds = placesValue es) : ds = es := by
  induction ds generalizing es with
  | nil =>
    by_contra hne
    exact placesValue_ne_zero h' hlast' (Ne.symm hne) hvalue.symm
  | cons d ds ih =>
    cases es with
    | nil => exact absurd hvalue (placesValue_ne_zero h hlast (List.cons_ne_nil d ds))
    | cons e es =>
      rw [List.forall_mem_cons] at h h'
      rw [placesValue, placesValue, div_left_inj' (by norm_num)] at hvalue
      obtain ⟨hfirst, hrest⟩ :=
        eq_of_add_eq (placesValue_bounds h.2) (placesValue_bounds h'.2) hvalue
      rw [hfirst, ih h.2 (last_of_cons hlast).1 h'.2 (last_of_cons hlast').1 hrest]

end Places

namespace Canonical

variable {n m : Numeral}

theorem magnitude_nonneg (h : n.Canonical) : 0 ≤ n.magnitude :=
  add_nonneg (Nat.cast_nonneg _) (placesValue_bounds h.digits).1

/-- The sign is there exactly if the value is negative. -/
theorem negative_iff (h : n.Canonical) : n.negative = true ↔ n.value < 0 := by
  have hmagnitude := h.magnitude_nonneg
  constructor
  · intro hsign
    have hne := h.sign hsign
    rw [value, if_pos hsign] at hne ⊢
    exact lt_of_le_of_ne (neg_nonpos.mpr hmagnitude) hne
  · intro hvalue
    by_contra hsign
    rw [value, if_neg hsign] at hvalue
    exact absurd hmagnitude (not_le.mpr hvalue)

/-- A rational has one canonical numeral at most. -/
theorem unique (h : n.Canonical) (h' : m.Canonical) (hvalue : n.value = m.value) : n = m := by
  have hsign : n.negative = m.negative := by
    rw [Bool.eq_iff_iff, h.negative_iff, h'.negative_iff, hvalue]
  have hmagnitude : n.magnitude = m.magnitude := by
    rw [value, value, hsign] at hvalue
    split at hvalue
    · exact neg_inj.mp hvalue
    · exact hvalue
  obtain ⟨hwhole, hplaces⟩ :=
    eq_of_add_eq (placesValue_bounds h.digits) (placesValue_bounds h'.digits) hmagnitude
  have hplaces := placesValue_inj h.digits h.last h'.digits h'.last hplaces
  obtain ⟨_, _, _⟩ := n
  obtain ⟨_, _, _⟩ := m
  cases hsign
  cases hwhole
  cases hplaces
  rfl

end Canonical

/-! ## Texts -/

/-- What follows the whole part does not go on with it. -/
theorem noDigit_placesText (ds : List Nat) : NoDigit (placesText ds).toList := by
  cases ds with
  | nil => intro c tail h; cases h
  | cons d ds =>
    have htext : (placesText (d :: ds)).toList = '.' :: (d :: ds).map Nat.digitChar := by
      simp [placesText]
    rw [htext]
    exact noDigit_cons rfl

theorem placesText_inj {ds es : List Nat} (h : ∀ d ∈ ds, d < 10) (h' : ∀ e ∈ es, e < 10)
    (htext : (placesText ds).toList = (placesText es).toList) : ds = es := by
  have hvalue : ∀ d < 10, (Nat.digitChar d).toNat - 48 = d :=
    fun d hd => Nat.toNat_digitChar_sub_48_of_lt_ten hd
  have hread : ∀ {ks : List Nat}, (∀ k ∈ ks, k < 10) →
      (placesText ks).toList.tail.map (·.toNat - 48) = ks := by
    intro ks hks
    cases ks with
    | nil => rfl
    | cons k ks =>
      have hback : ((k :: ks).map Nat.digitChar).map (·.toNat - 48) = k :: ks := by
        rw [List.map_map]
        exact (List.map_congr_left fun d hd => hvalue d (hks d hd)).trans (List.map_id _)
      simpa [placesText] using hback
  rw [← hread h, ← hread h', htext]

/-- The text behind the sign. -/
def unsigned (n : Numeral) : String :=
  toString n.whole ++ placesText n.places

theorem toList_unsigned (n : Numeral) :
    n.unsigned.toList = Nat.toDigits 10 n.whole ++ (placesText n.places).toList := by
  have hwhole : (toString n.whole).toList = Nat.toDigits 10 n.whole := Nat.toList_repr
  rw [unsigned, String.toList_append, hwhole]

theorem toList_text (n : Numeral) :
    n.text.toList = (if n.negative then ['-'] else []) ++ n.unsigned.toList := by
  rw [text, String.append_assoc, String.toList_append]
  cases n.negative <;> rfl

/-- Without its sign a numeral starts with a digit. -/
theorem unsigned_ne_minus (n : Numeral) (tail : List Char) : n.unsigned.toList ≠ '-' :: tail := by
  obtain ⟨c, digits, hdigits, hc⟩ := (isInteger_toDigits n.whole).1.exists_cons
  rw [toList_unsigned, hdigits]
  intro h
  cases (List.cons.inj h).1
  cases hc

theorem Canonical.unsigned_inj {n m : Numeral} (h : n.Canonical) (h' : m.Canonical)
    (htext : n.unsigned.toList = m.unsigned.toList) : n.whole = m.whole ∧ n.places = m.places := by
  have hcut : ∀ k : Numeral, takeDigits k.unsigned.toList =
      some (Nat.toDigits 10 k.whole, (placesText k.places).toList) := by
    intro k
    rw [toList_unsigned]
    exact takeDigits_complete (isInteger_toDigits k.whole).1 (noDigit_placesText k.places)
  have hboth := (hcut n).symm.trans ((congrArg takeDigits htext).trans (hcut m))
  obtain ⟨hwhole, hplaces⟩ := Prod.mk.inj (Option.some.inj hboth)
  refine ⟨?_, placesText_inj h.digits h'.digits hplaces⟩
  have hvalue := congrArg (Nat.ofDigitChars 10 · 0) hwhole
  simpa using hvalue

/-- Different canonical numerals have different texts. -/
theorem Canonical.text_inj {n m : Numeral} (h : n.Canonical) (h' : m.Canonical)
    (htext : n.text = m.text) : n = m := by
  have hlists := congrArg String.toList htext
  rw [toList_text, toList_text] at hlists
  obtain ⟨negative, whole, places⟩ := n
  obtain ⟨negative', whole', places'⟩ := m
  cases negative <;> cases negative'
  case false.true => exact absurd hlists (unsigned_ne_minus _ _)
  case true.false => exact absurd hlists.symm (unsigned_ne_minus _ _)
  case false.false =>
    obtain ⟨hwhole, hplaces⟩ := h.unsigned_inj h' hlists
    cases hwhole
    cases hplaces
    rfl
  case true.true =>
    obtain ⟨hwhole, hplaces⟩ := h.unsigned_inj h' (List.cons.inj hlists).2
    cases hwhole
    cases hplaces
    rfl

/-- A numeral is made of digits, a sign and a point. -/
theorem char_text {n : Numeral} (h : ∀ d ∈ n.places, d < 10) {c : Char} (hc : c ∈ n.text.toList) :
    c.isDigit = true ∨ c = '-' ∨ c = '.' := by
  rw [toList_text, toList_unsigned, List.mem_append, List.mem_append] at hc
  rcases hc with hsign | hwhole | hplaces
  · cases hn : n.negative <;> simp_all
  · exact Or.inl ((isInteger_toDigits n.whole).1.2 c hwhole)
  · cases hn : n.places with
    | nil => simp [hn, placesText] at hplaces
    | cons d ds =>
      rw [hn] at hplaces h
      simp only [placesText, String.toList_append, String.toList_ofList, List.mem_append,
        List.mem_map] at hplaces
      rcases hplaces with hpoint | ⟨e, he, rfl⟩
      · exact Or.inr (Or.inr (by simpa using hpoint))
      · exact Or.inl (Nat.isDigit_digitChar.trans (decide_eq_true (h e he)))

theorem text_ne_nil (n : Numeral) : n.text.toList ≠ [] := by
  have hdigits := (isInteger_toDigits n.whole).1.1
  rw [toList_text, toList_unsigned]
  simp [hdigits]

/-! ## Integers -/

/-- The numeral of an integer. -/
def ofInt (z : Int) : Numeral :=
  ⟨decide (z < 0), z.natAbs, []⟩

theorem canonical_ofInt (z : Int) : (ofInt z).Canonical where
  digits := by simp [ofInt]
  last := by simp [ofInt]
  sign := by
    intro hsign
    have hneg : z < 0 := of_decide_eq_true hsign
    rw [value, if_pos hsign]
    simpa [magnitude, ofInt, placesValue] using hneg.ne

theorem text_ofInt (z : Int) : (ofInt z).text = z.repr := by
  cases z with
  | ofNat n => simp [ofInt, text, placesText, Int.repr]
  | negSucc n => simp [ofInt, text, placesText, Int.repr]

end Numeral

/-- Different integers are written in different ways. -/
theorem intRepr_inj {z w : Int} (h : z.repr = w.repr) : z = w := by
  rw [← Numeral.text_ofInt, ← Numeral.text_ofInt] at h
  have hparts := (Numeral.canonical_ofInt z).text_inj (Numeral.canonical_ofInt w) h
  simp only [Numeral.ofInt, Numeral.mk.injEq, decide_eq_decide] at hparts
  omega

end GlyphHint.Text
