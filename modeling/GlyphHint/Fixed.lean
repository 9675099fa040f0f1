set_option autoImplicit false

/-!
# 26.6 fixed-point arithmetic

A glyph coordinate is a signed 32-bit word whose low six bits are its fraction, so the word `v`
stands for the rational `v / 64`.  Products and dividends are formed in 64 bits and the result is
cut back to 32: a product is rounded down, a quotient toward zero.  Rounding to the grid of whole
units clears the six fraction bits.

A coordinate `v` is shown as the exact decimal numeral of `v / 64`: a minus sign for a negative
word, the integer part without leading zeros and, unless the value is whole, a point and the digits
of the fraction.  The fraction is a multiple of 1/64, so long division ends after at most six
digits and the last of them is not zero.
-/

namespace GlyphHint.Fixed

/-- The word that stands for the number one. -/
def one : Int32 := 64

/-- The product of two coordinates, rounded down and cut to 32 bits. -/
def mul (a b : Int32) : Int32 :=
  ((a.toInt64 * b.toInt64) >>> 6).toInt32

/-- The quotient of two coordinates, rounded toward zero and cut to 32 bits; there is none for the
divisor zero. -/
def div? (a b : Int32) : Option Int32 :=
  if b = 0 then none else some ((a.toInt64 <<< 6) / b.toInt64).toInt32

/-- The greatest whole coordinate not above `x`. -/
def floor (x : Int32) : Int32 :=
  x &&& ~~~63

/-- The least whole coordinate not below `x`, where the addition does not wrap. -/
def ceiling (x : Int32) : Int32 :=
  (x + 63) &&& ~~~63

theorem div?_eq_none_iff (a b : Int32) : div? a b = none ↔ b = 0 := by
  unfold div?
  split <;> simp_all

/-! ## Decimal numerals -/

/-- The decimal digits of `r / 64` by long division, at most `places` of them, ending with the
first remainder that is zero. -/
def fractionDigits : Nat → Nat → List Nat
  | 0, _ => []
  | places + 1, r => if r = 0 then [] else 10 * r / 64 :: fractionDigits places (10 * r % 64)

/-- The point and digits that follow the integer part; a whole value has neither. -/
def fractionText (r : Nat) : String :=
  match fractionDigits 6 r with
  | [] => ""
  | digits => "." ++ String.ofList (digits.map Nat.digitChar)

/-- The exact decimal numeral of `v / 64`. -/
def decimal (v : Int32) : String :=
  let magnitude := v.toInt.natAbs
  (if v < 0 then "-" else "") ++ toString (magnitude / 64) ++ fractionText (magnitude % 64)

@[simp] theorem fractionDigits_zero_right (places : Nat) : fractionDigits places 0 = [] := by
  cases places <;> rfl

end GlyphHint.Fixed
