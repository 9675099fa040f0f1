import GlyphHint.Json.Token
import GlyphHint.Proofs.Text.Spelling
set_option autoImplicit false

/-!
# The lexical grammar of JSON

How each token may be written (`Spelled`): a string with every character plain, with a one-letter
escape or by its number, and a number with any sign, fraction and exponent.  Reading a token off a
text consumes exactly what is written for it (`takeToken_complete`).  Every statement has an
arbitrary text behind the one that is read; only a number needs to know that this text does not go
on with it (`Stops`).
-/

namespace GlyphHint.Json

/-! ## Digits -/

/-- A row of decimal digits, of which there is one at least. -/
def AreDecimal (cs : List Char) : Prop :=
  cs ≠ [] ∧ ∀ c ∈ cs, c.isDigit = true

/-- The text does not start with a digit. -/
def NoDigit (rest : List Char) : Prop :=
  ∀ c tail, rest = c :: tail → c.isDigit = false

/-- The text starts with nothing that could go on with a number. -/
def Stops (rest : List Char) : Prop :=
  ∀ c tail, rest = c :: tail → c.isDigit = false ∧ c ≠ '.' ∧ c ≠ 'e' ∧ c ≠ 'E'

theorem stops_nil : Stops [] := by
  intro c tail h
  cases h

theorem stops_cons {c : Char} {tail : List Char} (hdigit : c.isDigit = false) (hpoint : c ≠ '.')
    (hlower : c ≠ 'e') (hupper : c ≠ 'E') : Stops (c :: tail) := by
  intro d rest h
  cases h
  exact ⟨hdigit, hpoint, hlower, hupper⟩

theorem noDigit_cons {c : Char} {tail : List Char} (h : c.isDigit = false) :
    NoDigit (c :: tail) := by
  intro d rest heq
  cases heq
  exact h

theorem Stops.noDigit {rest : List Char} (h : Stops rest) : NoDigit rest :=
  fun c tail heq => (h c tail heq).1

theorem AreDecimal.exists_cons {cs : List Char} (h : AreDecimal cs) :
    ∃ c tail, cs = c :: tail ∧ c.isDigit = true := by
  obtain ⟨hne, hall⟩ := h
  cases cs with
  | nil => exact absurd rfl hne
  | cons c tail => exact ⟨c, tail, rfl, hall c List.mem_cons_self⟩

theorem takeDigits_complete {cs rest : List Char} (h : AreDecimal cs) (hrest : NoDigit rest) :
    takeDigits (cs ++ rest) = some (cs, rest) := by
  obtain ⟨hne, hall⟩ := h
  have htake : rest.takeWhile Char.isDigit = [] := by
    cases rest with
    | nil => rfl
    | cons c tail => exact List.takeWhile_cons_of_neg (by simp [hrest c tail rfl])
  have hdrop : rest.dropWhile Char.isDigit = rest := by
    cases rest with
    | nil => rfl
    | cons c tail => exact List.dropWhile_cons_of_neg (by simp [hrest c tail rfl])
  unfold takeDigits
  rw [List.takeWhile_append_of_pos hall, htake, List.append_nil, List.dropWhile_append_of_pos hall,
    hdrop]
  split
  · exact absurd rfl hne
  · rfl

/-! ## Numbers -/

/-- The integer part of a number: digits without a leading zero, or a zero alone. -/
def IsInteger (cs : List Char) : Prop :=
  AreDecimal cs ∧ ∀ tail, cs = '0' :: tail → tail = []

/-- The fraction of a number. -/
inductive IsFraction : List Char → Prop where
  | absent : IsFraction []
  | present {digits : List Char} (h : AreDecimal digits) : IsFraction ('.' :: digits)

/-- The exponent of a number. -/
inductive IsExponent : List Char → Prop where
  | absent : IsExponent []
  | present {letter : Char} {sign digits : List Char} (hletter : letter = 'e' ∨ letter = 'E')
      (hsign : sign = [] ∨ sign = ['+'] ∨ sign = ['-']) (h : AreDecimal digits) :
      IsExponent (letter :: (sign ++ digits))

variable {cs rest integer fraction exponent : List Char}

theorem takeInteger_complete (h : IsInteger cs) (hrest : NoDigit rest) :
    takeInteger (cs ++ rest) = some (cs, rest) := by
  obtain ⟨hdecimal, hzero⟩ := h
  obtain ⟨c, tail, rfl, -⟩ := hdecimal.exists_cons
  by_cases hc : c = '0'
  · subst hc
    rw [hzero tail rfl]
    rfl
  · rw [← takeDigits_complete hdecimal hrest, takeInteger.eq_def]
    split
    · next heq => exact absurd (List.cons.inj heq).1 hc
    · rfl

theorem dropFraction_complete (h : IsFraction fraction)
    (hrest : NoDigit rest ∧ ∀ tail, rest ≠ '.' :: tail) :
    dropFraction (fraction ++ rest) = some (!fraction.isEmpty, rest) := by
  cases h with
  | absent =>
    rw [List.nil_append, dropFraction.eq_def]
    split
    · next tail => exact absurd rfl (hrest.2 tail)
    · rfl
  | present hdigits =>
    rw [List.cons_append, dropFraction, takeDigits_complete hdigits hrest.1]
    rfl

/-- A sign in front of digits is dropped. -/
theorem dropSign_complete {sign : List Char} (hsign : sign = [] ∨ sign = ['+'] ∨ sign = ['-'])
    (h : AreDecimal cs) : dropSign (sign ++ cs ++ rest) = cs ++ rest := by
  obtain ⟨c, tail, rfl, hc⟩ := h.exists_cons
  rcases hsign with rfl | rfl | rfl
  · rw [List.nil_append, List.cons_append, dropSign.eq_def]
    split
    · next heq =>
      rw [(List.cons.inj heq).1] at hc
      cases hc
    · next heq =>
      rw [(List.cons.inj heq).1] at hc
      cases hc
    · rfl
  · rfl
  · rfl

theorem dropExponent_complete (h : IsExponent exponent) (hrest : Stops rest) :
    dropExponent (exponent ++ rest) = some (!exponent.isEmpty, rest) := by
  cases h with
  | absent =>
    rw [List.nil_append, dropExponent.eq_def]
    split
    · next tail => exact absurd rfl (hrest 'e' tail rfl).2.2.1
    · next tail => exact absurd rfl (hrest 'E' tail rfl).2.2.2
    · rfl
  | present hletter hsign hdigits =>
    rcases hletter with rfl | rfl
    · rw [List.cons_append, dropExponent, dropSign_complete hsign hdigits,
        takeDigits_complete hdigits hrest.noDigit]
      rfl
    · rw [List.cons_append, dropExponent, dropSign_complete hsign hdigits,
        takeDigits_complete hdigits hrest.noDigit]
      rfl

/-- What follows the fraction of a number does not go on with it. -/
theorem IsExponent.ends_fraction (h : IsExponent exponent) (hrest : Stops rest) :
    NoDigit (exponent ++ rest) ∧ ∀ tail, exponent ++ rest ≠ '.' :: tail := by
  cases h with
  | absent => exact ⟨hrest.noDigit, fun tail heq => (hrest '.' tail heq).2.1 rfl⟩
  | present hletter hsign hdigits =>
    rcases hletter with rfl | rfl
    · exact ⟨noDigit_cons rfl, by simp⟩
    · exact ⟨noDigit_cons rfl, by simp⟩

/-- What follows the integer part of a number does not go on with it. -/
theorem IsFraction.ends_integer (h : IsFraction fraction) (hrest : NoDigit rest) :
    NoDigit (fraction ++ rest) := by
  cases h with
  | absent => exact hrest
  | present hdigits => exact noDigit_cons rfl

theorem takeUnsigned_complete (hinteger : IsInteger integer) (hfraction : IsFraction fraction)
    (hexponent : IsExponent exponent) (hrest : Stops rest) :
    takeUnsigned (integer ++ (fraction ++ (exponent ++ rest))) =
      some (if !fraction.isEmpty || !exponent.isEmpty then .number else .natural integer,
        rest) := by
  have hends := hexponent.ends_fraction hrest
  unfold takeUnsigned
  rw [takeInteger_complete hinteger (hfraction.ends_integer hends.1)]
  simp only [Option.bind_eq_bind, Option.bind_some]
  rw [dropFraction_complete hfraction hends]
  simp only [Option.bind_some]
  rw [dropExponent_complete hexponent hrest]
  rfl

/-! ## Strings -/

/-- The one-letter escapes with the characters that they stand for. -/
def shortEscapes : List (Char × Char) :=
  [('"', '"'), ('\\', '\\'), ('/', '/'), ('b', '\x08'), ('f', '\x0c'), ('n', '\n'), ('r', '\r'),
    ('t', '\t')]

/-- The character is the hexadecimal digit of that value, in either case. -/
def IsHexDigit (c : Char) (n : Nat) : Prop :=
  n < 16 ∧ c.toLower = Nat.digitChar n

/-- How the inside of a string may be written: each unit as a character of its own, unless that is a
control character, a quote or a backslash, as a one-letter escape, or by its number. -/
inductive SpelledUnits : List Nat → List Char → Prop where
  | nil : SpelledUnits [] []
  | plain {c : Char} {units : List Nat} {cs : List Char} (visible : 0x20 ≤ c.toNat)
      (noQuote : c ≠ '"') (noBackslash : c ≠ '\\') (behind : SpelledUnits units cs) :
      SpelledUnits (c.toNat :: units) (c :: cs)
  | short {letter c : Char} {units : List Nat} {cs : List Char}
      (escape : (letter, c) ∈ shortEscapes) (behind : SpelledUnits units cs) :
      SpelledUnits (c.toNat :: units) ('\\' :: letter :: cs)
  | number {a b c d : Char} {w x y z : Nat} {units : List Nat} {cs : List Char}
      (first : IsHexDigit a w) (second : IsHexDigit b x) (third : IsHexDigit c y)
      (fourth : IsHexDigit d z) (behind : SpelledUnits units cs) :
      SpelledUnits ((4096 * w + 256 * x + 16 * y + z) :: units)
        ('\\' :: 'u' :: a :: b :: c :: d :: cs)

/-- Characters that need no escape are written plainly. -/
theorem spelledUnits_plain {cs : List Char}
    (h : ∀ c ∈ cs, 0x20 ≤ c.toNat ∧ c ≠ '"' ∧ c ≠ '\\') :
    SpelledUnits (cs.map Char.toNat) cs := by
  induction cs with
  | nil => exact .nil
  | cons c cs ih =>
    rw [List.forall_mem_cons] at h
    exact .plain h.1.1 h.1.2.1 h.1.2.2 (ih h.2)

theorem hexDigit?_of_isHexDigit {c : Char} {n : Nat} (h : IsHexDigit c n) :
    hexDigit? c = some n := by
  have hboth : ∀ n < 16, hexDigit? (Nat.digitChar n) = some n ∧
      hexDigit? (Nat.digitChar n).toUpper = some n := by
    decide
  obtain ⟨hn, hlower⟩ := h
  rcases Hex.eq_or_eq_toUpper c with hc | hc
  · rw [hc, hlower]
    exact (hboth n hn).1
  · rw [hc, hlower]
    exact (hboth n hn).2

theorem shortEscape?_of_mem : ∀ p ∈ shortEscapes, p.1 ≠ 'u' ∧ shortEscape? p.1 = some p.2 := by
  decide

/-- A string is read up to its closing quote. -/
theorem takeString_complete {units : List Nat} {cs : List Char} (h : SpelledUnits units cs)
    (before : Array Nat) (rest : List Char) :
    takeString before (cs ++ '"' :: rest) = some (before.toList ++ units, rest) := by
  induction h generalizing before with
  | nil => simp [takeString]
  | @plain c units cs visible noQuote noBackslash _ ih =>
    rw [List.cons_append, takeString, if_neg (by omega), ih]
    · simp
    · exact noQuote
    · intro _ _ _ _ _ hc
      exact absurd hc noBackslash
    · intro _ _ hc
      exact absurd hc noBackslash
  | @short letter c units cs escape _ ih =>
    obtain ⟨hletter, hescape⟩ := shortEscape?_of_mem _ escape
    rw [List.cons_append, List.cons_append, takeString, hescape]
    · simp [ih]
    · intro _ _ _ _ _ hu
      exact absurd hu hletter
  | @number a b c d w x y z units cs first second third fourth _ ih =>
    have hunit : hexUnit? a b c d = some (4096 * w + 256 * x + 16 * y + z) := by
      simp only [hexUnit?, hexDigit?_of_isHexDigit first, hexDigit?_of_isHexDigit second,
        hexDigit?_of_isHexDigit third, hexDigit?_of_isHexDigit fourth]
      rfl
    simp only [List.cons_append, takeString, hunit, ih]
    simp

/-- How the characters of a string may be spelled by units: each by its own number or, beyond the
basic plane, by the two halves of a surrogate pair. -/
inductive UnitsOf : List Char → List Nat → Prop where
  | nil : UnitsOf [] []
  | scalar {c : Char} {cs : List Char} {units : List Nat} (behind : UnitsOf cs units) :
      UnitsOf (c :: cs) (c.toNat :: units)
  | pair {c : Char} {cs : List Char} {high low : Nat} {units : List Nat}
      (hhigh : 0xD800 ≤ high ∧ high ≤ 0xDBFF) (hlow : 0xDC00 ≤ low ∧ low ≤ 0xDFFF)
      (value : c.toNat = 0x10000 + 0x400 * (high - 0xD800) + (low - 0xDC00))
      (behind : UnitsOf cs units) : UnitsOf (c :: cs) (high :: low :: units)

/-- The units of a string spell its characters and no others. -/
theorem characters?_of_unitsOf {cs : List Char} {units : List Nat} (h : UnitsOf cs units) :
    characters? units = some cs := by
  induction h with
  | nil => rfl
  | @scalar c cs units behind ih =>
    have hscalar : c.toNat < 0xD800 ∨ 0xDFFF < c.toNat := by
      obtain h | h := c.valid
      · exact Or.inl h
      · exact Or.inr h.1
    cases units with
    | nil =>
      cases ih
      rw [characters?, if_neg (by omega), Char.ofNat_toNat]
    | cons unit units =>
      rw [characters?, if_neg (by omega), if_neg (by omega), ih, Char.ofNat_toNat]
      rfl
  | @pair c cs high low units hhigh hlow value behind ih =>
    rw [characters?, if_pos hhigh, if_pos hlow, ih, ← value, Char.ofNat_toNat]
    rfl

/-! ## Tokens -/

/-- How a token may be written. -/
inductive Spelled : Token → List Char → Prop where
  | openObject : Spelled .openObject ['\x7b']
  | closeObject : Spelled .closeObject ['\x7d']
  | openArray : Spelled .openArray ['[']
  | closeArray : Spelled .closeArray [']']
  | colon : Spelled .colon [':']
  | comma : Spelled .comma [',']
  | literalTrue : Spelled .literal ['t', 'r', 'u', 'e']
  | literalFalse : Spelled .literal ['f', 'a', 'l', 's', 'e']
  | literalNull : Spelled .literal ['n', 'u', 'l', 'l']
  | string {units : List Nat} {cs : List Char} (h : SpelledUnits units cs) :
      Spelled (.string units) ('"' :: (cs ++ ['"']))
  | natural {digits : List Char} (h : IsInteger digits) : Spelled (.natural digits) digits
  | number {sign integer fraction exponent : List Char} (hsign : sign = [] ∨ sign = ['-'])
      (hinteger : IsInteger integer) (hfraction : IsFraction fraction)
      (hexponent : IsExponent exponent)
      (other : sign ≠ [] ∨ fraction ≠ [] ∨ exponent ≠ []) :
      Spelled .number (sign ++ (integer ++ (fraction ++ exponent)))

/-- The token is a number of either form. -/
def Token.IsNumber : Token → Prop
  | .natural _ | .number => True
  | _ => False

/-- What starts with a digit or a minus sign is read as a number. -/
theorem takeToken_of_number {c : Char} {cs : List Char} (h : c.isDigit = true ∨ c = '-') :
    takeToken (c :: cs) = takeNumber (c :: cs) := by
  have hpunctuation : ∀ d ∈ ['\x7b', '\x7d', '[', ']', ':', ',', 't', 'f', 'n', '"'], c ≠ d := by
    rintro d hd rfl
    have hno : c.isDigit = false ∧ c ≠ '-' := by
      simp only [List.mem_cons, List.not_mem_nil, or_false] at hd
      obtain rfl | rfl | rfl | rfl | rfl | rfl | rfl | rfl | rfl | rfl := hd <;>
        exact ⟨rfl, nofun⟩
    rcases h with h | h
    · rw [hno.1] at h
      cases h
    · exact hno.2 h
  simp only [List.forall_mem_cons] at hpunctuation
  obtain ⟨h1, h2, h3, h4, h5, h6, h7, h8, h9, h10, -⟩ := hpunctuation
  rw [takeToken.eq_def]
  split <;> first | rfl | (next heq => exact absurd (List.cons.inj heq).1 (by assumption))

theorem takeToken_of_integer {cs rest : List Char} (h : IsInteger cs) :
    takeToken (cs ++ rest) = takeUnsigned (cs ++ rest) := by
  obtain ⟨c, tail, rfl, hc⟩ := h.1.exists_cons
  have hminus : c ≠ '-' := by
    rintro rfl
    cases hc
  rw [List.cons_append, takeToken_of_number (Or.inl hc), takeNumber.eq_def]
  split
  · next heq => exact absurd (List.cons.inj heq).1 hminus
  · rfl

/-- A token is read off the front of a text, and nothing behind it. -/
theorem takeToken_complete {t : Token} {cs rest : List Char} (h : Spelled t cs)
    (hrest : t.IsNumber → Stops rest) : takeToken (cs ++ rest) = some (t, rest) := by
  cases h with
  | openObject => rfl
  | closeObject => rfl
  | openArray => rfl
  | closeArray => rfl
  | colon => rfl
  | comma => rfl
  | literalTrue => rfl
  | literalFalse => rfl
  | literalNull => rfl
  | string h =>
    rw [List.cons_append, List.append_assoc, List.singleton_append, takeToken,
      takeString_complete h]
    rfl
  | natural h =>
    rw [takeToken_of_integer h]
    exact takeUnsigned_complete h .absent .absent (hrest trivial)
  | @number sign integer fraction exponent hsign hinteger hfraction hexponent other =>
    have htake := takeUnsigned_complete hinteger hfraction hexponent (hrest trivial)
    simp only [List.append_assoc]
    rcases hsign with rfl | rfl
    · rw [List.nil_append, takeToken_of_integer hinteger, htake, if_pos]
      simpa using other
    · rw [List.singleton_append, takeToken_of_number (Or.inr rfl), takeNumber, htake]
      rfl

end GlyphHint.Json
