set_option autoImplicit false

/-!
# JSON tokens

A JSON text is cut into punctuation, literals, strings and numbers; blanks (space, tab, line feed,
carriage return) separate tokens and carry nothing.  A string keeps its code units as written: a
`\u` escape contributes its 16-bit number, also half of a surrogate pair, and whether the units
spell characters is asked only of strings that are read (`characters?`).  A number keeps its digits
where it is a plain natural number, since no other number is ever read.
-/

namespace GlyphHint.Json

/-- A lexical unit of a JSON text. -/
inductive Token where
  | openObject
  | closeObject
  | openArray
  | closeArray
  | colon
  | comma
  /-- `true`, `false` or `null` -/
  | literal
  /-- a string, as the numbers of its characters and escapes -/
  | string (units : List Nat)
  /-- a number without sign, fraction and exponent -/
  | natural (digits : List Char)
  /-- any other number -/
  | number
  deriving DecidableEq, Repr, Inhabited

/-! ## Strings -/

/-- The value of a hexadecimal digit. -/
def hexDigit? (c : Char) : Option Nat :=
  if '0' ≤ c ∧ c ≤ '9' then some (c.toNat - '0'.toNat)
  else if 'a' ≤ c ∧ c ≤ 'f' then some (c.toNat - 'a'.toNat + 10)
  else if 'A' ≤ c ∧ c ≤ 'F' then some (c.toNat - 'A'.toNat + 10)
  else none

/-- The number of four hexadecimal digits. -/
def hexUnit? (a b c d : Char) : Option Nat := do
  return 4096 * (← hexDigit? a) + 256 * (← hexDigit? b) + 16 * (← hexDigit? c) + (← hexDigit? d)

/-- The character that a one-letter escape stands for. -/
def shortEscape? : Char → Option Char
  | '"' => some '"'
  | '\\' => some '\\'
  | '/' => some '/'
  | 'b' => some '\x08'
  | 'f' => some '\x0c'
  | 'n' => some '\n'
  | 'r' => some '\r'
  | 't' => some '\t'
  | _ => none

/-- Reads a string behind its opening quote, after the units read so far; gives the text behind the
closing quote.  Control characters must be escaped. -/
def takeString (units : Array Nat) : List Char → Option (List Nat × List Char)
  | '"' :: rest => some (units.toList, rest)
  | '\\' :: 'u' :: a :: b :: c :: d :: rest =>
    match hexUnit? a b c d with
    | some unit => takeString (units.push unit) rest
    | none => none
  | '\\' :: c :: rest =>
    match shortEscape? c with
    | some e => takeString (units.push e.toNat) rest
    | none => none
  | c :: rest => if c.toNat < 0x20 then none else takeString (units.push c.toNat) rest
  | [] => none

/-- The characters that units spell: two halves of a surrogate pair make one, and a half alone
spells nothing. -/
def characters? : List Nat → Option (List Char)
  | [] => some []
  | [n] => if 0xD800 ≤ n ∧ n ≤ 0xDFFF then none else some [Char.ofNat n]
  | n :: m :: rest =>
    if 0xD800 ≤ n ∧ n ≤ 0xDBFF then
      if 0xDC00 ≤ m ∧ m ≤ 0xDFFF then
        (characters? rest).map (Char.ofNat (0x10000 + 0x400 * (n - 0xD800) + (m - 0xDC00)) :: ·)
      else none
    else if 0xDC00 ≤ n ∧ n ≤ 0xDFFF then none
    else (characters? (m :: rest)).map (Char.ofNat n :: ·)

/-! ## Numbers -/

/-- Splits off the leading digits, of which there must be one at least. -/
def takeDigits (cs : List Char) : Option (List Char × List Char) :=
  match cs.takeWhile Char.isDigit with
  | [] => none
  | digits => some (digits, cs.dropWhile Char.isDigit)

/-- The integer part of a number: a zero alone, or digits that do not start with one. -/
def takeInteger : List Char → Option (List Char × List Char)
  | '0' :: rest => some (['0'], rest)
  | cs => takeDigits cs

/-- Drops a fraction, if one starts here; tells whether it did. -/
def dropFraction : List Char → Option (Bool × List Char)
  | '.' :: rest => (takeDigits rest).map fun (_, tail) => (true, tail)
  | cs => some (false, cs)

/-- Drops a sign, if there is one. -/
def dropSign : List Char → List Char
  | '+' :: rest => rest
  | '-' :: rest => rest
  | cs => cs

/-- Drops an exponent, if one starts here; tells whether it did. -/
def dropExponent : List Char → Option (Bool × List Char)
  | 'e' :: rest => (takeDigits (dropSign rest)).map fun (_, tail) => (true, tail)
  | 'E' :: rest => (takeDigits (dropSign rest)).map fun (_, tail) => (true, tail)
  | cs => some (false, cs)

/-- Reads an unsigned number. -/
def takeUnsigned (cs : List Char) : Option (Token × List Char) := do
  let (digits, afterInteger) ← takeInteger cs
  let (hasFraction, afterFraction) ← dropFraction afterInteger
  let (hasExponent, rest) ← dropExponent afterFraction
  return (if hasFraction || hasExponent then .number else .natural digits, rest)

/-- Reads a number. -/
def takeNumber : List Char → Option (Token × List Char)
  | '-' :: rest => (takeUnsigned rest).map fun (_, tail) => (.number, tail)
  | cs => takeUnsigned cs

/-! ## Texts -/

/-- The blanks between tokens. -/
def isBlank (c : Char) : Bool :=
  c == ' ' || c == '\t' || c == '\n' || c == '\r'

/-- Reads one token off a text that does not start with a blank. -/
def takeToken : List Char → Option (Token × List Char)
  | '\x7b' :: rest => some (.openObject, rest)
  | '\x7d' :: rest => some (.closeObject, rest)
  | '[' :: rest => some (.openArray, rest)
  | ']' :: rest => some (.closeArray, rest)
  | ':' :: rest => some (.colon, rest)
  | ',' :: rest => some (.comma, rest)
  | 't' :: 'r' :: 'u' :: 'e' :: rest => some (.literal, rest)
  | 'f' :: 'a' :: 'l' :: 's' :: 'e' :: rest => some (.literal, rest)
  | 'n' :: 'u' :: 'l' :: 'l' :: rest => some (.literal, rest)
  | '"' :: rest => (takeString #[] rest).map fun (units, tail) => (.string units, tail)
  | cs => takeNumber cs

/-- Reading never lengthens the text. -/
theorem length_of_takeString {units : Array Nat} {cs tail : List Char} {us : List Nat}
    (h : takeString units cs = some (us, tail)) : tail.length < cs.length := by
  fun_induction takeString units cs with
  | case1 units rest =>
    simp only [Option.some.injEq, Prod.mk.injEq] at h
    simp [h.2]
  | case2 units a b c d rest unit hu ih => have := ih h; simp only [List.length_cons]; omega
  | case3 => simp at h
  | case4 units c rest hne e he ih => have := ih h; simp only [List.length_cons]; omega
  | case5 => simp at h
  | case6 => simp at h
  | case7 units c rest _ _ _ _ ih => have := ih h; simp only [List.length_cons]; omega
  | case8 => simp at h

theorem length_of_takeDigits {cs ds tail : List Char} (h : takeDigits cs = some (ds, tail)) :
    tail.length < cs.length := by
  unfold takeDigits at h
  split at h
  · cases h
  · next hne =>
    simp only [Option.some.injEq, Prod.mk.injEq] at h
    have hsplit := List.takeWhile_append_dropWhile (p := Char.isDigit) (l := cs)
    have hlen := congrArg List.length hsplit
    have : 0 < (cs.takeWhile Char.isDigit).length := by
      cases hw : cs.takeWhile Char.isDigit with
      | nil => exact absurd hw hne
      | cons => simp
    rw [← h.2]
    simp only [List.length_append] at hlen
    omega

theorem length_of_takeInteger {cs ds tail : List Char} (h : takeInteger cs = some (ds, tail)) :
    tail.length < cs.length := by
  unfold takeInteger at h
  split at h
  · simp only [Option.some.injEq, Prod.mk.injEq] at h
    simp [h.2]
  · exact length_of_takeDigits h

theorem length_dropSign (cs : List Char) : (dropSign cs).length ≤ cs.length := by
  unfold dropSign
  split <;> simp

theorem length_of_dropFraction {cs tail : List Char} {b : Bool}
    (h : dropFraction cs = some (b, tail)) : tail.length ≤ cs.length := by
  unfold dropFraction at h
  split at h
  · obtain ⟨⟨ds, rest⟩, hd, heq⟩ := Option.map_eq_some_iff.1 h
    obtain ⟨-, rfl⟩ := Prod.mk.inj heq
    have := length_of_takeDigits hd
    simp only [List.length_cons]
    omega
  · obtain ⟨-, rfl⟩ := Prod.mk.inj (Option.some.inj h)
    exact Nat.le_refl _

theorem length_of_dropExponent {cs tail : List Char} {b : Bool}
    (h : dropExponent cs = some (b, tail)) : tail.length ≤ cs.length := by
  unfold dropExponent at h
  split at h
  · next rest =>
    obtain ⟨⟨ds, t⟩, hd, heq⟩ := Option.map_eq_some_iff.1 h
    obtain ⟨-, rfl⟩ := Prod.mk.inj heq
    have := length_of_takeDigits hd
    have := length_dropSign rest
    simp only [List.length_cons]
    omega
  · next rest =>
    obtain ⟨⟨ds, t⟩, hd, heq⟩ := Option.map_eq_some_iff.1 h
    obtain ⟨-, rfl⟩ := Prod.mk.inj heq
    have := length_of_takeDigits hd
    have := length_dropSign rest
    simp only [List.length_cons]
    omega
  · obtain ⟨-, rfl⟩ := Prod.mk.inj (Option.some.inj h)
    exact Nat.le_refl _

theorem length_of_takeUnsigned {cs tail : List Char} {t : Token}
    (h : takeUnsigned cs = some (t, tail)) : tail.length < cs.length := by
  simp only [takeUnsigned, Option.bind_eq_bind, Option.bind_eq_some_iff, Prod.exists,
    Option.pure_def, Option.some.injEq, Prod.mk.injEq] at h
  obtain ⟨ds, r1, h1, b2, r2, h2, b3, r3, h3, -, rfl⟩ := h
  have := length_of_takeInteger h1
  have := length_of_dropFraction h2
  have := length_of_dropExponent h3
  omega

theorem length_of_takeNumber {cs tail : List Char} {t : Token}
    (h : takeNumber cs = some (t, tail)) : tail.length < cs.length := by
  unfold takeNumber at h
  split at h
  · obtain ⟨⟨u, rest⟩, hu, heq⟩ := Option.map_eq_some_iff.1 h
    obtain ⟨-, rfl⟩ := Prod.mk.inj heq
    have := length_of_takeUnsigned hu
    simp only [List.length_cons]
    omega
  · exact length_of_takeUnsigned h

theorem length_of_takeToken {cs tail : List Char} {t : Token}
    (h : takeToken cs = some (t, tail)) : tail.length < cs.length := by
  unfold takeToken at h
  split at h
  case h_10 rest =>
    obtain ⟨⟨u, r⟩, hu, heq⟩ := Option.map_eq_some_iff.1 h
    obtain ⟨-, rfl⟩ := Prod.mk.inj heq
    have := length_of_takeString hu
    simp only [List.length_cons]
    omega
  case h_11 => exact length_of_takeNumber h
  all_goals
    simp only [Option.some.injEq, Prod.mk.injEq] at h
    simp only [← h.2, List.length_cons]
    omega

/-- Cuts a text into tokens, after the tokens cut so far. -/
def tokensFrom (tokens : Array Token) (cs : List Char) : Option (Array Token) :=
  match cs with
  | [] => some tokens
  | c :: rest =>
    if isBlank c then tokensFrom tokens rest
    else
      match _taken : takeToken (c :: rest) with
      | none => none
      | some (token, tail) => tokensFrom (tokens.push token) tail
  termination_by cs.length
  decreasing_by
    · simp
    · exact length_of_takeToken _taken

/-- The tokens of a text, if all of it is made of tokens and blanks. -/
def tokens? (text : List Char) : Option (List Token) :=
  (tokensFrom #[] text).map Array.toList

end GlyphHint.Json
