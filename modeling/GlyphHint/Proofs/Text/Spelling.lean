import GlyphHint.Text.Hex
set_option autoImplicit false

/-!
# Spellings of bytes

A text spells bytes if it has two digits for each byte, in either case, and nothing else but blanks
and one mark `0x` at its start; the blanks may stand anywhere, also inside a pair of digits and
inside the mark (`Spells`).  Every spelling is decoded to the bytes that it spells
(`decode_of_spells`), and the text that is written for bytes is a spelling of them
(`spells_encode`).
-/

namespace GlyphHint.Hex

/-! ## Digits -/

theorem eq_or_eq_toUpper (c : Char) : c = c.toLower ∨ c = c.toLower.toUpper := by
  unfold Char.toLower
  split
  · next hupper =>
    right
    obtain ⟨hlow, hhigh⟩ := hupper
    have hlow : 65 ≤ c.val.toNat := hlow
    have hhigh : c.val.toNat ≤ 90 := hhigh
    apply Char.ext
    unfold Char.toUpper
    grind
  · exact Or.inl rfl

/-- The character is one byte, which is the digit of that value. -/
def ReadsAs (c : Char) (n : Nat) : Prop :=
  String.utf8EncodeChar c = [c.toUInt8] ∧ digit? c.toUInt8 = some (UInt8.ofNat n)

instance (c : Char) (n : Nat) : Decidable (ReadsAs c n) :=
  inferInstanceAs (Decidable (_ ∧ _))

theorem readsAs_digits : ∀ n < 16,
    ReadsAs (Nat.digitChar n) n ∧ ReadsAs (Nat.digitChar n).toUpper n := by
  decide +kernel

theorem readsAs_of_toLower {c : Char} {n : Nat} (hn : n < 16) (h : c.toLower = Nat.digitChar n) :
    ReadsAs c n := by
  obtain ⟨hlower, hupper⟩ := readsAs_digits n hn
  rcases eq_or_eq_toUpper c with hc | hc
  · rw [hc, h]
    exact hlower
  · rw [hc, h]
    exact hupper

/-! ## Spellings -/

/-- The characters are the digits of the bytes, in either case. -/
def AreDigits (digits : List Char) (bytes : List UInt8) : Prop :=
  digits.map Char.toLower = bytes.flatMap pair

instance (digits : List Char) (bytes : List UInt8) : Decidable (AreDigits digits bytes) :=
  inferInstanceAs (Decidable (_ = _))

/-- The text without its blanks is the digits of the bytes, with or without the mark `0x`. -/
def Spells (text : String) (bytes : Array UInt8) : Prop :=
  ∃ digits, AreDigits digits bytes.toList ∧
    (text.toList.filter (!isBlank ·) = digits ∨
      text.toList.filter (!isBlank ·) = '0' :: 'x' :: digits)

theorem areDigits_cons_iff {digits : List Char} {b : UInt8} {bytes : List UInt8} :
    AreDigits digits (b :: bytes) ↔ ∃ hi lo rest, digits = hi :: lo :: rest ∧
      hi.toLower = Nat.digitChar (b.toNat / 16) ∧ lo.toLower = Nat.digitChar (b.toNat % 16) ∧
      AreDigits rest bytes := by
  unfold AreDigits
  constructor
  · intro h
    obtain ⟨hi, tail, rfl, hhi, htail⟩ := List.map_eq_cons_iff.mp h
    obtain ⟨lo, rest, rfl, hlo, hrest⟩ := List.map_eq_cons_iff.mp htail
    exact ⟨hi, lo, rest, rfl, hhi, hlo, hrest⟩
  · rintro ⟨hi, lo, rest, rfl, hhi, hlo, hrest⟩
    rw [List.map_cons, List.map_cons, hhi, hlo, hrest]
    rfl

/-- The digits of a byte, read in its place. -/
theorem readsAs_of_halves {b : UInt8} {hi lo : Char}
    (hhi : hi.toLower = Nat.digitChar (b.toNat / 16))
    (hlo : lo.toLower = Nat.digitChar (b.toNat % 16)) :
    ReadsAs hi (b.toNat / 16) ∧ ReadsAs lo (b.toNat % 16) := by
  have hb : b.toNat < 256 := b.toNat_lt
  exact ⟨readsAs_of_toLower (by omega) hhi, readsAs_of_toLower (by omega) hlo⟩

/-- The two halves of a byte make the byte. -/
theorem join_halves (b : UInt8) :
    UInt8.ofNat (b.toNat / 16) * 16 + UInt8.ofNat (b.toNat % 16) = b := by
  have hb : b.toNat < 256 := b.toNat_lt
  apply UInt8.toNat_inj.mp
  simp
  omega

/-- Digits are no mark. -/
theorem dropMark_of_areDigits {digits : List Char} {bytes : List UInt8}
    (h : AreDigits digits bytes) : dropMark digits = digits := by
  unfold dropMark
  split
  · next rest =>
    cases bytes with
    | nil => cases h
    | cons b bytes =>
      obtain ⟨hi, lo, rest', hdigits, -, hlo, -⟩ := areDigits_cons_iff.mp h
      cases hdigits
      have hmark : ∀ n < 16, Nat.digitChar n ≠ 'x' := by
        decide
      exact absurd hlo.symm (hmark _ (Nat.mod_lt _ (by decide)))
  · rfl

theorem digitBytes_of_spells {text : String} {bytes : Array UInt8} (h : Spells text bytes) :
    ∃ digits, AreDigits digits bytes.toList ∧
      digitBytes text = digits.flatMap String.utf8EncodeChar := by
  obtain ⟨digits, hdigits, hplain | hmarked⟩ := h
  · refine ⟨digits, hdigits, ?_⟩
    rw [digitBytes, hplain, dropMark_of_areDigits hdigits]
  · refine ⟨digits, hdigits, ?_⟩
    rw [digitBytes, hmarked, dropMark]

theorem length_of_areDigits {digits : List Char} {bytes : List UInt8}
    (h : AreDigits digits bytes) :
    (digits.flatMap String.utf8EncodeChar).length = 2 * bytes.length := by
  induction bytes generalizing digits with
  | nil =>
    rw [List.map_eq_nil_iff.mp h]
    rfl
  | cons b bytes ih =>
    obtain ⟨hi, lo, rest, rfl, hhi, hlo, hrest⟩ := areDigits_cons_iff.mp h
    obtain ⟨⟨hhigh, -⟩, ⟨hlow, -⟩⟩ := readsAs_of_halves hhi hlo
    rw [List.flatMap_cons, List.flatMap_cons, hhigh, hlow, List.length_append, List.length_append,
      ih hrest]
    simp only [List.length_cons, List.length_nil]
    omega

/-- Joining the digits of bytes adds the bytes. -/
theorem joinPairs_of_areDigits {digits : List Char} {bytes : List UInt8}
    (h : AreDigits digits bytes) (position : Nat) (joined : Array UInt8) :
    joinPairs position joined (digits.flatMap String.utf8EncodeChar) =
      .ok (joined ++ bytes.toArray) := by
  induction bytes generalizing digits position joined with
  | nil =>
    rw [List.map_eq_nil_iff.mp h]
    simp [joinPairs]
  | cons b bytes ih =>
    obtain ⟨hi, lo, rest, rfl, hhi, hlo, hrest⟩ := areDigits_cons_iff.mp h
    obtain ⟨⟨hhigh, hhigh?⟩, ⟨hlow, hlow?⟩⟩ := readsAs_of_halves hhi hlo
    rw [List.flatMap_cons, List.flatMap_cons, hhigh, hlow, List.singleton_append,
      List.singleton_append, joinPairs]
    simp only [hhigh?, hlow?, join_halves]
    rw [ih hrest]
    simp

/-- Every spelling is decoded to the bytes that it spells. -/
theorem decode_of_spells {text : String} {bytes : Array UInt8} (h : Spells text bytes) :
    decode text = .ok bytes := by
  obtain ⟨digits, hdigits, htext⟩ := digitBytes_of_spells h
  have heven : (digitBytes text).length % 2 ≠ 1 := by
    rw [htext, length_of_areDigits hdigits]
    omega
  unfold decode
  dsimp only
  rw [if_neg heven, htext, joinPairs_of_areDigits hdigits]
  simp

/-- What is written for bytes is a spelling of them. -/
theorem spells_encode (bytes : Array UInt8) : Spells (encode bytes) bytes := by
  have hdigit : ∀ n < 16, (Nat.digitChar n).toLower = Nat.digitChar n ∧
      isBlank (Nat.digitChar n) = false := by
    decide
  have hpair : ∀ b, ∀ c ∈ pair b, c.toLower = c ∧ isBlank c = false := by
    intro b c hc
    have hb : b.toNat < 256 := b.toNat_lt
    simp only [pair, List.mem_cons, List.not_mem_nil, or_false] at hc
    rcases hc with rfl | rfl
    · exact hdigit _ (by omega)
    · exact hdigit _ (by omega)
  have hall : ∀ c ∈ bytes.toList.flatMap pair, c.toLower = c ∧ isBlank c = false := by
    intro c hc
    obtain ⟨b, -, hb⟩ := List.mem_flatMap.mp hc
    exact hpair b c hb
  refine ⟨bytes.toList.flatMap pair, ?_, Or.inl ?_⟩
  · exact (List.map_congr_left fun c hc => (hall c hc).1).trans (List.map_id _)
  · rw [encode, String.toList_ofList]
    exact List.filter_eq_self.mpr fun c hc => by simp [(hall c hc).2]

end GlyphHint.Hex
