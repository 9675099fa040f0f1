import GlyphHint.Proofs.Text.Spelling
set_option autoImplicit false

/-!
# The grammar of hexadecimal text

A hexadecimal text is judged by its UTF-8 bytes: the blank ones are dropped, then one leading `0x`
(`cleaned`).  The reader filters characters and not bytes, which comes to the same because no byte
of a longer character is a blank or a part of the mark (`digitBytes_eq_cleaned`).  What is left is
either the digits of some bytes or, when it pairs up, has a first byte that is no digit
(`joinPairs_cases`); the two exclude each other, so the outcome is decided by the cleaned bytes
alone.
-/

namespace GlyphHint.Hex

/-! ## Cleaned bytes -/

/-- The byte is a space, tab, line feed, form feed or carriage return. -/
def isBlankByte (b : UInt8) : Bool :=
  b == 0x20 || b == 0x09 || b == 0x0A || b == 0x0C || b == 0x0D

/-- Drops one leading `0x`. -/
def dropMarkBytes : List UInt8 → List UInt8
  | 0x30 :: 0x78 :: rest => rest
  | bytes => bytes

/-- The UTF-8 bytes of a text without its blanks and one leading `0x`. -/
def cleaned (text : String) : List UInt8 :=
  dropMarkBytes (text.toUTF8.data.toList.filter (!isBlankByte ·))

theorem toList_toUTF8 (text : String) :
    text.toUTF8.data.toList = text.toList.flatMap String.utf8EncodeChar := by
  obtain ⟨cs, rfl⟩ : ∃ cs, text = String.ofList cs := ⟨text.toList, String.ofList_toList.symm⟩
  rw [String.toUTF8_eq_toByteArray, String.toByteArray_ofList, String.toList_ofList,
    List.utf8Encode, List.data_toByteArray]

/-- A character is one byte of its own number below 128, or several bytes from 128 on. -/
theorem utf8EncodeChar_cases (c : Char) :
    (c.toNat < 128 ∧ String.utf8EncodeChar c = [UInt8.ofNat c.toNat]) ∨
    128 ≤ c.toNat ∧ ∃ first rest, String.utf8EncodeChar c = first :: rest ∧
      ∀ b ∈ first :: rest, 128 ≤ b.toNat := by
  have hnat : c.val.toNat = c.toNat := rfl
  unfold String.utf8EncodeChar
  simp only [hnat]
  split
  · left
    exact ⟨by omega, rfl⟩
  · right
    refine ⟨by omega, ?_⟩
    split
    · refine ⟨_, _, rfl, ?_⟩
      simp only [List.forall_mem_cons, UInt8.toNat_ofNat']
      grind
    · split
      · refine ⟨_, _, rfl, ?_⟩
        simp only [List.forall_mem_cons, UInt8.toNat_ofNat']
        grind
      · refine ⟨_, _, rfl, ?_⟩
        simp only [List.forall_mem_cons, UInt8.toNat_ofNat']
        grind

theorem eq_iff_toNat {c d : Char} : c = d ↔ c.toNat = d.toNat :=
  ⟨congrArg _, fun h => Char.ext (UInt32.toNat_inj.mp h)⟩

/-- The numbers of the blanks. -/
def blankNumbers : List Nat :=
  [0x20, 0x09, 0x0A, 0x0C, 0x0D]

theorem isBlank_iff (c : Char) : isBlank c = true ↔ c.toNat ∈ blankNumbers := by
  simp only [isBlank, Bool.or_eq_true, beq_iff_eq, eq_iff_toNat, or_assoc, blankNumbers,
    List.mem_cons, List.not_mem_nil, or_false]
  rfl

theorem isBlankByte_iff (b : UInt8) : isBlankByte b = true ↔ b.toNat ∈ blankNumbers := by
  simp only [isBlankByte, Bool.or_eq_true, beq_iff_eq, ← UInt8.toNat_inj, or_assoc, blankNumbers,
    List.mem_cons, List.not_mem_nil, or_false]
  rfl

theorem not_mem_blankNumbers {n : Nat} (h : 128 ≤ n) : n ∉ blankNumbers := by
  simp only [blankNumbers, List.mem_cons, List.not_mem_nil, or_false]
  omega

theorem toNat_ofNat_of_small {n : Nat} (h : n < 128) : (UInt8.ofNat n).toNat = n := by
  rw [UInt8.toNat_ofNat']
  omega

/-- A character is blank if its bytes are. -/
theorem filter_utf8EncodeChar (c : Char) :
    (String.utf8EncodeChar c).filter (!isBlankByte ·) =
      if isBlank c then [] else String.utf8EncodeChar c := by
  obtain ⟨hsmall, hone⟩ | ⟨hlarge, first, rest, hbytes, hhigh⟩ := utf8EncodeChar_cases c
  · have hsame : isBlankByte (UInt8.ofNat c.toNat) = isBlank c := by
      rw [Bool.eq_iff_iff, isBlankByte_iff, isBlank_iff, toNat_ofNat_of_small hsmall]
    rw [hone]
    cases hblank : isBlank c <;> simp [hsame, hblank]
  · have hvisible : ¬ isBlank c = true := by
      rw [isBlank_iff]
      exact not_mem_blankNumbers hlarge
    rw [hbytes, if_neg hvisible]
    apply List.filter_eq_self.mpr
    intro b hb
    rw [Bool.not_eq_true', ← Bool.not_eq_true, isBlankByte_iff]
    exact not_mem_blankNumbers (hhigh b hb)

theorem filter_flatMap_utf8EncodeChar (cs : List Char) :
    (cs.flatMap String.utf8EncodeChar).filter (!isBlankByte ·) =
      (cs.filter (!isBlank ·)).flatMap String.utf8EncodeChar := by
  induction cs with
  | nil => rfl
  | cons c cs ih =>
    rw [List.flatMap_cons, List.filter_append, filter_utf8EncodeChar, ih]
    cases hblank : isBlank c <;> simp [hblank]

/-- A text starts with the byte of a character below 128 if it starts with the character. -/
theorem exists_cons_of_first_byte {cs : List Char} {a : Char} {bytes : List UInt8}
    (ha : a.toNat < 128) (h : cs.flatMap String.utf8EncodeChar = UInt8.ofNat a.toNat :: bytes) :
    ∃ rest, cs = a :: rest ∧ rest.flatMap String.utf8EncodeChar = bytes := by
  cases cs with
  | nil => cases h
  | cons c rest =>
    rw [List.flatMap_cons] at h
    obtain ⟨hsmall, hone⟩ | ⟨-, first, more, hbytes, hhigh⟩ := utf8EncodeChar_cases c
    · rw [hone] at h
      obtain ⟨hbyte, hrest⟩ := List.cons.inj h
      have hnat := congrArg UInt8.toNat hbyte
      rw [toNat_ofNat_of_small hsmall, toNat_ofNat_of_small ha] at hnat
      exact ⟨rest, by rw [eq_iff_toNat.mpr hnat], hrest⟩
    · rw [hbytes] at h
      have hfirst := hhigh first List.mem_cons_self
      rw [(List.cons.inj h).1, toNat_ofNat_of_small ha] at hfirst
      omega

/-- The mark of a text is the mark of its bytes. -/
theorem dropMarkBytes_flatMap (cs : List Char) :
    dropMarkBytes (cs.flatMap String.utf8EncodeChar) =
      (dropMark cs).flatMap String.utf8EncodeChar := by
  generalize hbytes : cs.flatMap String.utf8EncodeChar = bytes
  unfold dropMarkBytes
  split
  · next tail =>
    obtain ⟨cs', rfl, hbytes'⟩ := exists_cons_of_first_byte (a := '0') (by decide) hbytes
    obtain ⟨rest, rfl, hrest⟩ := exists_cons_of_first_byte (a := 'x') (by decide) hbytes'
    exact hrest.symm
  · next hno =>
    unfold dropMark
    split
    · next rest => exact absurd hbytes.symm (hno _)
    · exact hbytes.symm

theorem digitBytes_eq_cleaned (text : String) : digitBytes text = cleaned text := by
  rw [digitBytes, cleaned, toList_toUTF8, filter_flatMap_utf8EncodeChar, dropMarkBytes_flatMap]

/-! ## Digits -/

/-- The byte is one of `0` to `9`, `A` to `F` and `a` to `f`. -/
def IsDigit (b : UInt8) : Prop :=
  (0x30 ≤ b.toNat ∧ b.toNat ≤ 0x39) ∨ (0x41 ≤ b.toNat ∧ b.toNat ≤ 0x46) ∨
    (0x61 ≤ b.toNat ∧ b.toNat ≤ 0x66)

instance (b : UInt8) : Decidable (IsDigit b) :=
  inferInstanceAs (Decidable (_ ∨ _ ∨ _))

/-- The digits, in either case, are the high and the low half of each of the bytes in turn. -/
def HasHalves (digits bytes : List UInt8) : Prop :=
  AreDigits (digits.map Char.ofUInt8) bytes

instance (digits bytes : List UInt8) : Decidable (HasHalves digits bytes) :=
  inferInstanceAs (Decidable (AreDigits _ _))

/-- The byte is the first one that is no digit, and this many digits stand before it. -/
def FirstOffender (bytes : List UInt8) (b : UInt8) (k : Nat) : Prop :=
  ¬ IsDigit b ∧ ∃ before behind, bytes = before ++ b :: behind ∧ before.length = k ∧
    ∀ c ∈ before, IsDigit c

theorem digit?_eq_none_iff (b : UInt8) : digit? b = none ↔ ¬ IsDigit b := by
  have hcode : '0'.toUInt8.toNat = 0x30 ∧ '9'.toUInt8.toNat = 0x39 ∧ 'A'.toUInt8.toNat = 0x41 ∧
      'F'.toUInt8.toNat = 0x46 ∧ 'a'.toUInt8.toNat = 0x61 ∧ 'f'.toUInt8.toNat = 0x66 := by
    decide
  unfold digit? IsDigit
  simp only [Bool.and_eq_true, decide_eq_true_eq, UInt8.le_iff_toNat_le]
  grind

/-- What a digit is read as is what it stands for. -/
theorem digit?_value {b v : UInt8} (h : digit? b = some v) :
    v.toNat < 16 ∧ (Char.ofUInt8 b).toLower = Nat.digitChar v.toNat := by
  have hall : ∀ n < 256, ∀ v ∈ digit? (UInt8.ofNat n),
      v.toNat < 16 ∧ (Char.ofUInt8 (UInt8.ofNat n)).toLower = Nat.digitChar v.toNat := by
    decide +kernel
  rw [← UInt8.ofNat_toNat (x := b)] at h ⊢
  exact hall b.toNat b.toNat_lt v h

theorem isDigit_of_digit? {b v : UInt8} (h : digit? b = some v) : IsDigit b := by
  by_cases hdigit : IsDigit b
  · exact hdigit
  · rw [(digit?_eq_none_iff b).mpr hdigit] at h
    cases h

/-- Two digits in front are the halves of one more byte. -/
theorem HasHalves.cons {hi lo h l : UInt8} {digits bytes : List UInt8} (hhi : digit? hi = some h)
    (hlo : digit? lo = some l) (hrest : HasHalves digits bytes) :
    HasHalves (hi :: lo :: digits) ((h * 16 + l) :: bytes) := by
  obtain ⟨hh, hhdigit⟩ := digit?_value hhi
  obtain ⟨hl, hldigit⟩ := digit?_value hlo
  have hjoined : (h * 16 + l).toNat = h.toNat * 16 + l.toNat := by
    rw [UInt8.toNat_add, UInt8.toNat_mul]
    simp only [UInt8.reduceToNat]
    omega
  refine areDigits_cons_iff.mpr ⟨_, _, _, rfl, ?_, ?_, hrest⟩
  · rw [hhdigit, hjoined]
    congr 1
    omega
  · rw [hldigit, hjoined]
    congr 1
    omega

theorem toUInt8_ofUInt8 (b : UInt8) : (Char.ofUInt8 b).toUInt8 = b :=
  UInt8.toUInt8_toUInt32 b

/-- Digits that have been paired up are twice as many as the bytes, and each is a digit. -/
theorem HasHalves.sound {digits bytes : List UInt8} (h : HasHalves digits bytes) :
    digits.length = 2 * bytes.length ∧ ∀ b ∈ digits, IsDigit b := by
  induction bytes generalizing digits with
  | nil =>
    obtain rfl : digits = [] := List.map_eq_nil_iff.mp (List.map_eq_nil_iff.mp h)
    exact ⟨rfl, fun b hb => nomatch hb⟩
  | cons byte bytes ih =>
    obtain ⟨hi, lo, rest, hdigits, hhi, hlo, hrest⟩ := areDigits_cons_iff.mp h
    obtain ⟨b, tail, rfl, rfl, htail⟩ := List.map_eq_cons_iff.mp hdigits
    obtain ⟨c, more, rfl, rfl, rfl⟩ := List.map_eq_cons_iff.mp htail
    obtain ⟨⟨-, hb⟩, ⟨-, hc⟩⟩ := readsAs_of_halves hhi hlo
    rw [toUInt8_ofUInt8] at hb hc
    obtain ⟨hlength, hmore⟩ := ih hrest
    refine ⟨?_, ?_⟩
    · simp only [List.length_cons, hlength]
      omega
    · simp only [List.forall_mem_cons]
      exact ⟨isDigit_of_digit? hb, isDigit_of_digit? hc, hmore⟩

/-! ## Outcomes -/

/-- Bytes that pair up are either the digits of bytes, which are then added, or have a first byte
that is no digit, which is then reported in its place. -/
theorem joinPairs_cases (position : Nat) (joined : Array UInt8) (digits : List UInt8)
    (heven : digits.length % 2 = 0) :
    (∃ bytes, HasHalves digits bytes ∧
      joinPairs position joined digits = .ok (joined ++ bytes.toArray)) ∨
    ∃ b k, FirstOffender digits b k ∧
      joinPairs position joined digits = .error (.badDigit b (position + k)) := by
  fun_induction joinPairs position joined digits with
  | case1 position joined hi lo rest hhi =>
    exact .inr ⟨hi, 0, ⟨(digit?_eq_none_iff hi).mp hhi, [], lo :: rest, rfl, rfl, by simp⟩, rfl⟩
  | case2 position joined hi lo rest h hlo hhi =>
    refine .inr ⟨lo, 1, ⟨(digit?_eq_none_iff lo).mp hlo, [hi], rest, rfl, rfl, ?_⟩, rfl⟩
    simpa using isDigit_of_digit? hhi
  | case3 position joined hi lo rest h l hlo hhi ih =>
    simp only [List.length_cons] at heven
    obtain ⟨bytes, hbytes, hjoin⟩ | ⟨b, k, ⟨hb, before, behind, rfl, rfl, hbefore⟩, hjoin⟩ :=
      ih (by omega)
    · refine .inl ⟨(h * 16 + l) :: bytes, hbytes.cons hhi hlo, ?_⟩
      rw [hjoin]
      simp
    · refine .inr ⟨b, before.length + 2,
        ⟨hb, hi :: lo :: before, behind, rfl, rfl, ?_⟩, ?_⟩
      · simp only [List.forall_mem_cons]
        exact ⟨isDigit_of_digit? hhi, isDigit_of_digit? hlo, hbefore⟩
      · rw [hjoin, Nat.add_assoc, Nat.add_comm 2]
  | case4 digits position joined hshort =>
    left
    obtain rfl : digits = [] := by
      rcases digits with _ | ⟨b, _ | ⟨c, rest⟩⟩
      · rfl
      · simp at heven
      · exact absurd rfl (hshort b c rest)
    exact ⟨[], rfl, by simp⟩

/-- There is one first offender at most. -/
theorem FirstOffender.unique {bytes : List UInt8} {b c : UInt8} {j k : Nat}
    (hb : FirstOffender bytes b j) (hc : FirstOffender bytes c k) : b = c ∧ j = k := by
  obtain ⟨hbad, before, behind, rfl, rfl, hbefore⟩ := hb
  obtain ⟨hbad', before', behind', hsplit, rfl, hbefore'⟩ := hc
  -- Were one row of digits shorter, the other would contain its offender.
  rcases List.append_eq_append_iff.mp hsplit with ⟨more, rfl, hmore⟩ | ⟨more, rfl, hmore⟩
  · cases more with
    | nil => exact ⟨(List.cons.inj hmore).1, by simp⟩
    | cons d more =>
      obtain ⟨rfl, -⟩ := List.cons.inj hmore
      exact absurd (hbefore' b (by simp)) hbad
  · cases more with
    | nil => exact ⟨(List.cons.inj hmore).1.symm, by simp⟩
    | cons d more =>
      obtain ⟨rfl, -⟩ := List.cons.inj hmore
      exact absurd (hbefore c (by simp)) hbad'

theorem FirstOffender.not_hasHalves {digits bytes : List UInt8} {b : UInt8} {k : Nat}
    (h : FirstOffender digits b k) : ¬ HasHalves digits bytes := by
  intro hhalves
  obtain ⟨hbad, before, behind, rfl, -⟩ := h
  exact hbad (hhalves.sound.2 b (by simp))

/-- Digits are the halves of one list of bytes at most. -/
theorem HasHalves.unique {digits bytes bytes' : List UInt8} (h : HasHalves digits bytes)
    (h' : HasHalves digits bytes') : bytes = bytes' := by
  have hjoined := joinPairs_of_areDigits h 0 #[]
  rw [joinPairs_of_areDigits h' 0 #[]] at hjoined
  have hsame := congrArg Array.toList (Except.ok.inj hjoined)
  simpa using hsame.symm

variable (text : String)

theorem decode_of_odd (h : (cleaned text).length % 2 = 1) : decode text = .error .oddLength := by
  unfold decode
  rw [digitBytes_eq_cleaned]
  exact if_pos h

/-- The outcome of a text whose cleaned bytes pair up. -/
theorem decode_cases (h : (cleaned text).length % 2 = 0) :
    (∃ bytes : Array UInt8, HasHalves (cleaned text) bytes.toList ∧ decode text = .ok bytes) ∨
    ∃ b k, FirstOffender (cleaned text) b k ∧ decode text = .error (.badDigit b k) := by
  have hdecode : decode text = joinPairs 0 #[] (cleaned text) := by
    unfold decode
    rw [digitBytes_eq_cleaned]
    exact if_neg (by omega)
  rw [hdecode]
  obtain ⟨bytes, hbytes, hjoin⟩ | ⟨b, k, hfirst, hjoin⟩ := joinPairs_cases 0 #[] _ h
  · exact .inl ⟨bytes.toArray, hbytes, by rw [hjoin, Array.empty_append]⟩
  · exact .inr ⟨b, k, hfirst, by rw [hjoin, Nat.zero_add]⟩

variable {text}

theorem length_of_decode_ne_odd (h : decode text ≠ .error .oddLength) :
    (cleaned text).length % 2 = 0 := by
  rcases Nat.mod_two_eq_zero_or_one (cleaned text).length with heven | hodd
  · exact heven
  · exact absurd (decode_of_odd text hodd) h

/-- A text is decoded to the bytes of which its cleaned bytes are the digits. -/
theorem decode_eq_ok_iff {bytes : Array UInt8} :
    decode text = .ok bytes ↔ HasHalves (cleaned text) bytes.toList := by
  constructor
  · intro hdecode
    have hne : decode text ≠ .error .oddLength := by simp [hdecode]
    have heven := length_of_decode_ne_odd hne
    obtain ⟨bytes', hbytes', hok⟩ | ⟨b, k, -, herror⟩ := decode_cases text heven
    · rw [hdecode] at hok
      cases hok
      exact hbytes'
    · rw [hdecode] at herror
      cases herror
  · intro hhalves
    have heven : (cleaned text).length % 2 = 0 := by
      rw [hhalves.sound.1]
      omega
    obtain ⟨bytes', hbytes', hok⟩ | ⟨b, k, hfirst, -⟩ := decode_cases text heven
    · rw [hok, Array.toList_inj.mp (hbytes'.unique hhalves)]
    · exact absurd hhalves hfirst.not_hasHalves

/-- A text is decoded to anything if its cleaned bytes pair up and are digits. -/
theorem exists_decode_iff :
    (∃ bytes, decode text = .ok bytes) ↔
      (cleaned text).length % 2 = 0 ∧ ∀ b ∈ cleaned text, IsDigit b := by
  constructor
  · rintro ⟨bytes, hdecode⟩
    obtain ⟨hlength, hdigits⟩ := (decode_eq_ok_iff.mp hdecode).sound
    exact ⟨by omega, hdigits⟩
  · rintro ⟨heven, hdigits⟩
    obtain ⟨bytes, -, hok⟩ | ⟨b, k, ⟨hbad, before, behind, hsplit, -⟩, -⟩ :=
      decode_cases text heven
    · exact ⟨bytes, hok⟩
    · exact absurd (hdigits b (by simp [hsplit])) hbad

/-- A text has an odd length if its cleaned bytes have, whatever they are. -/
theorem decode_eq_oddLength_iff :
    decode text = .error .oddLength ↔ (cleaned text).length % 2 = 1 := by
  constructor
  · intro hodd
    rcases Nat.mod_two_eq_zero_or_one (cleaned text).length with heven | h
    · obtain ⟨bytes, -, hok⟩ | ⟨b, k, -, herror⟩ := decode_cases text heven
      · rw [hodd] at hok
        cases hok
      · rw [hodd] at herror
        cases herror
    · exact h
  · exact decode_of_odd text

/-- The byte that is reported is the first offender, and one is reported only if the cleaned bytes
pair up. -/
theorem decode_eq_badDigit_iff {b : UInt8} {k : Nat} :
    decode text = .error (.badDigit b k) ↔
      (cleaned text).length % 2 = 0 ∧ FirstOffender (cleaned text) b k := by
  constructor
  · intro hbad
    have hne : decode text ≠ .error .oddLength := by simp [hbad]
    have heven := length_of_decode_ne_odd hne
    obtain ⟨bytes, -, hok⟩ | ⟨c, j, hfirst, herror⟩ := decode_cases text heven
    · rw [hbad] at hok
      cases hok
    · rw [hbad] at herror
      cases herror
      exact ⟨heven, hfirst⟩
  · rintro ⟨heven, hfirst⟩
    obtain ⟨bytes, hbytes, -⟩ | ⟨c, j, hfirst', herror⟩ := decode_cases text heven
    · exact absurd hbytes hfirst.not_hasHalves
    · obtain ⟨rfl, rfl⟩ := hfirst.unique hfirst'
      exact herror

/-- Blanks change nothing, wherever they stand. -/
theorem decode_of_same_visible {other : String}
    (h : other.toList.filter (!isBlank ·) = text.toList.filter (!isBlank ·)) :
    decode other = decode text := by
  unfold decode digitBytes
  rw [h]

end GlyphHint.Hex
