import GlyphHint.Proofs.Opcode.Encoding
set_option autoImplicit false

/-!
# What the text of an opcode tells

An opcode is shown by the mnemonic of its row, or in hexadecimal if it has no row.  No two rows have
one mnemonic, but for the inline pushes of one width, and no mnemonic starts as a number does.  So
the text of an opcode tells the opcode, up to the bytes of one row that the machine does not execute
(`Opcode.SharesRow`) and up to the count of an inline push (`Opcode.text_cases`).
-/

namespace GlyphHint.Opcode

/-- One row of several bytes, which the machine does not execute, has both opcodes. -/
def SharesRow (o o' : Opcode) : Prop :=
  ∃ e, o.entry? = some e ∧ o'.entry? = some e ∧ e.support = .unimplemented ∧ e.first < e.last

variable {o o' : Opcode}

theorem SharesRow.symm (h : o.SharesRow o') : o'.SharesRow o := by
  obtain ⟨e, hentry, hentry', hsupport, hrange⟩ := h
  exact ⟨e, hentry', hentry, hsupport, hrange⟩

theorem SharesRow.op?_eq_none (h : o.SharesRow o') : o.op? = none := by
  obtain ⟨⟨first, last, mnemonic, support⟩, hentry, -, hsupport, -⟩ := h
  cases hsupport
  rw [op?, hentry]

theorem SharesRow.pushShape?_eq_none (h : o.SharesRow o') : o.pushShape? = none := by
  rw [pushShape?, h.op?_eq_none]

theorem SharesRow.isPush_eq_false (h : o.SharesRow o') : o.isPush = false := by
  rw [isPush, h.pushShape?_eq_none]
  rfl

/-- An opcode that the machine executes, or that has no row, shares its row with none. -/
theorem SharesRow.not_plain (h : o.SharesRow o') :
    ¬ (o.op?.isSome = true ∨ o.entry? = none) := by
  rw [h.op?_eq_none]
  obtain ⟨e, hentry, -⟩ := h
  simp [hentry]

theorem SharesRow.text_eq (h : o.SharesRow o') : o.text = o'.text := by
  obtain ⟨e, hentry, hentry', -, -⟩ := h
  simp only [text, mnemonic?, hentry, hentry', Option.map_some]

/-! ## Mnemonics -/

/-- The characters of a text as the digits of one number, which is quick to compare. -/
def spellingNumber (text : String) : Nat :=
  text.toList.foldl (fun n c => 256 * n + c.toNat) 0

/-- Rows of one mnemonic are one row, or inline pushes of one width that differ in their count. -/
theorem rows_spellingNumber : (rows.all fun e => rows.all fun e' =>
    spellingNumber e.mnemonic != spellingNumber e'.mnemonic || e == e' ||
      match e.support, e'.support with
      | .runs (.push ⟨width, .inline n⟩), .runs (.push ⟨width', .inline n'⟩) =>
        width == width' && n != n'
      | _, _ => false) = true := by
  decide +kernel

theorem rows_mnemonic {e e' : Entry} (he : e ∈ rows) (he' : e' ∈ rows)
    (h : e.mnemonic = e'.mnemonic) :
    e = e' ∨ ∃ width n n', e.support = .runs (.push ⟨width, .inline n⟩) ∧
      e'.support = .runs (.push ⟨width, .inline n'⟩) ∧ n ≠ n' := by
  have hpair := List.all_eq_true.mp (List.all_eq_true.mp rows_spellingNumber e he) e' he'
  rw [h] at hpair
  simp only [bne_self_eq_false, Bool.false_or, Bool.or_eq_true, beq_iff_eq] at hpair
  refine hpair.imp_right fun hpush => ?_
  split at hpush
  · next width n width' n' hsupport hsupport' =>
    simp only [Bool.and_eq_true, beq_iff_eq, bne_iff_ne] at hpush
    exact ⟨width, n, n', hsupport, hpush.1 ▸ hsupport', hpush.2⟩
  · cases hpush

/-- No mnemonic contains a blank or a bracket, and none starts with a digit zero. -/
theorem rows_characters : ∀ e ∈ rows, ' ' ∉ e.mnemonic.toList ∧ '[' ∉ e.mnemonic.toList ∧
    e.mnemonic.toList.head? ≠ some '0' ∧ e.mnemonic.toList ≠ [] := by
  decide +kernel

/-! ## Texts -/

theorem hexDigit_inj : ∀ m < 16, ∀ n < 16, hexDigit m = hexDigit n → m = n := by
  decide

theorem hexDigit_ne : ∀ n < 16, hexDigit n ≠ ' ' ∧ hexDigit n ≠ '[' := by
  decide

theorem text_of_row {e : Entry} (h : o.entry? = some e) : o.text = e.mnemonic := by
  simp only [text, mnemonic?, h, Option.map_some]

theorem toList_text_of_no_row (h : o.entry? = none) :
    o.text.toList =
      ['0', 'x', hexDigit (o.byte.toNat / 16), hexDigit (o.byte.toNat % 16)] := by
  simp only [text, mnemonic?, h, Option.map_none, String.toList_ofList]

theorem row_mem {e : Entry} (h : o.entry? = some e) : e ∈ rows :=
  List.mem_of_find?_eq_some h

/-- The text of an opcode is one word without a bracket. -/
theorem characters_text (o : Opcode) :
    ' ' ∉ o.text.toList ∧ '[' ∉ o.text.toList ∧ o.text.toList ≠ [] := by
  cases h : o.entry? with
  | some e =>
    obtain ⟨hblank, hbracket, -, hne⟩ := rows_characters e (row_mem h)
    rw [text_of_row h]
    exact ⟨hblank, hbracket, hne⟩
  | none =>
    have hlt : o.byte.toNat < 256 := o.byte.toNat_lt
    have hhigh := hexDigit_ne (o.byte.toNat / 16) (by omega)
    have hlow := hexDigit_ne (o.byte.toNat % 16) (by omega)
    rw [toList_text_of_no_row h]
    simp [hhigh.1.symm, hhigh.2.symm, hlow.1.symm, hlow.2.symm]

/-- Opcodes of one row are one opcode, unless the row has several bytes. -/
theorem eq_or_sharesRow_of_row {e : Entry} (h : o.entry? = some e) (h' : o'.entry? = some e) :
    o = o' ∨ o.SharesRow o' := by
  have hcovers := List.find?_some h
  have hcovers' := List.find?_some h'
  simp only [Entry.covers, Bool.and_eq_true, decide_eq_true_eq] at hcovers hcovers'
  by_cases hone : e.first = e.last
  · left
    rw [hone] at hcovers hcovers'
    have hbyte := UInt8.le_antisymm hcovers.1 hcovers.2
    have hbyte' := UInt8.le_antisymm hcovers'.1 hcovers'.2
    exact congrArg mk (hbyte.symm.trans hbyte')
  · right
    have hrange := UInt8.lt_of_le_of_ne (UInt8.le_trans hcovers.1 hcovers.2) hone
    refine ⟨e, h, h', ?_, hrange⟩
    have hrow := List.all_eq_true.mp rows_byte? e (row_mem h)
    split at hrow
    · simp [hone] at hrow
    · assumption

/-- A mnemonic is not a number. -/
theorem text_ne_of_no_row {e : Entry} (h : o.entry? = some e) (h' : o'.entry? = none) :
    o.text ≠ o'.text := by
  intro htext
  have hhead := (rows_characters e (row_mem h)).2.2.1
  rw [← text_of_row h, htext, toList_text_of_no_row h'] at hhead
  exact hhead rfl

/-- The digits of a number tell the byte. -/
theorem eq_of_text_of_no_row (h : o.entry? = none) (h' : o'.entry? = none)
    (htext : o.text = o'.text) : o = o' := by
  have hdigits := congrArg String.toList htext
  rw [toList_text_of_no_row h, toList_text_of_no_row h'] at hdigits
  simp only [List.cons.injEq, and_true, true_and] at hdigits
  have hlt : o.byte.toNat < 256 := o.byte.toNat_lt
  have hlt' : o'.byte.toNat < 256 := o'.byte.toNat_lt
  have hhigh := hexDigit_inj _ (by omega) _ (by omega) hdigits.1
  have hlow := hexDigit_inj _ (by omega) _ (by omega) hdigits.2
  exact congrArg mk (UInt8.toNat_inj.mp (by omega))

/-- Opcodes of one text are one opcode, or two of one row that the machine does not execute, or
inline pushes of one width that differ in their count. -/
theorem text_cases (h : o.text = o'.text) :
    o = o' ∨ o.SharesRow o' ∨ ∃ width n n', o.pushShape? = some ⟨width, .inline n⟩ ∧
      o'.pushShape? = some ⟨width, .inline n'⟩ ∧ n ≠ n' := by
  cases hentry : o.entry? <;> cases hentry' : o'.entry?
  case none.none => exact Or.inl (eq_of_text_of_no_row hentry hentry' h)
  case none.some => exact absurd h.symm (text_ne_of_no_row hentry' hentry)
  case some.none => exact absurd h (text_ne_of_no_row hentry hentry')
  case some.some e e' =>
    rw [text_of_row hentry, text_of_row hentry'] at h
    rcases rows_mnemonic (row_mem hentry) (row_mem hentry') h with
      rfl | ⟨width, n, n', hsupport, hsupport', hne⟩
    · exact (eq_or_sharesRow_of_row hentry hentry').imp_right Or.inl
    · have hop := op?_of_entry? hentry hsupport
      have hop' := op?_of_entry? hentry' hsupport'
      exact Or.inr (Or.inr ⟨width, n, n', pushShape?_eq_some_iff.mpr hop,
        pushShape?_eq_some_iff.mpr hop', hne⟩)

end GlyphHint.Opcode
