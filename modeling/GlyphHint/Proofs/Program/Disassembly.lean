import GlyphHint.Proofs.Opcode.Mnemonic
import GlyphHint.Proofs.Program.Written
import GlyphHint.Proofs.Text.Visible
import GlyphHint.Proofs.Text.Words
set_option autoImplicit false

/-!
# The texts of a listing tell the program

The text of an instruction drops the byte of its opcode.  For a push the mnemonic and the values
bring the byte back, because the number of the values is the count of an inline push; for another
instruction the bytes of one row of the table look the same.  So instructions of one text are alike
(`Instr.text_eq_iff`).  Alike instructions have the same number of bytes, so listings of the same
texts are alike one by one (`Listing.alike_of_texts`), and their programs differ at most in opcodes
that share a row.
-/

namespace GlyphHint

open Text

namespace Instr

/-- The instructions have the same values, and one opcode or two of one row. -/
structure Alike (i j : Instr) : Prop where
  immediates : i.immediates = j.immediates
  opcode : i.opcode = j.opcode ∨ i.opcode.SharesRow j.opcode

variable {i j : Instr}

/-! ## The words of a text -/

/-- The mnemonic of a push and in brackets the number of its values. -/
def headWord (i : Instr) : List Char :=
  i.opcode.text.toList ++ '[' :: (i.immediates.length.repr.toList ++ [']'])

theorem solid_headWord (i : Instr) : Solid i.headWord where
  noBlank := by
    have hname := i.opcode.characters_text.1
    have hcount := (solid_repr i.immediates.length).noBlank
    simp only [headWord, List.mem_append, List.mem_cons, List.not_mem_nil, not_or]
    exact ⟨hname, by decide, hcount, by decide, not_false⟩
  nonempty := by simp [headWord]

theorem text_of_no_push (h : i.opcode.isPush = false) : i.text = i.opcode.text := by
  rw [text, h]
  rfl

theorem toList_text_of_push (h : i.opcode.isPush = true) :
    i.text.toList =
      i.headWord ++ (i.immediates.map fun v => v.toInt.repr.toList).flatMap (' ' :: ·) := by
  have hextend : ∀ (line : String) (v : Int32),
      (line ++ " " ++ toString v.toInt).toList = line.toList ++ ' ' :: v.toInt.repr.toList := by
    intro line v
    simp
  rw [text, if_pos h, toList_foldl hextend, List.flatMap_map]
  simp [headWord]

/-- The words of a push are its head and its values. -/
theorem words_text_of_push (h : i.opcode.isPush = true) :
    words i.text.toList = i.headWord :: i.immediates.map fun v => v.toInt.repr.toList := by
  rw [toList_text_of_push h]
  apply words_spaced i.solid_headWord
  intro w hw
  obtain ⟨v, -, rfl⟩ := List.mem_map.mp hw
  exact solid_intRepr v.toInt

theorem opcode_text_of_headWord (h : i.headWord = j.headWord) : i.opcode.text = j.opcode.text := by
  have hcut : ∀ k : Instr, k.headWord.splitOn '[' =
      k.opcode.text.toList :: (k.immediates.length.repr.toList ++ [']']).splitOn '[' :=
    fun k => List.splitOn_append_cons_self_of_not_mem k.opcode.characters_text.2.1 _
  have hboth := (hcut i).symm.trans ((congrArg (List.splitOn '[') h).trans (hcut j))
  exact String.toList_inj.mp (List.cons.inj hboth).1

/-- The text of a push contains a bracket, and the text of no opcode does. -/
theorem text_ne_of_push (hi : i.opcode.isPush = true) (hj : j.opcode.isPush = false) :
    i.text ≠ j.text := by
  intro h
  have hbracket : '[' ∈ i.text.toList := by
    rw [toList_text_of_push hi]
    simp [headWord]
  rw [h, text_of_no_push hj] at hbracket
  exact j.opcode.characters_text.2.1 hbracket

/-! ## Instructions of one text -/

theorem WellFormed.immediates_eq_nil (h : i.WellFormed) (hpush : i.opcode.isPush = false) :
    i.immediates = [] := by
  have hshape : i.opcode.pushShape? = none := by simpa [Opcode.isPush] using hpush
  simpa only [WellFormed, hshape] using h

theorem WellFormed.length_of_inline (h : i.WellFormed) {width : Width} {n : Nat}
    (hpush : i.opcode.pushShape? = some ⟨width, .inline n⟩) : i.immediates.length = n := by
  simp only [WellFormed, hpush] at h
  exact h.1

/-- Opcodes that look the same do so because they share a row, unless one of them is an inline push
with the number of values of the other. -/
theorem opcode_of_text (hi : i.WellFormed) (hj : j.WellFormed)
    (hvalues : i.immediates = j.immediates) (h : i.opcode.text = j.opcode.text) :
    i.opcode = j.opcode ∨ i.opcode.SharesRow j.opcode := by
  rcases Opcode.text_cases h with hsame | hshares | ⟨width, n, n', hpush, hpush', hne⟩
  · exact Or.inl hsame
  · exact Or.inr hshares
  · refine absurd ?_ hne
    rw [← hi.length_of_inline hpush, ← hj.length_of_inline hpush', hvalues]

theorem alike_of_text (hi : i.WellFormed) (hj : j.WellFormed) (h : i.text = j.text) :
    i.Alike j := by
  cases hpush : i.opcode.isPush <;> cases hpush' : j.opcode.isPush
  case true.false => exact absurd h (text_ne_of_push hpush hpush')
  case false.true => exact absurd h.symm (text_ne_of_push hpush' hpush)
  case false.false =>
    have hvalues : i.immediates = j.immediates := by
      rw [hi.immediates_eq_nil hpush, hj.immediates_eq_nil hpush']
    rw [text_of_no_push hpush, text_of_no_push hpush'] at h
    exact ⟨hvalues, opcode_of_text hi hj hvalues h⟩
  case true.true =>
    have hwords := congrArg (words ·.toList) h
    rw [words_text_of_push hpush, words_text_of_push hpush'] at hwords
    obtain ⟨hhead, htail⟩ := List.cons.inj hwords
    have hvalues : i.immediates = j.immediates := by
      refine List.map_injective_iff.mpr (fun v w hvw => ?_) htail
      exact Int32.toInt_inj.mp (intRepr_inj (String.toList_inj.mp hvw))
    exact ⟨hvalues, opcode_of_text hi hj hvalues (opcode_text_of_headWord hhead)⟩

/-- Well-formed instructions of one text are the alike ones. -/
theorem text_eq_iff (hi : i.WellFormed) (hj : j.WellFormed) : i.text = j.text ↔ i.Alike j := by
  refine ⟨alike_of_text hi hj, ?_⟩
  rintro ⟨hvalues, hsame | hshares⟩
  · rw [text, text, hsame, hvalues]
  · rw [text_of_no_push hshares.isPush_eq_false, text_of_no_push hshares.symm.isPush_eq_false,
      hshares.text_eq]

/-- Alike instructions have the same bytes but for the opcodes that share a row. -/
theorem Alike.written_cases (h : i.Alike j) : i.written = j.written ∨
    i.opcode.SharesRow j.opcode ∧ i.written = [i.opcode.byte] ∧ j.written = [j.opcode.byte] := by
  obtain ⟨hvalues, hsame | hshares⟩ := h
  · left
    rw [written, written, hsame, hvalues]
  · right
    refine ⟨hshares, ?_, ?_⟩
    · rw [written, hshares.pushShape?_eq_none]
    · rw [written, hshares.symm.pushShape?_eq_none]

theorem Alike.length_written (h : i.Alike j) : i.written.length = j.written.length := by
  rcases h.written_cases with hsame | ⟨-, hi, hj⟩
  · rw [hsame]
  · rw [hi, hj]
    rfl

/-- A byte inside alike instructions is the same, or it is the opcode of both. -/
theorem Alike.getElem?_cases (h : i.Alike j) {k : Nat} (hk : k < i.written.length) :
    i.written[k]? = j.written[k]? ∨ k = 0 ∧ i.written[k]? = some i.opcode.byte ∧
      j.written[k]? = some j.opcode.byte ∧ i.opcode.SharesRow j.opcode := by
  rcases h.written_cases with hsame | ⟨hshares, hwritten, hwritten'⟩
  · exact Or.inl (by rw [hsame])
  · right
    rw [hwritten, List.length_singleton, Nat.lt_one_iff] at hk
    rw [hk, hwritten, hwritten']
    exact ⟨rfl, rfl, rfl, hshares⟩

end Instr

/-! ## Listings of the same texts -/

namespace Listing

/-- The instructions of the listings are alike one by one, and they have the same offsets. -/
def Alike (is js : List Instr) : Prop :=
  List.Forall₂ (fun i j => i.offset = j.offset ∧ i.Alike j) is js

variable {offset : Nat} {is js : List Instr}

theorem alike_of_texts (hi : Chained offset is) (hj : Chained offset js)
    (h : is.map Instr.text = js.map Instr.text) : Alike is js := by
  induction is generalizing offset js with
  | nil =>
    rw [List.map_nil, eq_comm, List.map_eq_nil_iff] at h
    rw [h]
    exact .nil
  | cons i is ih =>
    cases js with
    | nil => cases h
    | cons j js =>
      obtain ⟨hoffset, hwell, hrest⟩ := hi
      obtain ⟨hoffset', hwell', hrest'⟩ := hj
      obtain ⟨htext, htexts⟩ := List.cons.inj h
      have halike := Instr.alike_of_text hwell hwell' htext
      rw [← halike.length_written] at hrest'
      exact .cons ⟨hoffset.trans hoffset'.symm, halike⟩ (ih hrest hrest' htexts)

namespace Alike

theorem texts_eq (h : Alike is js) (hi : ∀ i ∈ is, i.WellFormed) (hj : ∀ j ∈ js, j.WellFormed) :
    is.map Instr.text = js.map Instr.text := by
  induction h with
  | nil => rfl
  | cons halike _ ih =>
    rw [List.forall_mem_cons] at hi hj
    rw [List.map_cons, List.map_cons, ih hi.2 hj.2, (Instr.text_eq_iff hi.1 hj.1).mpr halike.2]

theorem offsets_eq (h : Alike is js) : is.map (·.offset) = js.map (·.offset) := by
  induction h with
  | nil => rfl
  | cons halike _ ih => rw [List.map_cons, List.map_cons, ih, halike.1]

theorem length_eq (h : Alike is js) :
    (is.flatMap Instr.written).length = (js.flatMap Instr.written).length := by
  induction h with
  | nil => rfl
  | cons halike _ ih =>
    rw [List.flatMap_cons, List.flatMap_cons, List.length_append, List.length_append, ih,
      halike.2.length_written]

/-- The bytes at one place are the same, or opcodes that share a row start there. -/
theorem getElem?_cases (h : Alike is js) (hi : Chained offset is) (k : Nat) :
    (is.flatMap Instr.written)[k]? = (js.flatMap Instr.written)[k]? ∨
      ∃ i ∈ is, ∃ j ∈ js, i.offset = offset + k ∧ j.offset = offset + k ∧
        (is.flatMap Instr.written)[k]? = some i.opcode.byte ∧
        (js.flatMap Instr.written)[k]? = some j.opcode.byte ∧ i.opcode.SharesRow j.opcode := by
  induction h generalizing offset k with
  | nil => exact Or.inl rfl
  | @cons i j is js halike hrest ih =>
    obtain ⟨hoffset, halike⟩ := halike
    obtain ⟨hplace, -, hchained⟩ := hi
    rw [List.flatMap_cons, List.flatMap_cons]
    rcases Nat.lt_or_ge k i.written.length with hinside | hbehind
    · rw [List.getElem?_append_left hinside,
        List.getElem?_append_left (halike.length_written ▸ hinside)]
      refine (halike.getElem?_cases hinside).imp_right ?_
      rintro ⟨rfl, hbyte, hbyte', hshares⟩
      exact ⟨i, List.mem_cons_self, j, List.mem_cons_self, hplace, hoffset.symm.trans hplace, hbyte,
        hbyte', hshares⟩
    · rw [List.getElem?_append_right hbehind,
        List.getElem?_append_right (halike.length_written ▸ hbehind), ← halike.length_written]
      refine (ih hchained (k - i.written.length)).imp_right ?_
      rintro ⟨i', hi', j', hj', hstart, hstart', hbyte, hbyte', hshares⟩
      refine ⟨i', List.mem_cons_of_mem _ hi', j', List.mem_cons_of_mem _ hj', ?_, ?_, hbyte, hbyte',
        hshares⟩ <;> omega

/-- Without an opcode that shares its row, alike listings are the same. -/
theorem eq_of_no_row (h : Alike is js)
    (hopcodes : ∀ i ∈ is, i.opcode.op?.isSome = true ∨ i.opcode.entry? = none) : is = js := by
  induction h with
  | nil => rfl
  | @cons i j is js halike _ ih =>
    rw [List.forall_mem_cons] at hopcodes
    obtain ⟨hoffset, hvalues, hopcode⟩ := halike
    have hsame : i.opcode = j.opcode :=
      hopcode.resolve_right fun hshares => hshares.not_plain hopcodes.1
    rw [ih hopcodes.2]
    obtain ⟨_, _, _⟩ := i
    cases hoffset
    cases hvalues
    cases hsame
    rfl

end Alike

end Listing

namespace Program

open Listing

/-- The texts of its instructions tell a program.  Two programs that have listings show the same
texts exactly if their instructions are alike one by one.  Then they have the same length and the
same offsets of instructions, and a byte of the one differs from the byte of the other only where
instructions other than pushes start, whose opcodes belong to one row of several bytes that the
machine does not execute; so they are equal if the machine executes every instruction whose opcode
the instruction set defines. -/
theorem listing_texts_tell {p q : Program} {ps qs : Array Instr} (hp : p.listing = .ok ps)
    (hq : q.listing = .ok qs) :
    (ps.map Instr.text = qs.map Instr.text ↔ Listing.Alike ps.toList qs.toList) ∧
    (ps.map Instr.text = qs.map Instr.text →
      p.size = q.size ∧ ps.map (·.offset) = qs.map (·.offset) ∧
      (∀ k, p[k]? = q[k]? ∨ ∃ i ∈ ps, ∃ j ∈ qs, i.offset = k ∧ j.offset = k ∧
        p[k]? = some i.opcode.byte ∧ q[k]? = some j.opcode.byte ∧
        i.opcode.isPush = false ∧ j.opcode.isPush = false ∧ i.opcode.SharesRow j.opcode) ∧
      ((∀ i ∈ ps, i.opcode.op?.isSome = true ∨ i.opcode.entry? = none) → p = q)) := by
  obtain ⟨hwell, rfl⟩ := (listing_eq_ok_iff p ps).mp hp
  obtain ⟨hwell', rfl⟩ := (listing_eq_ok_iff q qs).mp hq
  have hchained := (wellFormed_iff_chained ps).mp hwell
  have hchained' := (wellFormed_iff_chained qs).mp hwell'
  have htexts : ps.map Instr.text = qs.map Instr.text ↔
      Listing.Alike ps.toList qs.toList := by
    rw [← Array.toList_inj, Array.toList_map, Array.toList_map]
    refine ⟨alike_of_texts hchained hchained', fun halike => ?_⟩
    exact halike.texts_eq (fun i hi => hwell.each i (Array.mem_toList_iff.mp hi))
      (fun j hj => hwell'.each j (Array.mem_toList_iff.mp hj))
  refine ⟨htexts, fun h => ?_⟩
  have halike := htexts.mp h
  refine ⟨halike.length_eq, ?offsets, ?bytes, ?equal⟩
  case offsets =>
    rw [← Array.toList_inj, Array.toList_map, Array.toList_map]
    exact halike.offsets_eq
  case bytes =>
    intro k
    refine (halike.getElem?_cases hchained k).imp ?_ ?_
    · intro hsame
      simpa [written] using hsame
    · rintro ⟨i, hi, j, hj, hstart, hstart', hbyte, hbyte', hshares⟩
      rw [Nat.zero_add] at hstart hstart'
      refine ⟨i, Array.mem_toList_iff.mp hi, j, Array.mem_toList_iff.mp hj, hstart, hstart', ?_, ?_,
        hshares.isPush_eq_false, hshares.symm.isPush_eq_false, hshares⟩
      · simpa [written] using hbyte
      · simpa [written] using hbyte'
  case equal =>
    intro hopcodes
    have hsame := halike.eq_of_no_row fun i hi => hopcodes i (Array.mem_toList_iff.mp hi)
    rw [written, written, hsame]

/-- Sets the vectors to the vertical axis and ends with a move of the first kind. -/
def setsVertical : Program :=
  #[0x00, 0xB1, 10, 2, 0xE0]

/-- Sets the vectors to the horizontal axis and ends with a move of the last kind. -/
def setsHorizontal : Program :=
  #[0x01, 0xB1, 10, 2, 0xFF]

/-- Jumps over a word that is pushed, to a byte that is no instruction. -/
def jumpsToNone : Program :=
  #[0xB0, 5, 0x1C, 0x41, 1, 0xFF, 0xFE, 0x28]

theorem listing_texts_tell_axes :
    ∃ ps qs js : Array Instr, setsVertical.listing = .ok ps ∧ setsHorizontal.listing = .ok qs ∧
      ps.map Instr.text = #["SVTCA", "PUSHB[2] 10 2", "MIRP"] ∧
      ps.map Instr.text = qs.map Instr.text ∧ ps.map (·.offset) = qs.map (·.offset) ∧
      Listing.Alike ps.toList qs.toList ∧ setsVertical ≠ setsHorizontal ∧
      (∃ i ∈ ps, ∃ j ∈ qs, i.offset = 0 ∧ j.offset = 0 ∧ i.opcode.SharesRow j.opcode) ∧
      jumpsToNone.listing = .ok js ∧
      js.map Instr.text = #["PUSHB[1] 5", "JMPR", "NPUSHW[1] -2", "0x28"] ∧
      ∀ q qs, Program.listing q = .ok qs → js.map Instr.text = qs.map Instr.text →
        jumpsToNone = q := by
  have hp : setsVertical.listing =
      .ok #[⟨0, ⟨0x00⟩, []⟩, ⟨1, ⟨0xB1⟩, [10, 2]⟩, ⟨4, ⟨0xE0⟩, []⟩] := by
    decide +kernel
  have hq : setsHorizontal.listing =
      .ok #[⟨0, ⟨0x01⟩, []⟩, ⟨1, ⟨0xB1⟩, [10, 2]⟩, ⟨4, ⟨0xFF⟩, []⟩] := by
    decide +kernel
  have hj : jumpsToNone.listing =
      .ok #[⟨0, ⟨0xB0⟩, [5]⟩, ⟨2, ⟨0x1C⟩, []⟩, ⟨3, ⟨0x41⟩, [-2]⟩, ⟨7, ⟨0x28⟩, []⟩] := by
    decide +kernel
  obtain ⟨halike, hsame⟩ := listing_texts_tell hp hq
  obtain ⟨-, hoffsets, hbytes, -⟩ := hsame (by decide +kernel)
  refine ⟨_, _, _, hp, hq, by decide +kernel, by decide +kernel, hoffsets,
    halike.mp (by decide +kernel), by decide, ?_, hj, by decide +kernel, ?_⟩
  · obtain ⟨i, hi, j, hj, hstart, hstart', -, -, -, -, hshares⟩ :=
      (hbytes 0).resolve_left (by decide)
    exact ⟨i, hi, j, hj, hstart, hstart', hshares⟩
  · intro q qs hq htexts
    obtain ⟨-, -, -, hequal⟩ := (listing_texts_tell hj hq).2 htexts
    exact hequal (by decide +kernel)

end Program

end GlyphHint
