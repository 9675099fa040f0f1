import GlyphHint.Command.Execute
import GlyphHint.Proofs.Text.HexGrammar
set_option autoImplicit false

/-!
# Programs given as hexadecimal text

Reading a program from text on the command line takes nothing from the surroundings, and its outcome
is decided by the cleaned bytes of the text (`hex_program_grammar`).
-/

namespace GlyphHint.Command

open Hex

/-- A hexadecimal text is accepted exactly by its grammar.  With the blanks of the text and one
leading `0x` dropped, a program is read if the bytes that are left pair up and are digits, and it is
the one of which they are the digits; so every spelling of a program is read as that program.
Otherwise the length is reported if it is odd, and else the first byte that is no digit with its
place.  Texts that differ in blanks only have the same outcome. -/
theorem hex_program_grammar {m : Type → Type} [Monad m] (around : Surroundings m) (i : Invocation)
    (text : String) (h : i.source = .hexText text) :
    ∃ r : Except Hex.Fault Program, readProgram around i = pure (r.mapError .hexRefused) ∧
      ((∃ program, r = .ok program) ↔
        (cleaned text).length % 2 = 0 ∧ ∀ b ∈ cleaned text, IsDigit b) ∧
      (∀ program, r = .ok program ↔ HasHalves (cleaned text) program.toList) ∧
      (∀ program, Spells text program → r = .ok program) ∧
      (r = .error .oddLength ↔ (cleaned text).length % 2 = 1) ∧
      (∀ b k, r = .error (.badDigit b k) ↔
        (cleaned text).length % 2 = 0 ∧ FirstOffender (cleaned text) b k) ∧
      ∀ (j : Invocation) (other : String), j.source = .hexText other →
        other.toList.filter (!isBlank ·) = text.toList.filter (!isBlank ·) →
        readProgram around j = pure (r.mapError .hexRefused) := by
  have hread : ∀ (j : Invocation) (other : String), j.source = .hexText other →
      readProgram around j = pure ((decode other).mapError .hexRefused) := by
    intro j other hsource
    unfold readProgram
    rw [hsource]
  refine ⟨decode text, hread i text h, exists_decode_iff, fun _ => decode_eq_ok_iff,
    fun _ => decode_of_spells, decode_eq_oddLength_iff, fun _ _ => decode_eq_badDigit_iff, ?_⟩
  intro j other hsource hvisible
  rw [hread j other hsource, decode_of_same_visible hvisible]

/-- An empty working directory. -/
def nowhere : Surroundings Id :=
  (Directory.mk []).surroundings #[] fun _ => none

/-- A run of a program given as text. -/
def givenAs (text : String) : Invocation :=
  ⟨.run, .hexText text, false, 0, none, {}⟩

/-- Blanks inside of the mark and of a digit pair are dropped.  A second mark is not dropped: behind
it a character of two bytes makes the length even, and the `x` is reported; one digit makes it odd,
and that is reported. -/
theorem hex_program_grammar_secondMark :
    readProgram nowhere (givenAs " 0\tx B 0 0\n5") = pure (.ok #[0xB0, 5]) ∧
    readProgram nowhere (givenAs "0x 0x é") = pure (.error (.hexRefused (.badDigit 0x78 1))) ∧
    readProgram nowhere (givenAs "0x 0x 1") = pure (.error (.hexRefused .oddLength)) := by
  obtain ⟨r, hread, -, -, hspells, -⟩ :=
    hex_program_grammar nowhere (givenAs " 0\tx B 0 0\n5") _ rfl
  obtain ⟨r', hread', -, -, -, -, hbad, -⟩ := hex_program_grammar nowhere (givenAs "0x 0x é") _ rfl
  obtain ⟨r'', hread'', -, -, -, hodd, -⟩ := hex_program_grammar nowhere (givenAs "0x 0x 1") _ rfl
  have hspelled : Spells " 0\tx B 0 0\n5" #[0xB0, 5] := by
    refine ⟨['B', '0', '0', '5'], ?_, Or.inr ?_⟩ <;> decide +kernel
  have hoffender : FirstOffender (cleaned "0x 0x é") 0x78 1 :=
    ⟨by decide, [0x30], [0xC3, 0xA9], by decide +kernel, rfl, by decide +kernel⟩
  refine ⟨?_, ?_, ?_⟩
  · rw [hread, hspells _ hspelled]
    rfl
  · rw [hread', (hbad 0x78 1).mpr ⟨by decide +kernel, hoffender⟩]
    rfl
  · rw [hread'', hodd.mpr (by decide +kernel)]
    rfl

end GlyphHint.Command
