import GlyphHint.Proofs.Program.Written
set_option autoImplicit false

/-!
# Instructions in a window of a program

A part of a program that is cut out is read as it is in place.  The bytes held at an offset are
those of the window that starts there (`Program.holds_iff_extract`), an instruction whose bytes are
held ends behind them (`Instr.WellFormed.behind?`), and whatever ends in the program is held there
in its written form (`Program.exists_instr_of_behind?`).
-/

namespace GlyphHint

namespace Program

variable {program : Program} {pc q : Nat} {b : UInt8}

/-- A program holds the bytes that it goes on with. -/
theorem holds_iff_isPrefix {bytes : List UInt8} :
    program.Holds pc bytes ↔ bytes <+: program.toList.drop pc := by
  induction bytes generalizing pc with
  | nil => simp
  | cons b bytes ih =>
    rw [holds_cons, ih]
    constructor
    · rintro ⟨hbyte, hbytes⟩
      rw [drop_of_getElem? hbyte]
      exact List.cons_prefix_cons.mpr ⟨rfl, hbytes⟩
    · intro h
      have hinside : pc < program.size := by
        apply Nat.lt_of_not_le
        intro houtside
        rw [drop_of_outside houtside, List.prefix_nil] at h
        cases h
      rw [drop_of_getElem? (Array.getElem?_eq_getElem hinside), List.cons_prefix_cons] at h
      exact ⟨by rw [Array.getElem?_eq_getElem hinside, h.1], h.2⟩

theorem toList_extract (program : Program) (pc n : Nat) :
    (program.extract pc (pc + n)).toList = (program.toList.drop pc).take n := by
  rw [Array.toList_extract, List.extract_eq_take_drop, Nat.add_sub_cancel_left]

theorem toList_drop (program : Program) (pc : Nat) :
    (program.drop pc).toList = program.toList.drop pc := by
  rw [Array.drop_eq_extract, Array.toList_extract, List.extract_eq_take_drop]
  exact List.take_of_length_le (by simp)

/-- A program holds the bytes of the window that starts at the offset. -/
theorem holds_iff_extract {bytes : List UInt8} :
    program.Holds pc bytes ↔ (program.extract pc (pc + bytes.length)).toList = bytes := by
  rw [holds_iff_isPrefix, List.prefix_iff_eq_take, toList_extract, eq_comm]

end Program

namespace Instr

/-- An instruction in place ends behind the bytes that write it. -/
theorem WellFormed.behind? {program : Program} {pc : Nat} {i : Instr} (h : i.WellFormed)
    (hholds : program.Holds pc i.written) :
    program.behind? pc i.opcode = some (pc + i.written.length) := by
  rw [i.written_eq_cons] at hholds
  obtain ⟨rest, hrest⟩ := Program.holds_iff_isPrefix.mp hholds.2
  have hplace := Listing.takeOperands_place hholds.1
  rw [← hrest, h.takeOperands rest] at hplace
  have hsize : (Instr.mk pc i.opcode i.immediates).size = i.size := rfl
  rw [length_written, ← hsize]
  exact hplace.1

end Instr

namespace Program

variable {program : Program} {pc q : Nat} {b : UInt8}

/-- An instruction that ends in the program has values, and the program holds the bytes that write
it. -/
theorem exists_instr_of_behind? (hbyte : program[pc]? = some b)
    (hbehind : program.behind? pc ⟨b⟩ = some q) (offset : Nat) :
    ∃ vs, (Instr.mk offset ⟨b⟩ vs).WellFormed ∧
      program.Holds pc (Instr.mk offset ⟨b⟩ vs).written ∧
      q = pc + (Instr.mk offset ⟨b⟩ vs).written.length := by
  have hplace := Listing.takeOperands_place hbyte
  cases htaken : Listing.takeOperands ⟨b⟩ (program.toList.drop (pc + 1)) with
  | none =>
    rw [htaken, hbehind] at hplace
    cases hplace
  | some taken =>
    obtain ⟨vs, tail⟩ := taken
    obtain ⟨hwell, hbytes⟩ := Instr.written_of_takeOperands htaken offset
    have hholds : program.Holds pc (Instr.mk offset ⟨b⟩ vs).written := by
      rw [Instr.written_eq_cons, holds_cons, holds_iff_isPrefix]
      exact ⟨hbyte, tail, hbytes.symm⟩
    refine ⟨vs, hwell, hholds, ?_⟩
    exact Option.some.inj (hbehind.symm.trans (hwell.behind? hholds))

end Program

end GlyphHint
