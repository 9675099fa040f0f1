import GlyphHint.Branch
import GlyphHint.Proofs.Program.Layout
set_option autoImplicit false

/-!
# The scan for the end of an arm, one instruction at a time

The scan goes from the start of one instruction to the start of the next, as `Program.behind?` gives
it, and looks at nothing but conditionals on its way.  There is an equation for each kind of
instruction, and one for all of them, by the conditionals that an instruction opens or closes
(`Branch.scan_eq_stride`).  A push that the program does not hold in full ends the scan without a
match.
-/

namespace GlyphHint

/-- By how much an instruction changes the nesting: IF opens a conditional and EIF closes one. -/
def Opcode.weight (o : Opcode) : Int :=
  if o.byte = 0x58 then 1 else if o.byte = 0x59 then -1 else 0

namespace Branch

/-- The byte may end an arm: an EIF, or an ELSE where the arm may end at one. -/
def Marks (stopAtElse : Bool) (b : UInt8) : Prop :=
  b = 0x59 ∨ stopAtElse = true ∧ b = 0x1B

instance (stopAtElse : Bool) (b : UInt8) : Decidable (Marks stopAtElse b) :=
  inferInstanceAs (Decidable (_ ∨ _))

variable {program : Program} {stopAtElse : Bool} {pc nesting : Nat} {b : UInt8}

theorem scan_of_outside (h : program.size ≤ pc) : scan program stopAtElse pc nesting = none := by
  rw [scan.eq_def, dif_neg (Nat.not_lt.mpr h)]

/-- An IF opens one more conditional. -/
theorem scan_ifNonzero (hbyte : program[pc]? = some b)
    (hop : (Opcode.mk b).op? = some .ifNonzero) :
    scan program stopAtElse pc nesting = scan program stopAtElse (pc + 1) (nesting + 1) := by
  obtain ⟨hsize, rfl⟩ := Array.getElem?_eq_some_iff.mp hbyte
  rw [scan.eq_def, dif_pos hsize]
  simp only [hop]

/-- An ELSE ends the scan only where it may and only for the conditional that the scan is in. -/
theorem scan_elseArm (hbyte : program[pc]? = some b) (hop : (Opcode.mk b).op? = some .elseArm) :
    scan program stopAtElse pc nesting =
      if stopAtElse && nesting == 0 then some pc
      else scan program stopAtElse (pc + 1) nesting := by
  obtain ⟨hsize, rfl⟩ := Array.getElem?_eq_some_iff.mp hbyte
  rw [scan.eq_def, dif_pos hsize]
  simp only [hop]

/-- An EIF ends the scan for the conditional that it is in. -/
theorem scan_endIf_zero (hbyte : program[pc]? = some b)
    (hop : (Opcode.mk b).op? = some .endIf) : scan program stopAtElse pc 0 = some pc := by
  obtain ⟨hsize, rfl⟩ := Array.getElem?_eq_some_iff.mp hbyte
  rw [scan.eq_def, dif_pos hsize]
  simp only [hop]

/-- An EIF closes a conditional that was opened on the way. -/
theorem scan_endIf_succ (hbyte : program[pc]? = some b)
    (hop : (Opcode.mk b).op? = some .endIf) :
    scan program stopAtElse pc (nesting + 1) = scan program stopAtElse (pc + 1) nesting := by
  obtain ⟨hsize, rfl⟩ := Array.getElem?_eq_some_iff.mp hbyte
  rw [scan.eq_def, dif_pos hsize]
  simp only [hop]

/-- A push is stepped over by its length, also out of the program, if its count is there. -/
theorem scan_push {shape : PushShape} (hbyte : program[pc]? = some b)
    (hop : (Opcode.mk b).op? = some (.push shape)) :
    scan program stopAtElse pc nesting =
      (program.pushCount? pc shape).bind fun n =>
        scan program stopAtElse (pc + shape.size n) nesting := by
  obtain ⟨hsize, rfl⟩ := Array.getElem?_eq_some_iff.mp hbyte
  rw [scan.eq_def, dif_pos hsize]
  simp only [hop]
  cases program.pushCount? pc shape <;> rfl

/-- What is no push and no part of a conditional is one byte to the scan. -/
theorem scan_single (hbyte : program[pc]? = some b)
    (hif : (Opcode.mk b).op? ≠ some .ifNonzero) (helse : (Opcode.mk b).op? ≠ some .elseArm)
    (hendif : (Opcode.mk b).op? ≠ some .endIf)
    (hpush : ∀ shape, (Opcode.mk b).op? ≠ some (.push shape)) :
    scan program stopAtElse pc nesting = scan program stopAtElse (pc + 1) nesting := by
  obtain ⟨hsize, rfl⟩ := Array.getElem?_eq_some_iff.mp hbyte
  rw [scan.eq_def, dif_pos hsize]
  split
  · exact absurd ‹_› hif
  · exact absurd ‹_› helse
  · exact absurd ‹_› hendif
  · exact absurd ‹_› (hpush _)
  · rfl

/-- Every other instruction is stepped over, and a push cut short ends the scan. -/
theorem scan_plain (hbyte : program[pc]? = some b)
    (hif : (Opcode.mk b).op? ≠ some .ifNonzero) (helse : (Opcode.mk b).op? ≠ some .elseArm)
    (hendif : (Opcode.mk b).op? ≠ some .endIf) :
    scan program stopAtElse pc nesting =
      (program.behind? pc ⟨b⟩).bind fun next => scan program stopAtElse next nesting := by
  cases hshape : (Opcode.mk b).pushShape? with
  | none =>
    have hpush : ∀ shape, (Opcode.mk b).op? ≠ some (.push shape) := by
      intro shape hop
      rw [Opcode.pushShape?_eq_some_iff.mpr hop] at hshape
      cases hshape
    rw [Program.behind?_of_no_push hshape, Option.bind_some]
    exact scan_single hbyte hif helse hendif hpush
  | some shape =>
    rw [scan_push hbyte (Opcode.pushShape?_eq_some_iff.mp hshape)]
    cases hcount : program.pushCount? pc shape with
    | none => simp only [Program.behind?, hshape, hcount, Option.bind_none]
    | some n =>
      simp only [Program.behind?, hshape, hcount, Option.bind_some]
      split
      · rfl
      · rename_i hlong
        -- The scan does step behind such a push, but only to find itself outside of the program.
        rw [scan_of_outside (by omega), Option.bind_none]

/-- The scan ends at a byte that may end the arm if no conditional is open there, and else it goes
on behind the instruction with the conditionals that are then open. -/
theorem scan_eq_stride (hbyte : program[pc]? = some b) :
    scan program stopAtElse pc nesting =
      if nesting = 0 ∧ Marks stopAtElse b then some pc
      else (program.behind? pc ⟨b⟩).bind fun q =>
        scan program stopAtElse q (nesting + (Opcode.mk b).weight).toNat := by
  have hbehind : ∀ {op : Op}, (Opcode.mk b).op? = some op → (∀ shape, op ≠ .push shape) →
      program.behind? pc ⟨b⟩ = some (pc + 1) := Program.behind?_of_op?
  by_cases hif : b = 0x58
  · subst hif
    have hop : (Opcode.mk 0x58).op? = some .ifNonzero := (Opcode.op?_eq_some_iff rfl).mpr rfl
    rw [scan_ifNonzero hbyte hop, if_neg (by simp [Marks]), hbehind hop (by simp)]
    rfl
  by_cases helse : b = 0x1B
  · subst helse
    have hop : (Opcode.mk 0x1B).op? = some .elseArm := (Opcode.op?_eq_some_iff rfl).mpr rfl
    have hends : (stopAtElse && nesting == 0) = true ↔ nesting = 0 ∧ Marks stopAtElse 0x1B := by
      simp [Marks, and_comm]
    rw [scan_elseArm hbyte hop, hbehind hop (by simp)]
    simp only [hends]
    rfl
  by_cases hend : b = 0x59
  · subst hend
    have hop : (Opcode.mk 0x59).op? = some .endIf := (Opcode.op?_eq_some_iff rfl).mpr rfl
    cases nesting with
    | zero => rw [scan_endIf_zero hbyte hop, if_pos ⟨rfl, Or.inl rfl⟩]
    | succ outer =>
      have hweight : (Opcode.mk 0x59).weight = -1 := rfl
      have houter : (((outer + 1 : Nat) : Int) + (Opcode.mk 0x59).weight).toNat = outer := by
        omega
      rw [scan_endIf_succ hbyte hop, if_neg (by simp), hbehind hop (by simp), Option.bind_some,
        houter]
  · have hweight : (nesting + (Opcode.mk b).weight).toNat = nesting := by
      simp [Opcode.weight, hif, hend]
    have hother : ∀ {op : Op} {c : UInt8}, op.byte? = some c → b ≠ c →
        (Opcode.mk b).op? ≠ some op := by
      intro op c hc hne hop
      exact hne ((Opcode.op?_eq_some_iff hc).mp hop)
    rw [scan_plain hbyte (hother rfl hif) (hother rfl helse) (hother rfl hend), hweight,
      if_neg (by simp [Marks, helse, hend])]

theorem Marks.behind? (h : Marks stopAtElse b) : program.behind? pc ⟨b⟩ = some (pc + 1) := by
  rcases h with rfl | ⟨-, rfl⟩
  · have hop : (Opcode.mk 0x59).op? = some .endIf := (Opcode.op?_eq_some_iff rfl).mpr rfl
    exact Program.behind?_of_op? hop (by simp)
  · have hop : (Opcode.mk 0x1B).op? = some .elseArm := (Opcode.op?_eq_some_iff rfl).mpr rfl
    exact Program.behind?_of_op? hop (by simp)

/-- A scan that finds an offset stands on it, or goes on behind the instruction it stands on. -/
theorem scan_stride {e : Nat} (h : scan program stopAtElse pc nesting = some e) :
    ∃ b q, program[pc]? = some b ∧ program.behind? pc ⟨b⟩ = some q ∧
      ((e = pc ∧ q = pc + 1) ∨ ∃ nesting', scan program stopAtElse q nesting' = some e) := by
  have hsize : pc < program.size := by
    apply Nat.lt_of_not_le
    intro houtside
    rw [scan_of_outside houtside] at h
    cases h
  have hbyte : program[pc]? = some program[pc] := Array.getElem?_eq_getElem hsize
  rw [scan_eq_stride hbyte] at h
  split at h
  · rename_i hended
    cases h
    exact ⟨_, pc + 1, hbyte, hended.2.behind?, Or.inl ⟨rfl, rfl⟩⟩
  · obtain ⟨q, hbehind, hscan⟩ := Option.bind_eq_some_iff.mp h
    exact ⟨_, q, hbyte, hbehind, Or.inr ⟨_, hscan⟩⟩

end Branch

end GlyphHint
