import GlyphHint.Proofs.Branch.Bracket
set_option autoImplicit false

/-!
# Both arms of a conditional end at the same place

An IF that leaves its first arm out looks for the ELSE or EIF that ends this arm; an ELSE that ends
a first arm looks for the EIF that ends the conditional.  The two scans start at different offsets
and stop at different marks.  They meet because a scan that passes over ELSEs does what a scan that
stops at them does, and then goes on from where that one has stopped (`Branch.scan_eq_resumed`).
No part of this needs the program to be well formed: with several ELSEs at one nesting, with
operands that look like conditionals or with no end at all, either all scans of a conditional find
their ends or those for its EIF fail together (`Branch.arms_rejoin`).
-/

namespace GlyphHint

namespace Branch

variable {program : Program} {pc e : Nat}

/-- Whatever ends an arm that may not end at an ELSE ends one that may. -/
theorem Marks.mono {b : UInt8} (h : Marks false b) : Marks true b := by
  rcases h with hend | ⟨hstop, -⟩
  · exact Or.inl hend
  · cases hstop

/-- Where two scans from one byte on agree behind the instruction there, they agree at the byte. -/
theorem scan_eq_resumed_of_behind {b : UInt8} (hbyte : program[pc]? = some b) (nesting : Nat)
    (hbehind : ∀ q m, program.behind? pc ⟨b⟩ = some q →
      scan program false q m = (scan program true q m).bind fun e => scan program false e 0) :
    scan program false pc nesting =
      (scan program true pc nesting).bind fun e => scan program false e 0 := by
  rw [@scan_eq_stride program true pc nesting b hbyte]
  by_cases hended : nesting = 0 ∧ Marks true b
  · rw [if_pos hended, Option.bind_some, hended.1]
  · -- Neither scan stops here, and both go on behind the instruction at the same nesting.
    have hpassed : ¬ (nesting = 0 ∧ Marks false b) := fun h => hended ⟨h.1, h.2.mono⟩
    rw [if_neg hended, scan_eq_stride hbyte, if_neg hpassed]
    cases hnext : program.behind? pc ⟨b⟩ with
    | none => rfl
    | some q => exact hbehind q _ hnext

/-- The scan for an EIF goes on from where the scan for an EIF or ELSE has stopped, and it finds
nothing where that one does not. -/
theorem scan_eq_resumed (program : Program) (pc nesting : Nat) :
    scan program false pc nesting =
      (scan program true pc nesting).bind fun e => scan program false e 0 := by
  induction pc using Program.reading_induction program generalizing nesting with
  | outside pc houtside => rw [scan_of_outside houtside, scan_of_outside houtside, Option.bind_none]
  | cut pc b hbyte hcut =>
    apply scan_eq_resumed_of_behind hbyte
    intro q m hnext
    cases hcut.symm.trans hnext
  | behind pc b q hbyte hbehind ih =>
    apply scan_eq_resumed_of_behind hbyte
    intro q' m hnext
    cases hbehind.symm.trans hnext
    exact ih m

/-- At an EIF the scan for an EIF has come to its end. -/
theorem scan_at_endIf (h : program[e]? = some 0x59) : scan program false e 0 = some e := by
  rw [scan_eq_stride h, if_pos ⟨rfl, Or.inl rfl⟩]

/-- At an ELSE the scan for an EIF is the one that this ELSE starts. -/
theorem scan_at_elseArm (h : program[e]? = some 0x1B) :
    scan program false e 0 = matching? program e false := by
  have hop : (Opcode.mk 0x1B).op? = some .elseArm := (Opcode.op?_eq_some_iff rfl).mpr rfl
  rw [scan_elseArm h hop]
  rfl

/-- An arm that may end at an ELSE ends at an ELSE or an EIF. -/
theorem mark_of_matching? {start : Nat} (h : matching? program start true = some e) :
    program[e]? = some 0x59 ∨ program[e]? = some 0x1B := by
  obtain ⟨b, hbyte, rfl | ⟨-, rfl⟩⟩ := (endsArm_of_matching? h).mark
  · exact Or.inl hbyte
  · exact Or.inr hbyte

/-- Both arms of a conditional end at the same place, in any program.  Where the first arm ends at
an EIF, this is the end of the whole conditional.  Where it ends at an ELSE, the conditional ends
where the arm of this ELSE ends, and if that arm has no end, neither has the conditional; each is
then reported at the offset where it opens.  Where the first arm has no end, neither has the
conditional. -/
theorem arms_rejoin (program : Program) (start : Nat) :
    (∀ e, matching? program start true = some e →
      (program[e]? = some 0x59 ∨ program[e]? = some 0x1B) ∧
      (program[e]? = some 0x59 → matching? program start false = some e) ∧
      (program[e]? = some 0x1B →
        (∃ k, matching? program start false = some k ∧ matching? program e false = some k) ∨
          Endless program start false ∧ Endless program e false)) ∧
    (matching? program start true = none →
      Endless program start true ∧ Endless program start false) := by
  have hresumed : matching? program start false =
      (matching? program start true).bind fun e => scan program false e 0 :=
    scan_eq_resumed program (start + 1) 0
  constructor
  · intro e hmatch
    rw [hmatch, Option.bind_some] at hresumed
    refine ⟨mark_of_matching? hmatch, ?_, ?_⟩
    · intro hend
      rw [hresumed, scan_at_endIf hend]
    · intro helse
      rw [scan_at_elseArm helse] at hresumed
      cases harm : matching? program e false with
      | some k => exact Or.inl ⟨k, hresumed.trans harm, rfl⟩
      | none =>
        exact Or.inr ⟨endless_of_unmatched (hresumed.trans harm), endless_of_unmatched harm⟩
  · intro hnone
    rw [hnone, Option.bind_none] at hresumed
    exact ⟨endless_of_unmatched hnone, endless_of_unmatched hresumed⟩

/-- A conditional with two ELSEs, between which another conditional stands; the byte of an ELSE is
pushed in its first arm.  Behind it comes an IF whose second arm is cut short. -/
def twoElses : Program :=
  #[0x58, 0xB0, 0x1B, 0x1B, 0x58, 0x59, 0x1B, 0x59, 0x58, 0x1B, 0x40]

theorem arms_rejoin_twoElses :
    (matching? twoElses 0 true = some 3 ∧ twoElses[3]? = some 0x1B ∧
      matching? twoElses 0 false = some 7 ∧ matching? twoElses 3 false = some 7) ∧
    (matching? twoElses 4 true = some 5 ∧ twoElses[5]? = some 0x59 ∧
      matching? twoElses 4 false = some 5) ∧
    (matching? twoElses 8 true = some 9 ∧ twoElses[9]? = some 0x1B ∧
      Endless twoElses 8 false ∧ Endless twoElses 9 false) ∧
    matching? twoElses 9 true = none ∧ Endless twoElses 9 true ∧ Endless twoElses 9 false := by
  have hboth : matching? twoElses 0 true = some 3 := by decide +kernel
  have hsecond : matching? twoElses 3 false = some 7 := by decide +kernel
  have hone : matching? twoElses 4 true = some 5 := by decide +kernel
  have hcut : matching? twoElses 8 true = some 9 := by decide +kernel
  have hshort : matching? twoElses 9 false = none := by decide +kernel
  have hnone : matching? twoElses 9 true = none := by decide +kernel
  refine ⟨⟨hboth, rfl, ?_, hsecond⟩, ⟨hone, rfl, ?_⟩, ⟨hcut, rfl, ?_⟩, hnone, ?_⟩
  · rcases ((arms_rejoin twoElses 0).1 3 hboth).2.2 rfl with ⟨k, hwhole, hk⟩ | ⟨-, hendless⟩
    · cases hsecond.symm.trans hk
      exact hwhole
    · cases hsecond.symm.trans hendless.unmatched
  · exact ((arms_rejoin twoElses 4).1 5 hone).2.1 rfl
  · rcases ((arms_rejoin twoElses 8).1 9 hcut).2.2 rfl with ⟨k, -, hk⟩ | hendless
    · cases hshort.symm.trans hk
    · exact hendless
  · exact (arms_rejoin twoElses 9).2 hnone

end Branch

end GlyphHint
