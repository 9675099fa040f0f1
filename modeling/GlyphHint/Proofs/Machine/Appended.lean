import GlyphHint.Proofs.Machine.Failure
import GlyphHint.Proofs.Machine.Part
set_option autoImplicit false

/-!
# Bytes behind a program

Bytes that are appended to a program come into play only after the run of the program, or where an
instruction of it misses operands or the end of an arm (`Machine.turn_append`).  So the run with
them starts as the run without them, and has the same end unless that run misses bytes or leaves the
program behind its end (`Interpreter.appended_bytes_keep_the_past`).
-/

namespace GlyphHint

theorem Fault.movedBy_zero (fault : Fault) : fault.movedBy 0 = fault := by
  cases fault <;> rfl

theorem Moment.movedBy_zero : Moment.movedBy 0 = id :=
  rfl

namespace Machine

variable {p : Program} {limit : Nat} {s t : State}

theorem State.movedBy_zero (s : State) : s.movedBy 0 = s := by
  obtain ⟨pc, steps, stack⟩ := s
  simp only [movedBy, Int.natCast_zero, Int.add_zero, Nat.add_zero]

theorem Turn.movedBy_zero (turn : Turn) : turn.movedBy 0 = turn := by
  cases turn with
  | finished => rfl
  | failed fault stack => rw [movedBy, fault.movedBy_zero]
  | performed next => rw [movedBy, next.movedBy_zero]

/-- A turn in the program does the same when bytes are appended, unless it misses bytes. -/
theorem turn_append (q : Program) (limit : Nat) (hinside : s.Inside p) :
    turn (p ++ q) limit s = turn p limit s ∨
      ∃ cause opcode, cause.missesBytes = true ∧
        turn p limit s = .failed (.stopped cause s.pc.toNat opcode) s.stack := by
  have hpart := turn_part (Program.partOf_append p q) limit hinside
  rw [s.movedBy_zero, Turn.movedBy_zero] at hpart
  exact hpart.imp_right And.right

/-- What a run comes to, it comes to when bytes are appended. -/
theorem Reaches.append (hreached : Reaches p limit s t) (q : Program) :
    Reaches (p ++ q) limit s t := by
  have hmoved := hreached.movedBy (Program.partOf_append p q)
  rw [s.movedBy_zero, t.movedBy_zero] at hmoved
  exact hmoved

/-- What is recorded of a run is recorded first when bytes are appended. -/
theorem record_append (p q : Program) (limit : Nat) (s : State) :
    (record p limit s).seen <+: (record (p ++ q) limit s).seen := by
  have hmoved := record_part (Program.partOf_append p q) limit s
  rw [s.movedBy_zero, Moment.movedBy_zero, List.map_id] at hmoved
  exact hmoved

end Machine

namespace Interpreter

open Machine

variable {it : Interpreter} {p : Program} {s t : State}

/-- The run of a program leaves the program, in this state. -/
structure LeavesAt (it : Interpreter) (program : Program) (s : State) : Prop where
  reached : Reaches program it.limits.maxSteps (start it.stack) s
  outside : ¬ s.Inside program

/-- It leaves the program in one state only. -/
theorem LeavesAt.unique (hs : it.LeavesAt p s) (ht : it.LeavesAt p t) : s = t := by
  have hlast : ∀ u, it.LeavesAt p u → ∀ next, turn p it.limits.maxSteps u ≠ .performed next :=
    fun u hu _ hturn => hu.outside (inside_of_turn_performed hturn)
  rcases hs.reached.total ht.reached with hst | hts
  · exact (hst.eq_of_last (hlast s hs)).symm
  · exact hts.eq_of_last (hlast t ht)

theorem LeavesAt.run_eq (h : it.LeavesAt p s) (hshort : p.size ≤ it.limits.maxProgramLength) :
    it.run p = (⟨.ok s.steps, s.stack.toList⟩, ⟨it.limits, s.stack⟩) :=
  it.run_of_ends p hshort (.finished h.reached (turn_of_outside h.outside))

/-- A run that leaves the program at the front has done with it. -/
theorem LeavesAt.append_of_neg (h : it.LeavesAt p s) (hpc : s.pc < 0) (q : Program) :
    it.LeavesAt (p ++ q) s where
  reached := h.reached.append q
  outside := fun hinside => absurd hinside.1 (Int.not_le.mpr hpc)

theorem StoppedAt.run_eq {fault : Fault} (h : it.StoppedAt p fault s)
    (hshort : p.size ≤ it.limits.maxProgramLength) :
    it.run p = (⟨.error fault, s.stack.toList⟩, ⟨it.limits, s.stack⟩) :=
  it.run_of_ends p hshort (.failed h.reached h.failed)

/-- A run that fails for another reason than missing bytes fails alike when bytes are appended. -/
theorem StoppedAt.append {fault : Fault} (h : it.StoppedAt p fault s) (q : Program)
    (hother : ∀ cause pc opcode, cause.missesBytes = true → fault ≠ .stopped cause pc opcode) :
    it.StoppedAt (p ++ q) fault s where
  reached := h.reached.append q
  inside := by
    have hinside := h.inside.movedBy (Program.partOf_append p q)
    rw [s.movedBy_zero] at hinside
    exact hinside
  failed := by
    rcases turn_append q it.limits.maxSteps h.inside with hturn | ⟨cause, opcode, hcause, hturn⟩
    · exact hturn.trans h.failed
    · cases h.failed.symm.trans hturn
      exact absurd rfl (hother cause _ opcode hcause)

/-- Appended bytes do not change what has happened before they are reached.  The instructions of the
run without them come first in the run with them.  A run that fails, unless it misses operands or
the end of an arm, or that leaves the program at the front, stays as it is.  A run that leaves the
program at the other end comes to the same state with them. -/
theorem appended_bytes_keep_the_past (it : Interpreter) (p q : Program)
    (hlength : p.size + q.size ≤ it.limits.maxProgramLength) :
    it.stepEvents p <+: it.stepEvents (p ++ q) ∧
      (∀ fault, (it.run p).1.result = .error fault →
        (∀ pc opcode, fault ≠ .stopped .insufficientData pc opcode ∧
          fault ≠ .stopped .unbalanced pc opcode) →
        it.run (p ++ q) = it.run p) ∧
      ∀ steps, (it.run p).1.result = .ok steps →
        ∃ s, it.LeavesAt p s ∧ s.steps = steps ∧ s.stack.toList = (it.run p).1.stack ∧
          (s.pc < 0 → it.run (p ++ q) = it.run p) ∧
          (0 ≤ s.pc → p.size ≤ s.pc ∧
            Reaches (p ++ q) it.limits.maxSteps (start it.stack) s) := by
  have hshort : p.size ≤ it.limits.maxProgramLength := by omega
  have hshort' : (p ++ q).size ≤ it.limits.maxProgramLength := by
    rw [Array.size_append]
    exact hlength
  refine ⟨?_, ?_, ?_⟩
  · rw [it.stepEvents_eq_record, it.stepEvents_eq_record, it.record_of_short p hshort,
      it.record_of_short (p ++ q) hshort']
    exact (record_append p q it.limits.maxSteps (start it.stack)).map _
  · intro fault hfault hother
    obtain ⟨s, hstopped, -⟩ := exists_stoppedAt hshort hfault
    have hother' : ∀ cause pc opcode, cause.missesBytes = true →
        fault ≠ .stopped cause pc opcode := by
      intro cause pc opcode hcause
      cases cause with
      | insufficientData => exact (hother pc opcode).1
      | unbalanced => exact (hother pc opcode).2
      | _ => cases hcause
    rw [hstopped.run_eq hshort, (hstopped.append q hother').run_eq hshort']
  · intro steps hok
    obtain ⟨-, s, hreached, hlast, hsteps⟩ := it.exists_finished p hok
    have hleaves : it.LeavesAt p s := ⟨hreached, turn_finished hlast⟩
    have hrun := hleaves.run_eq hshort
    refine ⟨s, hleaves, hsteps, ?_, ?_, ?_⟩
    · rw [hrun]
    · intro hpc
      rw [hrun, (hleaves.append_of_neg hpc q).run_eq hshort']
    · intro hpc
      refine ⟨?_, hreached.append q⟩
      have houtside : ¬ s.pc.toNat < p.size := fun hsize => hleaves.outside ⟨hpc, hsize⟩
      omega

/-- Pushes two values. -/
def pushesTwice : Program :=
  #[0xB0, 9, 0xB0, 8]

/-- Jumps to before its start. -/
def jumpsOffTheFront : Program :=
  #[0xB8, 0xFF, 0xF0, 0x1C]

/-- With DUP behind them, an overflow and a jump off the front stay as they are.  A push that fits
goes on to the DUP. -/
theorem appended_bytes_keep_the_past_dup :
    let it := Interpreter.new ⟨5, 1, 9⟩
    let dup : Program := #[0x20]
    pushesTwice.size + dup.size ≤ it.limits.maxProgramLength ∧
      (it.run pushesTwice).1.result = .error (.stopped .stackOverflow 2 ⟨0xB0⟩) ∧
      it.run (pushesTwice ++ dup) = it.run pushesTwice ∧
      (it.run jumpsOffTheFront).1.result = .ok 2 ∧
      it.run (jumpsOffTheFront ++ dup) = it.run jumpsOffTheFront ∧
      ∃ s, it.LeavesAt #[0xB0, 9] s ∧ s.steps = 1 ∧ 2 ≤ s.pc ∧
        Reaches (#[0xB0, 9] ++ dup) it.limits.maxSteps (start it.stack) s := by
  intro it dup
  have hlength : pushesTwice.size + dup.size ≤ it.limits.maxProgramLength := Nat.le_refl 5
  have hoverflow : (it.run pushesTwice).1.result = .error (.stopped .stackOverflow 2 ⟨0xB0⟩) := rfl
  have hfront : (it.run jumpsOffTheFront).1.result = .ok 2 := rfl
  obtain ⟨-, hfailed, -⟩ := it.appended_bytes_keep_the_past pushesTwice dup hlength
  obtain ⟨-, -, hleft⟩ := it.appended_bytes_keep_the_past jumpsOffTheFront dup hlength
  obtain ⟨-, -, hbehind⟩ := it.appended_bytes_keep_the_past #[0xB0, 9] dup (by decide)
  have hkept := hfailed _ hoverflow fun pc opcode => ⟨by simp, by simp⟩
  obtain ⟨s, hs, -, -, hneg, -⟩ := hleft 2 hfront
  obtain ⟨u, hu, hbefore⟩ : ∃ u, it.LeavesAt jumpsOffTheFront u ∧ u.pc < 0 :=
    ⟨_, ⟨(Reaches.single rfl).trans (.single rfl), by decide⟩, by decide⟩
  obtain ⟨t, ht, hsteps, -, -, hnonneg⟩ := hbehind 1 rfl
  obtain ⟨v, hv, hafter⟩ : ∃ v, it.LeavesAt #[0xB0, 9] v ∧ 0 ≤ v.pc :=
    ⟨_, ⟨Reaches.single rfl, by decide⟩, by decide⟩
  rw [hs.unique hu] at hneg
  rw [ht.unique hv] at hsteps hnonneg
  obtain ⟨hpc, hreached⟩ := hnonneg hafter
  exact ⟨hlength, hoverflow, hkept, hfront, hneg hbefore, v, hv, hsteps, hpc, hreached⟩

end Interpreter

end GlyphHint
