import GlyphHint.Proofs.Machine.Jump
import GlyphHint.Proofs.Machine.Part
set_option autoImplicit false

/-!
# Moved programs

Nothing in a program says where it stands: operands and the ends of arms are looked for from the
instruction on, and jumps are relative to it.  So a program at the end of another one does there
what it does on its own (`Machine.turn_at_end`), except that a jump to before its start lands in the
other one.  Behind bytes that do nothing it runs to the same end, as far on as the bytes move it
(`Interpreter.programs_are_position_independent`).
-/

namespace GlyphHint

/-- The program that does nothing, in `k` instructions. -/
def debugs (k : Nat) : Program :=
  Array.replicate k 0x4F

/-- The result of a run that ends `k` bytes and `k` steps further on, under limits greater by
`k`. -/
def resultMovedBy (k : Nat) : Except Fault Nat → Except Fault Nat
  | .ok steps => .ok (steps + k)
  | .error fault => .error (fault.movedBy k)

namespace Machine

variable {p program : Program} {k limit : Nat} {s t : State}

/-- A turn in a program that ends with the part is the turn in the part, moved, unless the program
counter is before its start. -/
theorem turn_at_end (h : p.PartOf program k) (hend : k + p.size = program.size) (limit : Nat)
    (hpc : 0 ≤ s.pc) :
    turn program (limit + k) (s.movedBy k) = (turn p limit s).movedBy k := by
  by_cases hinside : s.Inside p
  · rcases turn_part h limit hinside with hturn | ⟨hmore, -⟩
    · exact hturn
    · omega
  · have houtside : ¬ (s.movedBy k).Inside program := by
      rintro ⟨-, hsize⟩
      rw [State.pc_movedBy] at hsize
      exact hinside ⟨hpc, by omega⟩
    rw [turn_of_outside hinside, turn_of_outside houtside]
    rfl

/-- A run that stays behind the start of the part has the same end in a program that ends with the
part, moved. -/
theorem Ends.movedBy {r : Except Fault Nat} {stack : Stack} (hends : Ends p limit s r stack)
    (h : p.PartOf program k) (hend : k + p.size = program.size)
    (hnonneg : ∀ t, Reaches p limit s t → 0 ≤ t.pc) :
    Ends program (limit + k) (s.movedBy k) (resultMovedBy k r) stack := by
  cases hends with
  | @finished t reached last =>
    have hlast := turn_at_end h hend limit (hnonneg t reached)
    rw [last] at hlast
    exact .finished (reached.movedBy h) hlast
  | @failed t fault stack reached last =>
    have hlast := turn_at_end h hend limit (hnonneg t reached)
    rw [last] at hlast
    exact .failed (reached.movedBy h) hlast

/-- DEBUG does nothing. -/
theorem turn_debug (hpc : 0 ≤ s.pc) (hbyte : program[s.pc.toNat]? = some 0x4F)
    (hlimit : s.steps + 1 < limit) : turn program limit s = .performed (s.movedBy 1) := by
  have hop : (Opcode.mk 0x4F).op? = some .debug := Opcode.op?_of_byte? rfl
  have hperform : Action.perform program s.pc.toNat .debug s.stack =
      .ok (s.pc.toNat + 1) s.stack := rfl
  rw [turn_of_op hpc hbyte hlimit hop (Nat.zero_le _), hperform, Int.toNat_of_nonneg hpc]
  rfl

/-- Any number of them is performed one after another. -/
theorem reaches_behind_debugs (stack : Stack) (hdebugs : ∀ i < k, program[i]? = some 0x4F)
    (hlimit : k < limit) : Reaches program limit (start stack) ((start stack).movedBy k) := by
  induction k with
  | zero => exact .refl _
  | succ k ih =>
    have hearlier := ih (fun i hi => hdebugs i (Nat.lt_succ_of_lt hi)) (Nat.lt_of_succ_lt hlimit)
    have hpc : ((start stack).movedBy k).pc = k := Int.zero_add _
    have hsteps : ((start stack).movedBy k).steps = k := Nat.zero_add _
    have hbyte : program[((start stack).movedBy k).pc.toNat]? = some 0x4F := by
      rw [hpc, Int.toNat_natCast]
      exact hdebugs k (Nat.lt_succ_self k)
    have hlimit' : ((start stack).movedBy k).steps + 1 < limit := by omega
    exact hearlier.trans (.single (turn_debug (by omega) hbyte hlimit'))

end Machine

namespace Interpreter

open Machine

variable {it : Interpreter} {program : Program}

/-- A run that takes no jump to before its start stays behind it. -/
theorem nonneg_of_reaches (hshort : program.size ≤ it.limits.maxProgramLength)
    (hjumps : ∀ s offset, it.TakesJump program s offset → 0 ≤ s.pc + offset.toInt) {t : State}
    (h : Reaches program it.limits.maxSteps (start it.stack) t) : 0 ≤ t.pc := by
  rcases Relation.ReflTransGen.cases_tail h with rfl | ⟨s, hreached, hturn⟩
  · exact Int.le_refl 0
  · have hgoes := turn_goes hturn
    cases hjump : s.jump? program with
    | none =>
      rw [hjump] at hgoes
      have hpc := (inside_of_turn_performed hturn).1
      simp only at hgoes
      omega
    | some offset =>
      rw [hjump] at hgoes
      rw [hgoes]
      exact hjumps s offset ⟨hshort, hreached, ⟨t, hturn⟩, hjump⟩

/-- Programs are position independent.  If no jump that the run of a program takes goes to before
its start, then behind `k` instructions that do nothing, with as many more steps to take and with
room for the bytes, the program leaves the same stack and ends the same: it takes `k` more steps, or
it fails with the same cause at the same opcode `k` bytes further on. -/
theorem programs_are_position_independent (it : Interpreter) (program : Program) (k length : Nat)
    (hlimit : 1 ≤ it.limits.maxSteps) (hshort : program.size ≤ it.limits.maxProgramLength)
    (hlong : program.size + k ≤ length)
    (hjumps : ∀ s offset, it.TakesJump program s offset → 0 ≤ s.pc + offset.toInt) :
    let wider : Limits := { it.limits with
      maxProgramLength := length
      maxSteps := it.limits.maxSteps + k }
    let moved := (Interpreter.run ⟨wider, it.stack⟩ (debugs k ++ program)).1
    moved.stack = (it.run program).1.stack ∧
      (∀ steps, (it.run program).1.result = .ok steps → moved.result = .ok (steps + k)) ∧
      ∀ fault, (it.run program).1.result = .error fault →
        moved.result = .error (fault.movedBy k) := by
  intro wider moved
  have hsize : (debugs k).size = k := Array.size_replicate
  have hpart : program.PartOf (debugs k ++ program) k := by
    have hpart := Program.partOf_append_right (debugs k) program
    rw [hsize] at hpart
    exact hpart
  have hend : k + program.size = (debugs k ++ program).size := by rw [Array.size_append, hsize]
  have hdebugs : ∀ i < k, (debugs k ++ program)[i]? = some 0x4F := by
    intro i hi
    rw [Array.getElem?_append_left (Nat.lt_of_lt_of_eq hi hsize.symm), debugs,
      Array.getElem?_replicate, if_pos hi]
  have hstart : Reaches (debugs k ++ program) (it.limits.maxSteps + k) (start it.stack)
      ((start it.stack).movedBy k) := reaches_behind_debugs it.stack hdebugs (by omega)
  have hends := (it.ends_run program hshort).movedBy hpart hend
    fun t ht => nonneg_of_reaches hshort hjumps ht
  have hrun := Interpreter.run_of_ends ⟨wider, it.stack⟩ (debugs k ++ program)
    (show (debugs k ++ program).size ≤ length by omega) (hends.of_reaches hstart)
  have hresult : moved.result = resultMovedBy k (it.run program).1.result :=
    congrArg (fun ran => ran.1.result) hrun
  have hstack : moved.stack = (it.run program).2.stack.toList :=
    congrArg (fun ran => ran.1.stack) hrun
  rw [it.stack_run program]
  refine ⟨hstack, ?_, ?_⟩
  · intro steps hok
    rw [hresult, hok]
    rfl
  · intro fault hfault
    rw [hresult, hfault]
    rfl

/-- Jumps over SWAP to a DUP that finds no value. -/
def jumpsToDup : Program :=
  #[0xB0, 2, 0x1C, 0x23, 0x20]

/-- The only jump of the run goes from offset 2 to offset 4. -/
theorem takesJump_jumpsToDup {s : State} {offset : Int32}
    (h : (Interpreter.new ⟨5, 4, 9⟩).TakesJump jumpsToDup s offset) : s.pc = 2 ∧ offset = 2 := by
  have hjumps := h.jumps
  rcases h.reached.eq_or_of_performed rfl with rfl | hreached
  · cases hjumps
  rcases hreached.eq_or_of_performed rfl with rfl | hreached
  · cases hjumps
    exact ⟨rfl, rfl⟩
  rcases hreached.eq_of_last nofun with rfl
  cases hjumps

theorem programs_are_position_independent_jumpsToDup :
    let it := Interpreter.new ⟨5, 4, 9⟩
    let wider : Limits := { it.limits with
      maxProgramLength := 8
      maxSteps := it.limits.maxSteps + 3 }
    let moved := (Interpreter.run ⟨wider, it.stack⟩ (debugs 3 ++ jumpsToDup)).1
    1 ≤ it.limits.maxSteps ∧ jumpsToDup.size ≤ it.limits.maxProgramLength ∧
      jumpsToDup.size + 3 ≤ 8 ∧
      (∀ s offset, it.TakesJump jumpsToDup s offset → 0 ≤ s.pc + offset.toInt) ∧
      (∃ s, it.TakesJump jumpsToDup s 2) ∧
      (it.run jumpsToDup).1.result = .error (.stopped .stackUnderflow 4 ⟨0x20⟩) ∧
      moved.result = .error (.stopped .stackUnderflow 7 ⟨0x20⟩) ∧ moved.stack = [] := by
  intro it wider moved
  have hlimit : 1 ≤ it.limits.maxSteps := by decide
  have hshort : jumpsToDup.size ≤ it.limits.maxProgramLength := Nat.le_refl 5
  have hlong : jumpsToDup.size + 3 ≤ 8 := Nat.le_refl 8
  have hjumps : ∀ s offset, it.TakesJump jumpsToDup s offset → 0 ≤ s.pc + offset.toInt := by
    intro s offset h
    obtain ⟨hpc, rfl⟩ := takesJump_jumpsToDup h
    rw [hpc]
    decide
  have htaken : ∃ s, it.TakesJump jumpsToDup s 2 :=
    ⟨_, hshort, Reaches.single rfl, ⟨_, rfl⟩, rfl⟩
  have hfault : (it.run jumpsToDup).1.result = .error (.stopped .stackUnderflow 4 ⟨0x20⟩) := by
    decide +kernel
  have hempty : (it.run jumpsToDup).1.stack = [] := by decide +kernel
  obtain ⟨hstack, -, hfailed⟩ :=
    it.programs_are_position_independent jumpsToDup 3 8 hlimit hshort hlong hjumps
  exact ⟨hlimit, hshort, hlong, hjumps, htaken, hfault, hfailed _ hfault, hstack.trans hempty⟩

end Interpreter

end GlyphHint
