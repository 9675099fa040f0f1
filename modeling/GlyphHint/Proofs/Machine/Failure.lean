import GlyphHint.Proofs.Machine.Effect
import GlyphHint.Proofs.Machine.Turn
set_option autoImplicit false

/-!
# A failing instruction changes nothing

Whatever an instruction takes off, puts on or overwrites, it does so after the last check that can
fail.  So a failed turn leaves the stack that it found (`Machine.stack_of_turn_failed`), and a
failed run leaves the stack of the state that it failed in (`Interpreter.exists_stoppedAt`).
-/

namespace GlyphHint

namespace Machine

variable {program : Program} {limit : Nat} {s t : State}

/-- A failed turn leaves the stack that it found. -/
theorem stack_of_turn_failed {fault : Fault} {stack : Stack}
    (h : turn program limit s = .failed fault stack) : stack = s.stack := by
  rcases turn_failed h with ⟨-, hcase⟩
  rcases hcase with ⟨-, -, hstack⟩ | ⟨-, b, cause, -, -, hadmission | hperform⟩
  · exact hstack
  · exact hadmission.2
  · rcases hperform with ⟨op, -, hdeep, hrun⟩
    exact (Action.effect_of_perform_error hdeep hrun).2

/-- A run keeps the capacity of its stack. -/
theorem Reaches.capacity_eq (h : Reaches program limit s t) :
    t.stack.capacity = s.stack.capacity := by
  apply h.preserves (P := fun u => u.stack.capacity = s.stack.capacity) rfl
  intro u v hturn hu
  obtain ⟨-, -, -, b, op, -, -, hdeep, hrun⟩ := turn_performed hturn
  exact (Action.effect_of_perform_ok hdeep hrun).2.trans hu

/-- The step counter of a run stays below its limit, and at 0 if the limit is 0. -/
theorem Reaches.steps_le (h : Reaches program limit s t) (hs : s.steps ≤ max limit 1 - 1) :
    t.steps ≤ max limit 1 - 1 := by
  apply h.preserves hs
  intro u v hturn _
  rcases turn_performed hturn with ⟨-, hlimit, hsteps, -⟩
  rw [hsteps]
  omega

/-- A turn that runs into the step limit has as many steps behind it as the limit leaves. -/
theorem steps_of_turn_tooManySteps {m : Nat} {stack : Stack}
    (h : turn program limit s = .failed (.tooManySteps m) stack)
    (hs : s.steps ≤ max limit 1 - 1) : m = limit ∧ s.steps = max limit 1 - 1 := by
  rcases turn_failed h with ⟨-, hcase⟩
  rcases hcase with ⟨hlimit, hfault, -⟩ | ⟨-, b, cause, -, hfault, -⟩
  · cases hfault
    exact ⟨rfl, by omega⟩
  · cases hfault

end Machine

namespace Interpreter

open Machine

/-- The run of a program comes to the state `s` in the program, and its next turn fails. -/
structure StoppedAt (it : Interpreter) (program : Program) (fault : Fault) (s : State) : Prop where
  reached : Reaches program it.limits.maxSteps (start it.stack) s
  inside : s.Inside program
  failed : turn program it.limits.maxSteps s = .failed fault s.stack

variable {it : Interpreter} {program : Program} {fault : Fault}

/-- A failed run of a program that is not too long has stopped at a state and left its stack. -/
theorem exists_stoppedAt (hshort : program.size ≤ it.limits.maxProgramLength)
    (h : (it.run program).1.result = .error fault) :
    ∃ s, it.StoppedAt program fault s ∧ (it.run program).2.stack = s.stack := by
  have hends := it.ends_run program hshort
  rw [h] at hends
  cases hends with
  | @failed s _ _ reached last =>
    have hstack := stack_of_turn_failed last
    rw [hstack] at last
    exact ⟨s, ⟨reached, (turn_failed last).1, last⟩, hstack⟩

/-- A run that stops at its step limit has performed as many instructions as the limit leaves. -/
theorem StoppedAt.steps_eq {m : Nat} {s : State} (h : it.StoppedAt program (.tooManySteps m) s) :
    m = it.limits.maxSteps ∧ s.steps = max it.limits.maxSteps 1 - 1 :=
  steps_of_turn_tooManySteps h.failed (h.reached.steps_le (Nat.zero_le _))

/-- A run that stops at a state has found its program short enough. -/
theorem StoppedAt.ne_tooManyInstructions {s : State} (h : it.StoppedAt program fault s)
    (length m : Nat) : fault ≠ .tooManyInstructions length m := by
  rcases turn_failed h.failed with ⟨-, ⟨-, rfl, -⟩ | ⟨-, b, cause, -, rfl, -⟩⟩
  · intro heq
    cases heq
  · intro heq
    cases heq

/-- A failing instruction changes nothing.  An operation that fails on a stack deep enough for it
leaves the values as they were, whatever lies above them in the buffer.  A run that fails leaves the
stack of the state that it could not go on from: none of a program that is too long, and that after
all the instructions the step limit leaves if it runs into the limit. -/
theorem failure_keeps_stack :
    (∀ (program : Program) (pc : Nat) (op : Op) (s t : Stack) (cause : Cause),
      op.pops ≤ s.depth → Action.perform program pc op s = .error cause t →
        t.toList = s.toList ∧ t.depth = s.depth) ∧
    ∀ (it : Interpreter) (program : Program) (fault : Fault),
      (it.run program).1.result = .error fault →
        (∀ length m, fault = .tooManyInstructions length m →
          (it.run program).1.stack = [] ∧ (it.run program).1.depth = 0) ∧
        ((∀ length m, fault ≠ .tooManyInstructions length m) →
          ∃ s, it.StoppedAt program fault s ∧ (it.run program).1.stack = s.stack.toList ∧
            (it.run program).1.depth = s.stack.depth ∧
            ∀ m, fault = .tooManySteps m →
              m = it.limits.maxSteps ∧ s.steps = max it.limits.maxSteps 1 - 1) := by
  constructor
  · intro program pc op s t cause hdeep hrun
    have hsame : t = s := (Action.effect_of_perform_error hdeep hrun).2
    rw [hsame]
    exact ⟨rfl, rfl⟩
  · intro it program fault hfault
    rcases Nat.lt_or_ge it.limits.maxProgramLength program.size with hlong | hshort
    · rw [it.run_of_long program hlong] at hfault ⊢
      constructor
      · intro _ _ _
        exact ⟨rfl, rfl⟩
      · intro hother
        exact absurd (Except.error.inj hfault).symm (hother _ _)
    · obtain ⟨s, hstopped, hstack⟩ := exists_stoppedAt hshort hfault
      have hvalues : (it.run program).1.stack = s.stack.toList := by
        rw [it.stack_run program, hstack]
      constructor
      · intro length m hlong
        exact absurd hlong (hstopped.ne_tooManyInstructions length m)
      · intro _
        refine ⟨s, hstopped, hvalues, ?_, ?_⟩
        · unfold Outcome.depth
          rw [hvalues, Stack.length_toList]
        · rintro m rfl
          exact hstopped.steps_eq

/-- Pushes 64 and 0 and divides. -/
def dividesByZero : Program :=
  #[0xB1, 64, 0, 0x62]

/-- The values 64 and 0 below a slot of an earlier run. -/
def zeroOnTop : Stack where
  capacity := 3
  slots := #[64, 0, 7]
  top := 2
  top_le_size := by decide
  size_le_capacity := by decide

theorem failure_keeps_stack_dividesByZero :
    (Op.divide.pops ≤ zeroOnTop.depth ∧
      ∃ t, Action.perform dividesByZero 3 .divide zeroOnTop = .error .divisionByZero t ∧
        t.toList = [64, 0] ∧ t.depth = 2) ∧
    ((Interpreter.new ⟨4, 2, 5⟩).run dividesByZero).1.result =
        .error (.stopped .divisionByZero 3 ⟨0x62⟩) ∧
      ∃ s,
        (Interpreter.new ⟨4, 2, 5⟩).StoppedAt dividesByZero
          (.stopped .divisionByZero 3 ⟨0x62⟩) s ∧
        s.stack.toList = [64, 0] := by
  have hdeep : Op.divide.pops ≤ zeroOnTop.depth := by decide
  have hresult : ((Interpreter.new ⟨4, 2, 5⟩).run dividesByZero).1.result =
      .error (.stopped .divisionByZero 3 ⟨0x62⟩) := rfl
  refine ⟨⟨hdeep, zeroOnTop, rfl, ?_⟩, hresult, ?_⟩
  · exact failure_keeps_stack.1 dividesByZero 3 .divide zeroOnTop _ .divisionByZero hdeep rfl
  · obtain ⟨-, hstopped⟩ := failure_keeps_stack.2 _ dividesByZero _ hresult
    have hinstruction : ∀ length m,
        Fault.stopped .divisionByZero 3 ⟨0x62⟩ ≠ .tooManyInstructions length m := by
      intro _ _ heq
      cases heq
    obtain ⟨s, hs, hstack, -⟩ := hstopped hinstruction
    exact ⟨s, hs, hstack.symm⟩

end Interpreter

end GlyphHint
