import GlyphHint.Limits
import GlyphHint.Machine.Step
set_option autoImplicit false

/-!
# Runs

A run starts at offset 0 and performs one instruction after another until the program counter
leaves the program at either end.  Each turn first charges a step against the limit, then admits
the instruction, shows the machine to an observer, and performs the instruction.

The number of instructions that may still be performed is the recursion's fuel: with the step limit
`m` it starts at `m - 1`, so a run fails exactly when its step counter would reach `m`.
-/

namespace GlyphHint

/-- What an observer sees of an admitted instruction before it is performed. -/
structure Moment where
  pc : Nat
  mnemonic : String
  /-- the stack before the instruction -/
  stack : Stack

/-- How a run ended: with the number of steps or a fault, on which stack, and what the observer
made of it. -/
structure Ending (α : Type) where
  result : Except Fault Nat
  stack : Stack
  seen : α

namespace Machine

/-- Goes on from `pc` with `left` instructions to spare. -/
@[specialize] def loop {α : Type} (observe : α → Moment → α) (program : Program) (limit : Nat)
    (left : Nat) (pc : Int) (steps : Nat) (stack : Stack) (seen : α) : Ending α :=
  if h : 0 ≤ pc ∧ pc.toNat < program.size then
    match left with
    | 0 => ⟨.error (.tooManySteps limit), stack, seen⟩
    | left + 1 =>
      let opcode : Opcode := ⟨program[pc.toNat]⟩
      match opcode.admission stack.depth with
      | .error cause => ⟨.error (.stopped cause pc.toNat opcode), stack, seen⟩
      | .ok (mnemonic, op) =>
        let seen := observe seen ⟨pc.toNat, mnemonic, stack⟩
        match Action.perform program pc.toNat op stack with
        | .error cause stack => ⟨.error (.stopped cause pc.toNat opcode), stack, seen⟩
        | .ok next stack => loop observe program limit left next (steps + 1) stack seen
  else
    ⟨.ok steps, stack, seen⟩

/-- Runs a program on the cleared stack. -/
@[inline] def run {α : Type} (observe : α → Moment → α) (limits : Limits) (program : Program)
    (stack : Stack) (seen : α) : Ending α :=
  if limits.maxProgramLength < program.size then
    ⟨.error (.tooManyInstructions program.size limits.maxProgramLength), stack.clear, seen⟩
  else
    loop observe program limits.maxSteps (limits.maxSteps - 1) 0 0 stack.clear seen

end Machine

end GlyphHint
