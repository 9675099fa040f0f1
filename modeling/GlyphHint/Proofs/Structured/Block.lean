import GlyphHint.Interpreter
import GlyphHint.Proofs.Program.Layout
set_option autoImplicit false

/-!
# Structured programs

A block is a sequence of plain instructions and of conditionals with one arm or two, nested to any
depth.  `Block.bytes` writes a block as a program; `Block.eval` evaluates it directly, without a
program counter to move and without a search for the ends of arms.  The evaluation follows the tree:
it takes the condition off the stack, evaluates the arm it chooses and goes on behind the
conditional.  It counts steps as the machine does, so the ELSE or EIF that ends an arm is one step,
except that nothing ends the arm that a conditional without a second arm has left out.
-/

namespace GlyphHint

/-- What the machine does with the byte at `pc` once its step is charged: admission, then the
operation. -/
def Action.execute (program : Program) (pc : Nat) (b : UInt8) : Action Int := do
  let n ← Action.depth
  match (Opcode.mk b).admission n with
  | .error cause => Action.stop cause
  | .ok (_, op) => Action.perform program pc op

namespace Structured

/-- The byte that opens a conditional. -/
def ifByte : UInt8 := 0x58

/-- The byte that ends the first of two arms. -/
def elseByte : UInt8 := 0x1B

/-- The byte that ends a conditional. -/
def endIfByte : UInt8 := 0x59

/-- The bytes of conditionals and jumps. -/
def controlBytes : List UInt8 :=
  [ifByte, elseByte, endIfByte, 0x1C, 0x78, 0x79]

/-- An instruction that is no conditional and no jump, with all its operand bytes.  The machine need
not be able to run it. -/
structure Plain where
  byte : UInt8
  operands : List UInt8
  plain : byte ∉ controlBytes
  complete : (Opcode.mk byte).Complete operands

/-- The bytes of a plain instruction. -/
def Plain.bytes (i : Plain) : List UInt8 :=
  i.byte :: i.operands

/-- A sequence of instructions and conditionals. -/
inductive Block where
  /-- nothing more -/
  | done
  /-- a plain instruction -/
  | plain (first : Plain) (rest : Block)
  /-- a conditional with one arm -/
  | ifThen (arm rest : Block)
  /-- a conditional with an arm for each case -/
  | ifElse (yes no rest : Block)

namespace Block

/-- The program text of a block. -/
def bytes : Block → List UInt8
  | .done => []
  | .plain first rest => first.bytes ++ rest.bytes
  | .ifThen arm rest => ifByte :: (arm.bytes ++ endIfByte :: rest.bytes)
  | .ifElse yes no rest =>
    ifByte :: (yes.bytes ++ elseByte :: (no.bytes ++ endIfByte :: rest.bytes))

/-- The number of bytes of a block. -/
def size (b : Block) : Nat :=
  b.bytes.length

/-- The block as a program. -/
def program (b : Block) : Program :=
  b.bytes.toArray

/-! ## Blocks in place -/

section Place

variable {p : Program} {pc : Nat} {first : Plain} {arm yes no rest : Block}

@[simp] theorem size_plain : (Block.plain first rest).size = first.bytes.length + rest.size := by
  simp only [size, bytes, List.length_append]

@[simp] theorem size_ifThen : (Block.ifThen arm rest).size = 1 + arm.size + 1 + rest.size := by
  simp only [size, bytes, List.length_cons, List.length_append]
  omega

@[simp] theorem size_ifElse :
    (Block.ifElse yes no rest).size = 1 + yes.size + 1 + no.size + 1 + rest.size := by
  simp only [size, bytes, List.length_cons, List.length_append]
  omega

theorem holds_plain : p.Holds pc (Block.plain first rest).bytes ↔
    p.Holds pc first.bytes ∧ p.Holds (pc + first.bytes.length) rest.bytes :=
  Program.holds_append

theorem holds_ifThen : p.Holds pc (Block.ifThen arm rest).bytes ↔
    p[pc]? = some ifByte ∧ p.Holds (pc + 1) arm.bytes ∧ p[pc + 1 + arm.size]? = some endIfByte ∧
      p.Holds (pc + 1 + arm.size + 1) rest.bytes := by
  simp only [bytes, size, Program.holds_cons, Program.holds_append]

theorem holds_ifElse : p.Holds pc (Block.ifElse yes no rest).bytes ↔
    p[pc]? = some ifByte ∧ p.Holds (pc + 1) yes.bytes ∧ p[pc + 1 + yes.size]? = some elseByte ∧
      p.Holds (pc + 1 + yes.size + 1) no.bytes ∧
      p[pc + 1 + yes.size + 1 + no.size]? = some endIfByte ∧
      p.Holds (pc + 1 + yes.size + 1 + no.size + 1) rest.bytes := by
  simp only [bytes, size, Program.holds_cons, Program.holds_append]

end Place

end Block

/-! ## Evaluation -/

/-- How far an evaluation has come. -/
structure Progress where
  /-- the number of steps charged -/
  steps : Nat
  stack : Stack

/-- A computation that charges steps, acts on the stack and may fail. -/
abbrev Evaluation := EStateM Fault Progress

/-- Charges a step and then acts, for the instruction `b` at `pc`. -/
def charged {α : Type} (limit pc : Nat) (b : UInt8) (x : Action α) : Evaluation α := fun p =>
  if limit ≤ p.steps + 1 then .error (.tooManySteps limit) p
  else
    match x p.stack with
    | .ok a stack => .ok a ⟨p.steps + 1, stack⟩
    | .error cause stack => .error (.stopped cause pc ⟨b⟩) ⟨p.steps + 1, stack⟩

/-- A plain instruction acts as in a program that consists of nothing else. -/
def Plain.action (i : Plain) : Action Int :=
  Action.execute i.bytes.toArray 0 i.byte

/-- Evaluates a block whose text starts at `pc`. -/
def Block.eval (limit : Nat) : Block → Nat → Evaluation Unit
  | .done, _ => pure ()
  | .plain first rest, pc => do
    let _ ← charged limit pc first.byte first.action
    rest.eval limit (pc + first.bytes.length)
  | .ifThen arm rest, pc => do
    let condition ← charged limit pc ifByte Action.pop
    (if condition = 0 then pure ()
      else do
        arm.eval limit (pc + 1)
        charged limit (pc + 1 + arm.size) endIfByte (pure ()))
    rest.eval limit (pc + 1 + arm.size + 1)
  | .ifElse yes no rest, pc => do
    let condition ← charged limit pc ifByte Action.pop
    (if condition = 0 then do
        no.eval limit (pc + 1 + yes.size + 1)
        charged limit (pc + 1 + yes.size + 1 + no.size) endIfByte (pure ())
      else do
        yes.eval limit (pc + 1)
        charged limit (pc + 1 + yes.size) elseByte (pure ()))
    rest.eval limit (pc + 1 + yes.size + 1 + no.size + 1)

/-- The outcome of evaluating a block on a stack under a step limit. -/
def Block.outcome (limit : Nat) (stack : Stack) (b : Block) : Outcome :=
  match b.eval limit 0 ⟨0, stack⟩ with
  | .ok () p => ⟨.ok p.steps, p.stack.toList⟩
  | .error fault p => ⟨.error fault, p.stack.toList⟩

end Structured

end GlyphHint
