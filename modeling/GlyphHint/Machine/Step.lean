import GlyphHint.Branch
import GlyphHint.Fault
import GlyphHint.Fixed
import GlyphHint.Stack
set_option autoImplicit false

/-!
# One instruction

An instruction is an action on the stack that either gives the next program counter or stops with a
cause.  Actions keep the stack they failed on, so whether a failing instruction has changed it is a
property of the actions and not of their type.  Before an instruction starts, `Opcode.admission`
checks that the machine runs it and that the stack holds as many values as it needs.

A truth value is the word 1 or 0, and every word but 0 counts as true.  Sums, differences, negation
and absolute value wrap around at 32 bits.
-/

namespace GlyphHint

/-! ## Operators on values -/

/-- The word of a truth value. -/
def truth (b : Bool) : Int32 :=
  if b then 1 else 0

/-- The value of a unary operator. -/
def Unary.eval : Unary → Int32 → Int32
  | .not, a => truth (a == 0)
  | .abs, a => if a < 0 then -a else a
  | .neg, a => -a
  | .floor, a => Fixed.floor a
  | .ceiling, a => Fixed.ceiling a

/-- The value of a binary operator; the second operand was on top. -/
def Binary.eval : Binary → Int32 → Int32 → Int32
  | .lt, a, b => truth (a < b)
  | .le, a, b => truth (a ≤ b)
  | .gt, a, b => truth (b < a)
  | .ge, a, b => truth (b ≤ a)
  | .eq, a, b => truth (a == b)
  | .ne, a, b => truth (a != b)
  | .and, a, b => truth (a != 0 && b != 0)
  | .or, a, b => truth (a != 0 || b != 0)
  | .add, a, b => a + b
  | .sub, a, b => a - b
  | .mul, a, b => Fixed.mul a b

/-! ## Actions on the stack -/

/-- A computation on the stack that may stop with a cause. -/
abbrev Action := EStateM Cause Stack

namespace Action

/-- Stops. -/
@[inline] def stop {α : Type} (cause : Cause) : Action α :=
  fun s => .error cause s

/-- Puts a value on top. -/
@[inline] def push (v : Int32) : Action Unit := fun s =>
  if room : s.top < s.capacity then .ok () (s.push v room) else .error .stackOverflow s

/-- Looks at the value `d` places below the top. -/
@[inline] def peek (d : Nat) : Action Int32 := fun s =>
  if live : d < s.top then .ok (s.peek d live) s else .error .stackUnderflow s

/-- Takes the top value off. -/
@[inline] def pop : Action Int32 := fun s =>
  if live : 0 < s.top then
    let v := s.peek 0 live
    .ok v s.pop
  else .error .stackUnderflow s

/-- Overwrites the top value. -/
@[inline] def replaceTop (v : Int32) : Action Unit := fun s =>
  if live : 0 < s.top then .ok () (s.replace 0 v live) else .error .stackUnderflow s

/-- Moves the value `d` places below the top onto the top. -/
@[inline] def lift (d : Nat) : Action Unit := fun s =>
  if d < s.top then .ok () (s.lift d) else .error .invalidData s

/-- The number of values. -/
@[inline] def depth : Action Nat := fun s =>
  .ok s.depth s

/-- Drops all values. -/
@[inline] def clear : Action Unit := fun s =>
  .ok () s.clear

/-- Goes on only if there is room for `n` more values. -/
@[inline] def needRoom (n : Nat) : Action Unit := fun s =>
  if s.hasRoom n then .ok () s else .error .stackOverflow s

/-- Puts the `n` immediates from an offset of the program on top, in order. -/
def pushImmediates (program : Program) (width : Width) (offset : Nat) : Nat → Action Unit
  | 0 => pure ()
  | n + 1 =>
    match program.immediate? width offset with
    | none => stop .insufficientData
    | some v => do
      push v
      pushImmediates program width (offset + width.bytes) n

/-- The end of the arm that starts at `pc`. -/
def endOfArm (program : Program) (pc : Nat) (stopAtElse : Bool) : Action Nat :=
  match Branch.matching? program pc stopAtElse with
  | some offset => pure offset
  | none => stop .unbalanced

/-- Takes an index off that counts the values below it from 1, and gives the place it names. -/
def popIndex : Action Nat := do
  let x ← peek 0
  let n ← depth
  if 0 < x.toInt ∧ x.toInt < n then
    let _ ← pop
    return x.toInt.toNat - 1
  else
    stop .invalidData

/-- Performs the operation of the instruction at `pc` and gives the next program counter. -/
def perform (program : Program) (pc : Nat) : Op → Action Int
  | .elseArm => do
    let offset ← endOfArm program pc false
    return offset + 1
  | .endIf | .debug => return pc + 1
  | .ifNonzero => do
    let condition ← peek 0
    if condition = 0 then
      let offset ← endOfArm program pc true
      let _ ← pop
      return offset + 1
    else
      let _ ← pop
      return pc + 1
  | .jump => do
    let offset ← pop
    return pc + offset.toInt
  | .jumpWhen truth => do
    let condition ← pop
    let offset ← pop
    return if (condition != 0) = truth then pc + offset.toInt else pc + 1
  | .dup => do
    let v ← peek 0
    push v
    return pc + 1
  | .pop => do
    let _ ← pop
    return pc + 1
  | .clear => do
    clear
    return pc + 1
  | .swap => do
    let b ← pop
    let a ← pop
    push b
    push a
    return pc + 1
  | .depth => do
    let n ← depth
    push (Int32.ofNat n)
    return pc + 1
  | .copyIndexed => do
    let d ← popIndex
    let v ← peek d
    push v
    return pc + 1
  | .moveIndexed => do
    let d ← popIndex
    lift d
    return pc + 1
  | .push shape =>
    match program.pushCount? pc shape with
    | none => stop .insufficientData
    | some n => do
      needRoom n
      if pc + shape.size n ≤ program.size then
        pushImmediates program shape.width (pc + shape.headSize) n
        return pc + shape.size n
      else
        stop .insufficientData
  | .unary f => do
    let a ← peek 0
    replaceTop (f.eval a)
    return pc + 1
  | .binary f => do
    let b ← pop
    let a ← peek 0
    replaceTop (f.eval a b)
    return pc + 1
  | .divide => do
    let b ← peek 0
    let a ← peek 1
    match Fixed.div? a b with
    | none => stop .divisionByZero
    | some q =>
      let _ ← pop
      replaceTop q
      return pc + 1

end Action

/-- The checks before an instruction starts, in their order: the opcode has a row, the machine runs
it, and the stack is deep enough.  Gives the mnemonic and the operation. -/
def Opcode.admission (opcode : Opcode) (depth : Nat) : Except Cause (String × Op) :=
  match opcode.entry? with
  | none => .error .unrecognized
  | some ⟨_, _, _, .unimplemented⟩ => .error .unimplemented
  | some ⟨_, _, mnemonic, .runs op⟩ =>
    if depth < op.pops then .error .stackUnderflow else .ok (mnemonic, op)

end GlyphHint
