set_option autoImplicit false

/-!
# Operations of the hinting instruction set

What an executable instruction does, apart from the byte that encodes it.  Operators on values are
data (`Unary`, `Binary`), so the machine has one rule for all of one arity; a push carries its
layout; the two conditional jumps differ in the truth value they wait for.
-/

namespace GlyphHint

/-- How wide one immediate of a push is. -/
inductive Width where
  /-- one byte, zero-extended -/
  | byte
  /-- two bytes, high byte first, sign-extended -/
  | word
  deriving DecidableEq, Repr, Inhabited

/-- Number of program bytes of one immediate. -/
def Width.bytes : Width → Nat
  | .byte => 1
  | .word => 2

/-- Where a push finds the number of its immediates. -/
inductive PushCount where
  /-- the opcode itself fixes the number -/
  | inline (n : Nat)
  /-- the byte after the opcode holds the number -/
  | prefixed
  deriving DecidableEq, Repr, Inhabited

/-- The operand layout of a push. -/
structure PushShape where
  width : Width
  count : PushCount
  deriving DecidableEq, Repr, Inhabited

/-- Operators on one value. -/
inductive Unary where
  | not
  | abs
  | neg
  | floor
  | ceiling
  deriving DecidableEq, Repr, Inhabited

/-- Operators on two values that cannot fail. -/
inductive Binary where
  | lt
  | le
  | gt
  | ge
  | eq
  | ne
  | and
  | or
  | add
  | sub
  | mul
  deriving DecidableEq, Repr, Inhabited

/-- What an executable instruction does. -/
inductive Op where
  /-- end of the first arm of a conditional: control passes to its end -/
  | elseArm
  /-- end of a conditional -/
  | endIf
  /-- conditional on the top value -/
  | ifNonzero
  /-- jump by the offset on top -/
  | jump
  /-- jump by an offset when the condition on top is nonzero (`true`) or zero (`false`) -/
  | jumpWhen (truth : Bool)
  /-- duplicate the top value -/
  | dup
  /-- drop the top value -/
  | pop
  /-- drop all values -/
  | clear
  /-- exchange the two top values -/
  | swap
  /-- push the number of values -/
  | depth
  /-- copy an indexed value to the top -/
  | copyIndexed
  /-- move an indexed value to the top -/
  | moveIndexed
  /-- push immediates -/
  | push (shape : PushShape)
  /-- no effect -/
  | debug
  /-- replace the top value -/
  | unary (f : Unary)
  /-- replace the two top values by one -/
  | binary (f : Binary)
  /-- divide the value below the top by the top -/
  | divide
  deriving DecidableEq, Repr, Inhabited

/-- How many values the stack must hold before the operation may start. -/
def Op.pops : Op → Nat
  | .elseArm | .endIf | .clear | .depth | .push _ | .debug => 0
  | .ifNonzero | .jump | .dup | .pop | .copyIndexed | .moveIndexed | .unary _ => 1
  | .jumpWhen _ | .swap | .binary _ | .divide => 2

end GlyphHint
