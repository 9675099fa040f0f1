import GlyphHint.Opcode.Table
set_option autoImplicit false

/-!
# Faults

Why a run ends without reaching the end of its program.  Two faults concern the run as a whole; the
others belong to one instruction and carry its offset and opcode.
-/

namespace GlyphHint

/-- Why an instruction cannot be executed. -/
inductive Cause where
  /-- the instruction set defines the opcode, the machine does not run it -/
  | unimplemented
  /-- the opcode is no instruction -/
  | unrecognized
  /-- fewer values on the stack than the instruction needs -/
  | stackUnderflow
  /-- no free slot for a value to push -/
  | stackOverflow
  /-- an index that names no value -/
  | invalidData
  /-- a push without all its operand bytes -/
  | insufficientData
  /-- a division by zero -/
  | divisionByZero
  /-- an IF or ELSE without a match -/
  | unbalanced
  deriving DecidableEq, Repr, Inhabited

/-- Why a run failed. -/
inductive Fault where
  /-- the program is longer than the limit -/
  | tooManyInstructions (length limit : Nat)
  /-- the step counter reached the limit -/
  | tooManySteps (limit : Nat)
  /-- an instruction could not be executed -/
  | stopped (cause : Cause) (pc : Nat) (opcode : Opcode)
  deriving DecidableEq, Repr, Inhabited

namespace Fault

/-- The offset of the failing instruction, where there is one. -/
def pc? : Fault → Option Nat
  | .stopped _ pc _ => some pc
  | _ => none

/-- What went wrong, in words. -/
def text : Fault → String
  | .tooManyInstructions length limit =>
    "too many instructions (" ++ toString length ++ " bytes, limit " ++ toString limit ++ ")"
  | .tooManySteps limit => "too many steps (limit " ++ toString limit ++ ")"
  | .stopped .unimplemented pc opcode =>
    "unimplemented instruction " ++ opcode.text ++ " at pc " ++ toString pc
  | .stopped .unrecognized pc opcode =>
    "unrecognized instruction " ++ opcode.text ++ " at pc " ++ toString pc
  | .stopped .stackUnderflow pc opcode =>
    "stack underflow at pc " ++ toString pc ++ " (" ++ opcode.text ++ ")"
  | .stopped .stackOverflow pc opcode =>
    "stack overflow at pc " ++ toString pc ++ " (" ++ opcode.text ++ ")"
  | .stopped .invalidData pc opcode =>
    "invalid data at pc " ++ toString pc ++ " (" ++ opcode.text ++ ")"
  | .stopped .insufficientData pc opcode =>
    "insufficient data at pc " ++ toString pc ++ " (" ++ opcode.text ++ ")"
  | .stopped .divisionByZero pc _ => "division by zero at pc " ++ toString pc
  | .stopped .unbalanced pc _ => "unbalanced IF or ELSE at pc " ++ toString pc

/-- The report of a failed run. -/
def message (f : Fault) : String :=
  "hinting: " ++ f.text

end Fault

end GlyphHint
