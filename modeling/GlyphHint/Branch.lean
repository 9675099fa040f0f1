import GlyphHint.Program
set_option autoImplicit false

/-!
# Matching ends of conditionals

An IF or ELSE whose arm is not taken passes control behind the ELSE or EIF that matches it.  The
match is found by a forward scan that counts nested conditionals and steps over the operands of
pushes, so that operand bytes never read as opcodes; a byte that is no instruction counts as one
byte.  The scan finds nothing when the program ends first or a push on the way lacks its count.
-/

namespace GlyphHint.Branch

/-- Scans from `pc` at the given nesting for an EIF at nesting 0 or, if `stopAtElse`, an ELSE
there. -/
def scan (program : Program) (stopAtElse : Bool) (pc nesting : Nat) : Option Nat :=
  if h : pc < program.size then
    match (Opcode.mk program[pc]).op? with
    | some .ifNonzero => scan program stopAtElse (pc + 1) (nesting + 1)
    | some .elseArm =>
      if stopAtElse && nesting == 0 then some pc else scan program stopAtElse (pc + 1) nesting
    | some .endIf =>
      match nesting with
      | 0 => some pc
      | outer + 1 => scan program stopAtElse (pc + 1) outer
    | some (.push shape) =>
      match program.pushCount? pc shape with
      | none => none
      | some n =>
        have := shape.size_pos n
        scan program stopAtElse (pc + shape.size n) nesting
    | _ => scan program stopAtElse (pc + 1) nesting
  else
    none
  termination_by program.size - pc

/-- The offset of the instruction that ends the arm opened at `start`: the matching EIF, or the
matching ELSE where the arm may end at one. -/
def matching? (program : Program) (start : Nat) (stopAtElse : Bool) : Option Nat :=
  scan program stopAtElse (start + 1) 0

end GlyphHint.Branch
