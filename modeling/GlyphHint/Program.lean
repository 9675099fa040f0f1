import GlyphHint.Opcode.Table
set_option autoImplicit false

/-!
# Programs and the operands of pushes

A program is a row of bytes.  The machine reaches any offset, also the middle of a push, so the
operands of a push are found by offset: where they start, how many there are, where they end and
what each of them is.
-/

namespace GlyphHint

/-- The bytes of a hinting program. -/
abbrev Program := Array UInt8

namespace Immediate

/-- The value of one byte, zero-extended. -/
def ofByte (b : UInt8) : Int32 :=
  b.toUInt32.toInt32

/-- The value of two bytes, high byte first, sign-extended. -/
def ofWord (hi lo : UInt8) : Int32 :=
  ((hi.toUInt16 <<< 8) ||| lo.toUInt16).toInt16.toInt32

/-- The value of an immediate, which is one byte or two. -/
def ofBytes? : List UInt8 → Option Int32
  | [b] => some (ofByte b)
  | [hi, lo] => some (ofWord hi lo)
  | _ => none

end Immediate

namespace PushShape

/-- Number of bytes from the opcode of a push to its first immediate. -/
def headSize (shape : PushShape) : Nat :=
  match shape.count with
  | .inline _ => 1
  | .prefixed => 2

/-- Number of bytes of a whole push of `n` values. -/
def size (shape : PushShape) (n : Nat) : Nat :=
  shape.headSize + shape.width.bytes * n

theorem size_pos (shape : PushShape) (n : Nat) : 0 < shape.size n := by
  unfold size headSize
  split <;> omega

end PushShape

namespace Program

/-- The number of values of the push at `pc`; there is none if its count byte is missing. -/
def pushCount? (program : Program) (pc : Nat) (shape : PushShape) : Option Nat :=
  match shape.count with
  | .inline n => some n
  | .prefixed => program[pc + 1]?.map UInt8.toNat

/-- The immediate at an offset, if its bytes lie in the program. -/
def immediate? (program : Program) (width : Width) (offset : Nat) : Option Int32 :=
  match width with
  | .byte => program[offset]?.map Immediate.ofByte
  | .word => do
    let hi ← program[offset]?
    let lo ← program[offset + 1]?
    return Immediate.ofWord hi lo

end Program

end GlyphHint
