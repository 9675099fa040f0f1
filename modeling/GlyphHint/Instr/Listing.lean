import GlyphHint.Program
set_option autoImplicit false

/-!
# Instructions and listings

An instruction of a listing has its offset in the program, its opcode and, for a push, the values it
pushes.  Its text shows the values after their number; its written form is the bytes it was read
from.

The linear listing of a program: every byte is an opcode or belongs to the operands of the push
before it, and control flow is not followed.  The reader takes one instruction off the front of the
remaining bytes at a time.  A push whose count byte or values are cut short makes the whole program
unreadable; the fault names the offset of that push.
-/

namespace GlyphHint

/-! ## Instructions -/

/-- An instruction and where it starts. -/
structure Instr where
  offset : Nat
  opcode : Opcode
  /-- the values of a push; none for any other instruction -/
  immediates : List Int32
  deriving DecidableEq, Repr, Inhabited

namespace Instr

/-- The mnemonic, and for a push also the number of its values and each of them. -/
def text (i : Instr) : String :=
  if i.opcode.isPush then
    i.immediates.foldl (fun line v => line ++ " " ++ toString v.toInt)
      (i.opcode.text ++ "[" ++ toString i.immediates.length ++ "]")
  else
    i.opcode.text

/-- The bytes of one value of a push. -/
def writtenValue : Width → Int32 → List UInt8
  | .byte, v => [v.toUInt32.toUInt8]
  | .word, v => [(v.toUInt32 >>> 8).toUInt8, v.toUInt32.toUInt8]

/-- The bytes of the instruction: the opcode, then the count of a push that holds one, then the
values. -/
def written (i : Instr) : List UInt8 :=
  match i.opcode.pushShape? with
  | none => [i.opcode.byte]
  | some ⟨width, .inline _⟩ => i.opcode.byte :: i.immediates.flatMap (writtenValue width)
  | some ⟨width, .prefixed⟩ =>
    i.opcode.byte :: UInt8.ofNat i.immediates.length :: i.immediates.flatMap (writtenValue width)

/-- The number of bytes of the instruction. -/
def size (i : Instr) : Nat :=
  match i.opcode.pushShape? with
  | none => 1
  | some shape => shape.size i.immediates.length

end Instr

/-! ## Listings -/

/-- A push at `offset` runs past the end of the program. -/
structure Truncation where
  offset : Nat
  deriving DecidableEq, Repr, Inhabited

/-- The report of a truncated program. -/
def Truncation.message (t : Truncation) : String :=
  "truncated push operands at offset " ++ toString t.offset

namespace Listing

/-- Takes `n` values of one width off the front, with the bytes after them. -/
def takeValues (width : Width) : Nat → List UInt8 → Option (List Int32 × List UInt8)
  | 0, bytes => some ([], bytes)
  | n + 1, bytes =>
    match width, bytes with
    | .byte, b :: rest =>
      (takeValues width n rest).map fun (vs, tail) => (Immediate.ofByte b :: vs, tail)
    | .word, hi :: lo :: rest =>
      (takeValues width n rest).map fun (vs, tail) => (Immediate.ofWord hi lo :: vs, tail)
    | _, _ => none

/-- Takes the operands of an instruction off the bytes behind its opcode. -/
def takeOperands (opcode : Opcode) (bytes : List UInt8) : Option (List Int32 × List UInt8) :=
  match opcode.pushShape? with
  | none => some ([], bytes)
  | some ⟨width, .inline n⟩ => takeValues width n bytes
  | some ⟨width, .prefixed⟩ =>
    match bytes with
    | [] => none
    | n :: rest => takeValues width n.toNat rest

theorem length_of_takeValues {width : Width} {n : Nat} {bytes tail : List UInt8} {vs : List Int32}
    (h : takeValues width n bytes = some (vs, tail)) : tail.length ≤ bytes.length := by
  induction n generalizing bytes vs with
  | zero =>
    simp only [takeValues, Option.some.injEq, Prod.mk.injEq] at h
    simp [h.2]
  | succ n ih =>
    unfold takeValues at h
    split at h
    · obtain ⟨⟨us, rest⟩, hrest, heq⟩ := Option.map_eq_some_iff.1 h
      obtain ⟨rfl, rfl⟩ := Prod.mk.inj heq
      have := ih hrest
      simp only [List.length_cons]
      omega
    · obtain ⟨⟨us, rest⟩, hrest, heq⟩ := Option.map_eq_some_iff.1 h
      obtain ⟨rfl, rfl⟩ := Prod.mk.inj heq
      have := ih hrest
      simp only [List.length_cons]
      omega
    · cases h

theorem length_of_takeOperands {opcode : Opcode} {bytes tail : List UInt8} {vs : List Int32}
    (h : takeOperands opcode bytes = some (vs, tail)) : tail.length ≤ bytes.length := by
  unfold takeOperands at h
  split at h
  · obtain ⟨-, rfl⟩ := Prod.mk.inj (Option.some.inj h)
    exact Nat.le_refl _
  · exact length_of_takeValues h
  · split at h
    · cases h
    · have := length_of_takeValues h
      simp only [List.length_cons]
      omega

/-- Lists the remaining bytes, the first of which has the given offset, after the instructions
listed so far. -/
def readFrom (offset : Nat) (bytes : List UInt8) (listed : Array Instr) :
    Except Truncation (Array Instr) :=
  match bytes with
  | [] => .ok listed
  | byte :: rest =>
    match _taken : takeOperands ⟨byte⟩ rest with
    | none => .error ⟨offset⟩
    | some (immediates, tail) =>
      let instr : Instr := ⟨offset, ⟨byte⟩, immediates⟩
      readFrom (offset + instr.size) tail (listed.push instr)
  termination_by bytes.length
  decreasing_by
    have := length_of_takeOperands _taken
    simp only [List.length_cons]
    omega

end Listing

/-- The instructions of a program in order. -/
def Program.listing (program : Program) : Except Truncation (Array Instr) :=
  Listing.readFrom 0 program.toList #[]

end GlyphHint
