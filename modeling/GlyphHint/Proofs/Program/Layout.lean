import GlyphHint.Proofs.Opcode.Encoding
set_option autoImplicit false

/-!
# Bytes and instructions in place

`Program.Holds` places a list of bytes at an offset of a program.  An instruction in place ends
where `Program.behind?` says: one byte on for everything but a push, and behind the last immediate
for a push whose bytes all lie in the program.  A push with its operands complete
(`Opcode.Complete`) ends behind them wherever it is placed.
-/

namespace GlyphHint

namespace Program

variable {program : Program} {pc q : Nat} {b : UInt8}

/-- The bytes lie in the program from an offset on. -/
def Holds (program : Program) : Nat → List UInt8 → Prop
  | _, [] => True
  | pc, b :: bytes => program[pc]? = some b ∧ program.Holds (pc + 1) bytes

@[simp] theorem holds_nil : program.Holds pc [] :=
  trivial

@[simp] theorem holds_cons {bytes : List UInt8} :
    program.Holds pc (b :: bytes) ↔ program[pc]? = some b ∧ program.Holds (pc + 1) bytes :=
  Iff.rfl

@[simp] theorem holds_append {bytes more : List UInt8} :
    program.Holds pc (bytes ++ more) ↔
      program.Holds pc bytes ∧ program.Holds (pc + bytes.length) more := by
  induction bytes generalizing pc with
  | nil => simp
  | cons b bytes ih =>
    have hnext : pc + 1 + bytes.length = pc + (bytes.length + 1) := by omega
    simp only [List.cons_append, holds_cons, ih, List.length_cons, hnext, and_assoc]

/-- Bytes in place are found at their offsets. -/
theorem Holds.getElem? {bytes : List UInt8} (h : program.Holds pc bytes) {i : Nat}
    (hi : i < bytes.length) : program[pc + i]? = bytes[i]? := by
  induction bytes generalizing pc i with
  | nil => simp at hi
  | cons b bytes ih =>
    cases i with
    | zero => exact h.1
    | succ i =>
      have hplace : pc + (i + 1) = pc + 1 + i := by omega
      rw [List.length_cons] at hi
      rw [hplace, ih h.2 (by omega), List.getElem?_cons_succ]

theorem Holds.le_size {bytes : List UInt8} (h : program.Holds pc bytes) (hne : bytes ≠ []) :
    pc + bytes.length ≤ program.size := by
  have hlast : bytes.length - 1 < bytes.length := by
    have := List.length_pos_iff.mpr hne
    omega
  have hfound := h.getElem? hlast
  rw [List.getElem?_eq_getElem hlast] at hfound
  have := (Array.getElem?_eq_some_iff.mp hfound).1
  omega

/-- Behind a first part of its bytes a program holds the rest of them. -/
theorem holds_append_right (before bytes : List UInt8) :
    Program.Holds (before ++ bytes).toArray before.length bytes := by
  induction bytes generalizing before with
  | nil => trivial
  | cons b bytes ih =>
    have hnext := ih (before ++ [b])
    rw [List.append_assoc, List.singleton_append, List.length_append, List.length_singleton]
      at hnext
    refine ⟨?_, hnext⟩
    simp

/-- A program made of bytes holds them. -/
theorem holds_toArray (bytes : List UInt8) : Program.Holds bytes.toArray 0 bytes :=
  holds_append_right [] bytes

/-! ## Where instructions end -/

/-- The offset behind the instruction at `pc`; there is none if it is a push that the program does
not hold in full. -/
def behind? (program : Program) (pc : Nat) (opcode : Opcode) : Option Nat :=
  match opcode.pushShape? with
  | none => some (pc + 1)
  | some shape =>
    match program.pushCount? pc shape with
    | none => none
    | some n => if pc + shape.size n ≤ program.size then some (pc + shape.size n) else none

theorem behind?_of_no_push {opcode : Opcode} (h : opcode.pushShape? = none) :
    program.behind? pc opcode = some (pc + 1) := by
  unfold behind?
  rw [h]

/-- An instruction whose operation is no push is one byte long. -/
theorem behind?_of_op? {opcode : Opcode} {op : Op} (hop : opcode.op? = some op)
    (hpush : ∀ shape, op ≠ .push shape) : program.behind? pc opcode = some (pc + 1) :=
  behind?_of_no_push (Opcode.pushShape?_eq_none hop hpush)

/-- An instruction ends behind its start. -/
theorem lt_of_behind? {opcode : Opcode} (h : program.behind? pc opcode = some q) : pc < q := by
  unfold behind? at h
  split at h
  · cases h
    exact Nat.lt_succ_self pc
  · rename_i shape _
    split at h
    · cases h
    · rename_i n _
      have hpos := shape.size_pos n
      split at h
      · cases h
        omega
      · cases h

/-- An instruction that starts in the program ends in it. -/
theorem behind?_le_size (hbyte : program[pc]? = some b)
    (h : program.behind? pc ⟨b⟩ = some q) : q ≤ program.size := by
  have hsize := (Array.getElem?_eq_some_iff.mp hbyte).1
  unfold behind? at h
  split at h
  · cases h
    exact hsize
  · split at h
    · cases h
    · split at h
      · rename_i hfits
        cases h
        exact hfits
      · cases h

end Program

namespace Opcode

/-- The bytes are all the operand bytes that an opcode needs: none unless it is a push, and for a
push its count byte, if it has one, and the bytes of its values. -/
def Complete (o : Opcode) (operands : List UInt8) : Prop :=
  match o.pushShape? with
  | none => operands = []
  | some ⟨width, .inline n⟩ => operands.length = width.bytes * n
  | some ⟨width, .prefixed⟩ =>
    ∃ n values, operands = n :: values ∧ values.length = width.bytes * n.toNat

theorem Complete.eq_nil {o : Opcode} {operands : List UInt8} (hcomplete : o.Complete operands)
    (hshape : o.pushShape? = none) : operands = [] := by
  unfold Complete at hcomplete
  rw [hshape] at hcomplete
  exact hcomplete

/-- A push in place with all its operands has the number of values that its operands have room
for. -/
theorem Complete.pushCount? {program : Program} {pc : Nat} {b : UInt8} {operands : List UInt8}
    {shape : PushShape} (hcomplete : (Opcode.mk b).Complete operands)
    (hshape : (Opcode.mk b).pushShape? = some shape) (hholds : program.Holds pc (b :: operands)) :
    ∃ n, program.pushCount? pc shape = some n ∧ shape.size n = 1 + operands.length := by
  unfold Complete at hcomplete
  rw [hshape] at hcomplete
  obtain ⟨width, count⟩ := shape
  cases count with
  | inline n =>
    refine ⟨n, rfl, ?_⟩
    simp only at hcomplete
    rw [hcomplete]
    rfl
  | prefixed =>
    obtain ⟨n, values, rfl, hlength⟩ := hcomplete
    refine ⟨n.toNat, ?_, ?_⟩
    · simp only [Program.pushCount?, hholds.2.1, Option.map_some]
    · simp only [PushShape.size, PushShape.headSize, List.length_cons, hlength]
      omega

/-- An instruction in place with all its operands ends behind them. -/
theorem Complete.behind? {program : Program} {pc : Nat} {b : UInt8} {operands : List UInt8}
    (hcomplete : (Opcode.mk b).Complete operands) (hholds : program.Holds pc (b :: operands)) :
    program.behind? pc ⟨b⟩ = some (pc + 1 + operands.length) := by
  cases hshape : (Opcode.mk b).pushShape? with
  | none =>
    rw [Program.behind?_of_no_push hshape, hcomplete.eq_nil hshape]
    rfl
  | some shape =>
    obtain ⟨n, hcount, hsize⟩ := hcomplete.pushCount? hshape hholds
    have hend : pc + shape.size n = pc + 1 + operands.length := by omega
    have hfits := hholds.le_size (by simp)
    rw [List.length_cons] at hfits
    unfold Program.behind?
    rw [hshape]
    simp only [hcount, hend]
    exact if_pos (by omega)

end Opcode

end GlyphHint
