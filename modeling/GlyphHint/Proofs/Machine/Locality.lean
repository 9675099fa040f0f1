import GlyphHint.Proofs.Machine.Effect
import GlyphHint.Proofs.Program.Layout
set_option autoImplicit false

/-!
# An instruction acts on its own bytes

Conditionals and jumps apart, what an instruction does to the stack depends on its own bytes only,
not on the program around it or on its place there (`Action.perform_eq_of_holds`).  Its place
decides where control goes next, which is behind its last byte.
-/

namespace GlyphHint

namespace Program

variable {p q : Program} {width : Width} {i j : Nat}

/-- An immediate depends on its own bytes only. -/
theorem immediate?_congr (h : ∀ k < width.bytes, p[i + k]? = q[j + k]?) :
    p.immediate? width i = q.immediate? width j := by
  cases width with
  | byte =>
    have hbyte := h 0 (by decide)
    simp only [Nat.add_zero] at hbyte
    simp only [immediate?, hbyte]
  | word =>
    have hhi := h 0 (by decide)
    have hlo := h 1 (by decide)
    simp only [Nat.add_zero] at hhi
    simp only [immediate?, hhi, hlo]

end Program

namespace Action

variable {p q : Program} {pc qc : Nat}

/-- Pushing immediates depends on their bytes only. -/
theorem pushImmediates_congr {width : Width} {n i j : Nat}
    (h : ∀ k < width.bytes * n, p[i + k]? = q[j + k]?) :
    pushImmediates p width i n = pushImmediates q width j n := by
  induction n generalizing i j with
  | zero => rfl
  | succ n ih =>
    rw [Nat.mul_add, Nat.mul_one] at h
    have hfirst : p.immediate? width i = q.immediate? width j :=
      Program.immediate?_congr fun k hk => h k (by omega)
    have hrest : pushImmediates p width (i + width.bytes) n =
        pushImmediates q width (j + width.bytes) n := by
      refine ih fun k hk => ?_
      rw [Nat.add_assoc, Nat.add_assoc]
      exact h (width.bytes + k) (by omega)
    simp only [pushImmediates, hfirst, hrest]

/-- An operation that is no push and no transfer of control sees nothing of the program. -/
theorem perform_eq_of_straight (p q : Program) (pc qc : Nat) {op : Op} (hstraight : op.Straight)
    (hpush : ∀ shape, op ≠ .push shape) :
    perform p pc op = perform q qc op >>= fun _ => pure ((pc : Int) + 1) := by
  cases op with
  | elseArm => cases hstraight
  | ifNonzero => cases hstraight
  | jump => cases hstraight
  | jumpWhen truth => cases hstraight
  | push shape => exact absurd rfl (hpush shape)
  | divide =>
    simp only [perform, bind_assoc]
    congr 1
    funext b
    congr 1
    funext a
    cases Fixed.div? a b with
    | none => rfl
    | some q => simp only [bind_assoc, pure_bind]
  | _ => simp only [perform, bind_assoc, pure_bind]

/-- A push in place depends on its own bytes only. -/
theorem perform_push_eq_of_holds {b : UInt8} {operands : List UInt8} {shape : PushShape}
    (hshape : (Opcode.mk b).pushShape? = some shape) (hcomplete : (Opcode.mk b).Complete operands)
    (hp : p.Holds pc (b :: operands)) (hq : q.Holds qc (b :: operands)) :
    perform p pc (.push shape) =
      perform q qc (.push shape) >>= fun _ => pure ((pc : Int) + (1 + operands.length : Nat)) := by
  obtain ⟨n, hpcount, hsize⟩ := hcomplete.pushCount? hshape hp
  obtain ⟨m, hqcount, hsize'⟩ := hcomplete.pushCount? hshape hq
  have hpos : 0 < shape.width.bytes := by cases shape.width <;> decide
  have hm : m = n := by
    have hsame : shape.width.bytes * m = shape.width.bytes * n := by
      simp only [PushShape.size] at hsize hsize'
      omega
    exact Nat.eq_of_mul_eq_mul_left hpos hsame
  have hpfits := hp.le_size (by simp)
  have hqfits := hq.le_size (by simp)
  rw [List.length_cons] at hpfits hqfits
  have hbytes : pushImmediates p shape.width (pc + shape.headSize) n =
      pushImmediates q shape.width (qc + shape.headSize) n := by
    refine pushImmediates_congr fun k hk => ?_
    have hplace : shape.headSize + k < (b :: operands).length := by
      simp only [PushShape.size] at hsize
      rw [List.length_cons]
      omega
    rw [Nat.add_assoc, Nat.add_assoc, hp.getElem? hplace, hq.getElem? hplace]
  have hpend : pc + shape.size n ≤ p.size := by omega
  have hqend : qc + shape.size n ≤ q.size := by omega
  simp only [perform, hpcount, hqcount, hm, hpend, hqend, if_true, hbytes, bind_assoc, pure_bind,
    ← hsize]

/-- What an instruction in place does is what it does in any other place, with control going on
behind it. -/
theorem perform_eq_of_holds {b : UInt8} {operands : List UInt8} {op : Op}
    (hop : (Opcode.mk b).op? = some op) (hstraight : op.Straight)
    (hcomplete : (Opcode.mk b).Complete operands) (hp : p.Holds pc (b :: operands))
    (hq : q.Holds qc (b :: operands)) :
    perform p pc op =
      perform q qc op >>= fun _ => pure ((pc : Int) + (1 + operands.length : Nat)) := by
  cases hshape : (Opcode.mk b).pushShape? with
  | some shape =>
    cases Option.some.inj (hop.symm.trans (Opcode.pushShape?_eq_some_iff.mp hshape))
    exact perform_push_eq_of_holds hshape hcomplete hp hq
  | none =>
    have hpush : ∀ shape, op ≠ .push shape := by
      rintro shape rfl
      rw [Opcode.pushShape?_eq_some_iff.mpr hop] at hshape
      cases hshape
    rw [hcomplete.eq_nil hshape]
    exact perform_eq_of_straight p q pc qc hstraight hpush

end Action

end GlyphHint
