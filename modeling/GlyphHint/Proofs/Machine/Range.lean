import GlyphHint.Proofs.Machine.Jump
import Mathlib.Algebra.Group.Int.Defs
set_option autoImplicit false

/-!
# What the head of the loop keeps

Whatever a run has done, at the head of its loop the program counter is in the program or directly
behind it, unless the last instruction took a jump, and a jump goes no farther than a value of 32
bits says.  The step counter is below the limit, and the stack is no deeper than its capacity
(`Machine.Reaches.bounded`).  Each of these is what one turn leaves behind; only the program counter
needs that the turn before it fetched from inside of the program.
-/

namespace GlyphHint

/-- An operation that takes no jump passes control no farther than to the end of the program. -/
theorem Op.next_le_of_effect {program : Program} {pc capacity : Nat} {op : Op}
    {vs ws : List Int32} {next : Int} (hinside : pc < program.size)
    (h : op.effect program pc capacity vs = .ok (next, ws)) (hjump : op.jump? vs = none) :
    next ≤ program.size := by
  cases goes_of_effect h with
  | on hpush => omega
  | behindArm harm hmatch =>
    have hend := (Branch.endsArm_of_matching? hmatch).inside
    omega
  | behindPush hcount hfits => exact Int.ofNat_le.mpr hfits
  | away haway target =>
    rcases haway with rfl | ⟨truth, rfl⟩
    · cases vs with
      | nil => cases h
      | cons offset vs => cases hjump
    · rcases vs with _ | ⟨condition, _ | ⟨offset, vs⟩⟩
      · cases h
      · cases h
      · simp only [jump?, ite_eq_right_iff, reduceCtorEq, imp_false] at hjump
        simp only [effect, hjump, if_false, Except.ok.injEq, Prod.mk.injEq] at h
        omega

namespace Machine

variable {program : Program} {limit : Nat} {s t : State}

/-- A turn that takes no jump passes control no farther than to the end of the program. -/
theorem turn_le_size (h : turn program limit s = .performed t) (hjump : s.jump? program = none) :
    t.pc ≤ program.size := by
  obtain ⟨hpc, -, -, b, op, hbyte, hop, hdeep, hrun⟩ := turn_performed h
  have hinside := (Array.getElem?_eq_some_iff.mp hbyte).1
  simp only [State.jump?, hbyte, hop, Option.bind_eq_bind, Option.bind_some] at hjump
  exact Op.next_le_of_effect hinside (Action.effect_of_perform_ok hdeep hrun).1 hjump

/-- What the head of the loop keeps at a state of a run. -/
structure Bounded (program : Program) (limits : Limits) (first s : State) : Prop where
  low : -2 ^ 31 ≤ s.pc
  high : s.pc < program.size + 2 ^ 31
  /-- the program counter is in the program or directly behind it, or comes from a jump -/
  near : (0 ≤ s.pc ∧ s.pc ≤ program.size) ∨
    ∃ r offset, Reaches program limits.maxSteps first r ∧
      turn program limits.maxSteps r = .performed s ∧ r.jump? program = some offset
  steps : s.steps = 0 ∨ s.steps < limits.maxSteps
  depth : s.stack.depth ≤ limits.stackCapacity

/-- Every state of a run keeps the bounds. -/
theorem Reaches.bounded {limits : Limits} {stack : Stack}
    (hcapacity : stack.capacity = limits.stackCapacity)
    (h : Reaches program limits.maxSteps (start stack) s) :
    Bounded program limits (start stack) s := by
  have hdepth : s.stack.depth ≤ limits.stackCapacity := by
    rw [← hcapacity]
    exact h.capacity_eq ▸ s.stack.depth_le_capacity
  rcases Relation.ReflTransGen.cases_tail h with rfl | ⟨r, hreached, hturn⟩
  · have hpc : (start stack).pc = 0 := rfl
    exact ⟨by omega, by omega, Or.inl ⟨by omega, by omega⟩, Or.inl rfl, hdepth⟩
  · obtain ⟨hpc, hinside⟩ := inside_of_turn_performed hturn
    obtain ⟨-, hlimit, hsteps, -⟩ := turn_performed hturn
    have hgoes := turn_goes hturn
    cases hjump : r.jump? program with
    | none =>
      rw [hjump] at hgoes
      have hlt : r.pc < s.pc := hgoes
      have hle := turn_le_size hturn hjump
      exact ⟨by omega, by omega, Or.inl ⟨by omega, hle⟩, Or.inr (by omega), hdepth⟩
    | some offset =>
      rw [hjump] at hgoes
      have htarget : s.pc = r.pc + offset.toInt := hgoes
      have hlow := offset.le_toInt
      have hhigh := offset.toInt_lt
      exact ⟨by omega, by omega, Or.inr ⟨r, offset, hreached, hturn, hjump⟩, Or.inr (by omega),
        hdepth⟩

end Machine

/-- The run of a program comes to this state at the head of its loop. -/
structure Interpreter.Visits (it : Interpreter) (program : Program) (s : Machine.State) : Prop where
  short : program.size ≤ it.limits.maxProgramLength
  reached : Machine.Reaches program it.limits.maxSteps (Machine.start it.stack) s

end GlyphHint
