import GlyphHint.Proofs.Branch.Bracket
import GlyphHint.Proofs.Machine.Linear
set_option autoImplicit false

/-!
# Where control goes

An instruction passes control forward, over its operands or an arm that is left out, unless it takes
a jump (`Machine.turn_goes`).  So the jumps that a run takes (`Interpreter.TakesJump`) decide
whether it can go back: if all of them are forward, it fetches from ascending offsets, no more often
than the program has bytes, and a step limit above that is never met
(`Interpreter.forward_jumps_ascend`).
-/

namespace GlyphHint

/-- The offset by which an operation jumps on these values, the top first, if it takes a jump: JMPR
always, JROT and JROF on the condition that they wait for. -/
def Op.jump? : Op → List Int32 → Option Int32
  | .jump, offset :: _ => some offset
  | .jumpWhen truth, condition :: offset :: _ =>
    if (condition != 0) = truth then some offset else none
  | _, _ => none

/-- Only two kinds of operations take jumps. -/
theorem Op.jump?_eq_none {op : Op} (hjump : op ≠ .jump) (hwhen : ∀ truth, op ≠ .jumpWhen truth)
    (vs : List Int32) : op.jump? vs = none := by
  unfold jump?
  split
  · exact absurd rfl hjump
  · exact absurd rfl (hwhen _)
  · rfl

/-- All others pass control forward. -/
theorem Op.Goes.lt {program : Program} {pc : Nat} {op : Op} {next : Int}
    (h : op.Goes program pc next) (hjump : op ≠ .jump) (hwhen : ∀ truth, op ≠ .jumpWhen truth) :
    (pc : Int) < next := by
  cases h with
  | on hpush => omega
  | behindArm harm hmatch =>
    have hbehind := (Branch.endsArm_of_matching? hmatch).behind
    omega
  | @behindPush shape n hcount hfits =>
    have hpos := shape.size_pos n
    omega
  | away haway target =>
    rcases haway with rfl | ⟨truth, rfl⟩
    · exact absurd rfl hjump
    · exact absurd rfl (hwhen truth)

/-- An operation passes control by the jump that it takes, and forward if it takes none. -/
theorem Op.next_of_effect {program : Program} {pc capacity : Nat} {op : Op} {vs ws : List Int32}
    {next : Int} (h : op.effect program pc capacity vs = .ok (next, ws)) :
    match op.jump? vs with
    | some offset => next = pc + offset.toInt
    | none => pc < next := by
  have hgoes := goes_of_effect h
  cases op with
  | jump =>
    cases vs with
    | nil => cases h
    | cons offset vs =>
      cases h
      rfl
  | jumpWhen truth =>
    rcases vs with _ | ⟨condition, _ | ⟨offset, vs⟩⟩
    · cases h
    · cases h
    · simp only [effect, Except.ok.injEq, Prod.mk.injEq] at h
      obtain ⟨rfl, -⟩ := h
      simp only [jump?]
      by_cases htaken : (condition != 0) = truth
      · simp only [htaken, if_true]
      · simp only [htaken, if_false]
        omega
  | _ =>
    rw [jump?_eq_none (by simp) (by simp)]
    exact hgoes.lt (by simp) (by simp)

namespace Machine

variable {program : Program} {limit : Nat} {s t : State}

/-- The offset by which the instruction at the program counter jumps, if it takes a jump. -/
def State.jump? (program : Program) (s : State) : Option Int32 := do
  let b ← program[s.pc.toNat]?
  let op ← (Opcode.mk b).op?
  op.jump? s.stack.topFirst

/-- A performed turn passes control by the jump that it takes, and forward if it takes none. -/
theorem turn_goes (h : turn program limit s = .performed t) :
    match s.jump? program with
    | some offset => t.pc = s.pc + offset.toInt
    | none => s.pc < t.pc := by
  obtain ⟨hpc, -, -, b, op, hbyte, hop, hdeep, hrun⟩ := turn_performed h
  have hnext := Op.next_of_effect (Action.effect_of_perform_ok hdeep hrun).1
  have hjump : s.jump? program = op.jump? s.stack.topFirst := by
    simp only [State.jump?, hbyte, hop, Option.bind_eq_bind, Option.bind_some]
  rw [Int.toNat_of_nonneg hpc] at hnext
  rw [hjump]
  exact hnext

end Machine

namespace Interpreter

open Machine

variable {it : Interpreter} {program : Program}

/-- The run of a program comes to the state `s` and jumps by `offset` there. -/
structure TakesJump (it : Interpreter) (program : Program) (s : State) (offset : Int32) : Prop where
  short : program.size ≤ it.limits.maxProgramLength
  reached : Reaches program it.limits.maxSteps (start it.stack) s
  performed : ∃ t, turn program it.limits.maxSteps s = .performed t
  jumps : s.jump? program = some offset

/-- A run that takes only forward jumps goes forward. -/
theorem ascends_of_forward (hshort : program.size ≤ it.limits.maxProgramLength)
    (hforward : ∀ s offset, it.TakesJump program s offset → 0 < offset.toInt) :
    Ascends program it.limits.maxSteps (start it.stack) := by
  intro s t hreached hturn
  have hgoes := turn_goes hturn
  cases hjump : s.jump? program with
  | none =>
    rw [hjump] at hgoes
    exact hgoes
  | some offset =>
    rw [hjump] at hgoes
    have hpos := hforward s offset ⟨hshort, hreached, ⟨t, hturn⟩, hjump⟩
    simp only at hgoes
    omega

theorem lt_size_of_mem_fetched (it : Interpreter) (program : Program) :
    ∀ pc ∈ it.fetched program, pc < program.size := by
  intro pc hpc
  unfold fetched at hpc
  split at hpc
  · cases hpc
  · obtain ⟨s, -, hinside, -, rfl⟩ := (mem_fetched_iff _).mp hpc
    exact hinside.2

/-- Only jumps that are not forward can use the step limit up.  A run all of whose jumps are forward
fetches from ascending offsets, hence no more often than the program has bytes, and if the step
limit is greater than that, the run is not cut off. -/
theorem forward_jumps_ascend (it : Interpreter) (program : Program)
    (hforward : ∀ s offset, it.TakesJump program s offset → 0 < offset.toInt) :
    (it.fetched program).Pairwise (· < ·) ∧ (it.fetched program).length ≤ program.size ∧
      (program.size < it.limits.maxSteps →
        ∀ m, (it.run program).1.result ≠ .error (.tooManySteps m)) := by
  have hascending : (it.fetched program).Pairwise (· < ·) := by
    unfold fetched
    split
    · exact List.Pairwise.nil
    · rename_i hlong
      exact (ascends_of_forward (Nat.not_lt.mp hlong) hforward).fetched_ascending
  refine ⟨hascending, ?_, ?_⟩
  · have hmem : it.fetched program ⊆ List.range program.size :=
      fun pc hpc => List.mem_range.mpr (it.lt_size_of_mem_fetched program pc hpc)
    have hle := length_fetched_le hmem hascending
    rw [List.length_range] at hle
    exact hle
  · intro hlimit m hcut
    rcases Nat.lt_or_ge it.limits.maxProgramLength program.size with hlong | hshort
    · rw [it.run_of_long program hlong] at hcut
      cases hcut
    · obtain ⟨s, hstopped, -⟩ := exists_stoppedAt hshort hcut
      have hinside := hstopped.inside
      have hsteps := hstopped.steps_eq.2
      have hpc := (ascends_of_forward hshort hforward).steps_le_pc hstopped.reached
      have hstart : (start it.stack).pc = 0 ∧ (start it.stack).steps = 0 := ⟨rfl, rfl⟩
      obtain ⟨hpos, hsize⟩ := hinside
      omega

/-- Jumps over the opcode of a push to its operand byte, which is the byte of CLEAR. -/
def jumpsAhead : Program :=
  #[0xB1, 2, 1, 0x78, 0xB0, 0x22]

/-- The only jump of the run is by 2. -/
theorem takesJump_jumpsAhead {s : State} {offset : Int32}
    (h : (Interpreter.new ⟨6, 4, 7⟩).TakesJump jumpsAhead s offset) : offset = 2 := by
  have hjumps := h.jumps
  rcases h.reached.eq_or_of_performed rfl with rfl | hreached
  · cases hjumps
  rcases hreached.eq_or_of_performed rfl with rfl | hreached
  · exact (Option.some.inj hjumps).symm
  rcases hreached.eq_or_of_performed rfl with rfl | hreached
  · cases hjumps
  rcases hreached.eq_of_last nofun with rfl
  cases hjumps

theorem forward_jumps_ascend_jumpsAhead :
    (∀ s offset, (Interpreter.new ⟨6, 4, 7⟩).TakesJump jumpsAhead s offset → 0 < offset.toInt) ∧
      (∃ s, (Interpreter.new ⟨6, 4, 7⟩).TakesJump jumpsAhead s 2) ∧
      ((Interpreter.new ⟨6, 4, 7⟩).fetched jumpsAhead).Pairwise (· < ·) ∧
      ((Interpreter.new ⟨6, 4, 7⟩).fetched jumpsAhead).length ≤ 6 ∧
      ∀ m, ((Interpreter.new ⟨6, 4, 7⟩).run jumpsAhead).1.result ≠ .error (.tooManySteps m) := by
  have hforward : ∀ s offset, (Interpreter.new ⟨6, 4, 7⟩).TakesJump jumpsAhead s offset →
      0 < offset.toInt := by
    intro s offset h
    rw [takesJump_jumpsAhead h]
    decide
  obtain ⟨hascending, hlength, hlimit⟩ := forward_jumps_ascend _ jumpsAhead hforward
  refine ⟨hforward, ?_, hascending, hlength, hlimit (by decide)⟩
  exact ⟨_, by decide, Reaches.single rfl, ⟨_, rfl⟩, rfl⟩

end Interpreter

end GlyphHint
