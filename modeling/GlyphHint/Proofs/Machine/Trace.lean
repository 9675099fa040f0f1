import GlyphHint.Proofs.Machine.Guard
import GlyphHint.Proofs.Machine.Record
import Mathlib.Data.List.Chain
set_option autoImplicit false

/-!
# Traces are faithful

The step events of a run are a record of its execution: they start at the start, each one leads to
the next one by executing its instruction on its stack, and the last one leads to the end of the run
or is the instruction that failed there (`Interpreter.trace_is_faithful`).  Which of the two depends
on whether the cause of the failure is met before or after the instruction is shown
(`Cause.beforeStart`).
-/

namespace GlyphHint

/-- The cause is met before the instruction starts, so that the instruction is not shown: no row of
the table, a row that is not run, or too few values on the stack. -/
def Cause.beforeStart : Cause → Bool
  | .unrecognized | .unimplemented | .stackUnderflow => true
  | .stackOverflow | .invalidData | .insufficientData | .divisionByZero | .unbalanced => false

/-- Executing the instruction of a moment on its stack leads to this program counter and stack. -/
def Moment.LeadsTo (program : Program) (m : Moment) (pc : Int) (stack : Stack) : Prop :=
  ∃ b op, program[m.pc]? = some b ∧ (Opcode.mk b).op? = some op ∧
    Action.perform program m.pc op m.stack = .ok pc stack

/-- The last one of the moments leads to this program counter and stack; before the first one they
are 0 and the empty stack. -/
def LastLeadsTo (program : Program) (moments : List Moment) (pc : Int) (stack : Stack) : Prop :=
  match moments.getLast? with
  | none => pc = 0 ∧ stack.toList = []
  | some m => m.LeadsTo program pc stack

/-- The moments follow the execution of the program. -/
structure FollowsExecution (program : Program) (moments : List Moment) : Prop where
  /-- each one has the mnemonic of the byte at its offset -/
  named : ∀ m ∈ moments, ∃ b, program[m.pc]? = some b ∧ (Opcode.mk b).mnemonic? = some m.mnemonic
  /-- each one has passed the checks before its instruction -/
  admitted : ∀ m ∈ moments, ∃ b op, program[m.pc]? = some b ∧
    (Opcode.mk b).admission m.stack.depth = .ok (m.mnemonic, op)
  /-- each one has as many values as its depth says -/
  depth : ∀ m ∈ moments, m.stack.depth = m.stack.toList.length
  /-- the first one is at offset 0 with an empty stack -/
  first : ∀ m ∈ moments.head?, m.pc = 0 ∧ m.stack.toList = []
  /-- each one leads to the next one -/
  chained : moments.IsChain fun m next => m.LeadsTo program next.pc next.stack

/-- The moments of a run under a step limit go as far as its outcome says. -/
def Outcome.EndsMoments (program : Program) (maxSteps : Nat) (moments : List Moment)
    (r : Outcome) : Prop :=
  match r.result with
  | .ok steps =>
    moments.length = steps ∧ ∃ pc stack, LastLeadsTo program moments pc stack ∧
      ¬ (0 ≤ pc ∧ pc.toNat < program.size) ∧ r.stack = stack.toList
  | .error (.stopped cause pc _) =>
    if cause.beforeStart then
      (∃ stack, LastLeadsTo program moments pc stack ∧ r.stack = stack.toList) ∧
        ∀ m ∈ moments, m.pc = pc → m.stack.toList ≠ r.stack
    else ∃ m, moments.getLast? = some m ∧ m.pc = pc ∧ r.stack = m.stack.toList
  | .error (.tooManySteps _) =>
    moments.length = max maxSteps 1 - 1 ∧ ∃ pc stack, LastLeadsTo program moments pc stack ∧
      r.stack = stack.toList
  | .error (.tooManyInstructions ..) => moments = [] ∧ r.stack = []

variable {program : Program} {moments : List Moment}

/-! ## Trails -/

theorem followsExecution_nil (program : Program) : FollowsExecution program [] where
  named := by simp
  admitted := by simp
  depth := by simp
  first := by simp
  chained := List.isChain_nil

/-- Moments that follow the execution are followed by the one that the last of them leads to. -/
theorem FollowsExecution.append (h : FollowsExecution program moments) {m : Moment} {b : UInt8}
    {op : Op} (hlast : LastLeadsTo program moments m.pc m.stack) (hbyte : program[m.pc]? = some b)
    (hadmission : (Opcode.mk b).admission m.stack.depth = .ok (m.mnemonic, op)) :
    FollowsExecution program (moments ++ [m]) := by
  constructor
  · intro m' hm'
    rcases List.mem_append.mp hm' with hm' | hm'
    · exact h.named m' hm'
    · obtain rfl := List.mem_singleton.mp hm'
      exact ⟨b, hbyte, Opcode.mnemonic?_of_admission hadmission⟩
  · intro m' hm'
    rcases List.mem_append.mp hm' with hm' | hm'
    · exact h.admitted m' hm'
    · obtain rfl := List.mem_singleton.mp hm'
      exact ⟨b, op, hbyte, hadmission⟩
  · intro m' _
    exact m'.stack.length_toList.symm
  · cases moments with
    | nil =>
      intro m' hm'
      obtain rfl : m = m' := Option.some.inj hm'
      obtain ⟨hpc, hempty⟩ := hlast
      exact ⟨Int.ofNat_eq_zero.mp hpc, hempty⟩
    | cons first rest => exact h.first
  · refine List.isChain_append.mpr ⟨h.chained, List.isChain_singleton m, ?_⟩
    intro m' hm' next hnext
    obtain rfl : m = next := Option.some.inj hnext
    unfold LastLeadsTo at hlast
    rw [hm'] at hlast
    exact hlast

namespace Machine

variable {limit : Nat} {s t : State}

/-- The moments follow the execution up to a state, one for each of its steps. -/
structure Trail (program : Program) (moments : List Moment) (s : State) : Prop where
  follows : FollowsExecution program moments
  last : LastLeadsTo program moments s.pc s.stack
  counted : moments.length = s.steps

theorem trail_start (program : Program) (stack : Stack) : Trail program [] (start stack) :=
  ⟨followsExecution_nil program, ⟨rfl, stack.toList_clear⟩, rfl⟩

/-- An instruction that finds its operands is shown, and its moment goes on with the trail. -/
theorem Trail.exists_shown (h : Trail program moments s) {b : UInt8} {op : Op} (hpc : 0 ≤ s.pc)
    (hbyte : program[s.pc.toNat]? = some b) (hlimit : s.steps + 1 < limit)
    (hop : (Opcode.mk b).op? = some op) (hdeep : op.pops ≤ s.stack.depth) :
    ∃ m, shown? program limit s = some m ∧ m.pc = s.pc.toNat ∧ m.stack = s.stack ∧
      FollowsExecution program (moments ++ [m]) := by
  obtain ⟨mnemonic, hadmission⟩ := Opcode.admission_of_deep hop hdeep
  have hlast := h.last
  rw [← Int.toNat_of_nonneg hpc] at hlast
  exact ⟨⟨s.pc.toNat, mnemonic, s.stack⟩, shown?_of_admission_ok hpc hbyte hlimit hadmission, rfl,
    rfl, h.follows.append hlast hbyte hadmission⟩

/-- A performed turn lengthens the trail by what it shows. -/
theorem Trail.performed (h : Trail program moments s)
    (hturn : turn program limit s = .performed t) :
    ∃ m, shown? program limit s = some m ∧ Trail program (moments ++ [m]) t := by
  obtain ⟨hpc, hlimit, hsteps, b, op, hbyte, hop, hdeep, hrun⟩ := turn_performed hturn
  obtain ⟨m, hshown, hmpc, hmstack, hfollows⟩ := h.exists_shown hpc hbyte hlimit hop hdeep
  refine ⟨m, hshown, hfollows, ?_, ?_⟩
  · unfold LastLeadsTo
    rw [List.getLast?_concat]
    rw [← hmpc] at hbyte hrun
    rw [← hmstack] at hrun
    exact ⟨b, op, hbyte, hop, hrun⟩
  · rw [List.length_append, List.length_singleton, h.counted, hsteps]

/-- A run that comes to a state has shown a trail that leads there. -/
theorem Reaches.exists_trail {stack : Stack} (h : Reaches program limit (start stack) s) :
    ∃ moments, Trail program moments s ∧
      record program limit (start stack) = (record program limit s).map (moments ++ ·) := by
  induction h with
  | refl => exact ⟨[], trail_start program stack, rfl⟩
  | @tail u v _ hlast ih =>
    obtain ⟨moments, htrail, hrecord⟩ := ih
    obtain ⟨m, hshown, htrail'⟩ := htrail.performed hlast
    refine ⟨moments ++ [m], htrail', ?_⟩
    rw [hrecord, record_of_performed hlast, hshown]
    simp only [Ending.map, Option.toList_some, List.append_assoc]

/-! ## Where the trail ends -/

/-- A cause for which an opcode is not admitted is met before the instruction starts. -/
theorem beforeStart_of_admission_error {o : Opcode} {depth : Nat} {cause : Cause}
    (h : o.admission depth = .error cause) : cause.beforeStart = true := by
  unfold Opcode.admission at h
  split at h
  · cases h
    rfl
  · cases h
    rfl
  · split at h
    · cases h
      rfl
    · cases h

/-- A cause for which an operation is refused is met after the instruction has been shown. -/
theorem beforeStart_of_perform_error {o : Opcode} {op : Op} {pc : Nat} {stack left : Stack}
    {cause : Cause} (hop : o.op? = some op) (hdeep : op.pops ≤ stack.depth)
    (h : Action.perform program pc op stack = .error cause left) : cause.beforeStart = false := by
  have heffect := (Action.effect_of_perform_error hdeep h).1
  have hrefused := (op.refused_iff_effect program pc hdeep cause).mpr heffect
  have hguard : o.Refused program pc stack cause := (Opcode.refused_iff hop).mpr hrefused
  cases cause with
  | unrecognized => exact hguard.elim
  | unimplemented => exact hguard.elim
  | stackUnderflow => exact hguard.elim
  | _ => rfl

/-- The moments of a run follow its execution and end where the run ends. -/
theorem Ends.follows {stack left : Stack} {r : Except Fault Nat}
    (h : Ends program limit (start stack) r left) :
    FollowsExecution program (record program limit (start stack)).seen ∧
      (Outcome.mk r left.toList).EndsMoments program limit
        (record program limit (start stack)).seen := by
  cases h with
  | @finished t reached last =>
    obtain ⟨moments, htrail, hrecord⟩ := reached.exists_trail
    have houtside := turn_finished last
    have hseen : (record program limit (start stack)).seen = moments := by
      rw [hrecord, record_of_finished last, shown?_of_outside houtside]
      exact List.append_nil moments
    rw [hseen]
    exact ⟨htrail.follows, htrail.counted, t.pc, t.stack, htrail.last, houtside, rfl⟩
  | @failed t fault _ reached last =>
    obtain ⟨moments, htrail, hrecord⟩ := reached.exists_trail
    obtain rfl := stack_of_turn_failed last
    have hseen : (record program limit (start stack)).seen =
        moments ++ (shown? program limit t).toList := by
      rw [hrecord, record_of_failed last]
      rfl
    rw [hseen]
    rcases turn_failed last with ⟨hinside, ⟨hlimit, rfl, -⟩ |
      ⟨hlimit, b, cause, hbyte, rfl, ⟨hadmission, -⟩ | ⟨op, hop, hdeep, hrun⟩⟩⟩
    · -- The run is cut off.
      have hsteps := steps_of_turn_tooManySteps last (reached.steps_le (Nat.zero_le _))
      rw [shown?_of_limit hlimit, Option.toList_none, List.append_nil]
      exact ⟨htrail.follows, htrail.counted.trans hsteps.2, t.pc, t.stack, htrail.last, rfl⟩
    · -- The instruction fails before its start and is not shown.
      have hpc : (t.pc.toNat : Int) = t.pc := Int.toNat_of_nonneg hinside.1
      rw [shown?_of_admission_error hbyte hadmission, Option.toList_none, List.append_nil]
      refine ⟨htrail.follows, ?_⟩
      simp only [Outcome.EndsMoments, beforeStart_of_admission_error hadmission, if_true]
      refine ⟨⟨t.stack, hpc ▸ htrail.last, rfl⟩, ?_⟩
      intro m hm hmpc hvalues
      -- Its instruction would have been admitted.
      obtain ⟨b', op, hbyte', hadmission'⟩ := htrail.follows.admitted m hm
      rw [hmpc, hbyte] at hbyte'
      cases hbyte'
      rw [← Stack.length_toList, hvalues, Stack.length_toList, hadmission] at hadmission'
      cases hadmission'
    · -- The instruction fails after it has been shown.
      obtain ⟨m, hshown, hmpc, hmstack, hfollows⟩ :=
        htrail.exists_shown hinside.1 hbyte hlimit hop hdeep
      rw [hshown, Option.toList_some]
      refine ⟨hfollows, ?_⟩
      simp only [Outcome.EndsMoments, beforeStart_of_perform_error hop hdeep hrun]
      exact ⟨m, List.getLast?_concat, hmpc, by rw [hmstack]⟩

end Machine

namespace Interpreter

open Machine

/-- The trace of a run is faithful.  Its events are one start with the length of the program, the
step events, and one end that reports the outcome of the run.  Whatever a view makes of the stack,
the step events are those of moments that follow the execution of the program, and the moments go as
far as the outcome says: on success they are as many as the steps and the last one leads to the
final stack outside of the program; an instruction that fails after its start is the last moment,
with the final stack; one that fails before its start has no moment and is where the last moment
leads to; and a run that is cut off has as many moments as the limit leaves steps. -/
theorem trace_is_faithful (it : Interpreter) (program : Program) :
    ∃ moments : List Moment,
      (∀ (σ : Type) (view : Stack → σ),
        (it.trace view program).1.toList =
          .started program.size ::
            (moments.map (Moment.event view) ++ [(it.run program).1.event]) ∧
        (it.trace view program).2 = (it.run program).1) ∧
      FollowsExecution program moments ∧
      (it.run program).1.EndsMoments program it.limits.maxSteps moments := by
  refine ⟨(it.record program).seen, ?_, ?_⟩
  · intro σ view
    exact ⟨it.events_trace program view, it.outcome_trace program view⟩
  · rcases Nat.lt_or_ge it.limits.maxProgramLength program.size with hlong | hshort
    · rw [it.record_of_long program hlong, it.run_of_long program hlong]
      exact ⟨followsExecution_nil program, rfl, rfl⟩
    · rw [it.record_of_short program hshort]
      exact (it.ends_run program hshort).follows

end Interpreter

end GlyphHint
