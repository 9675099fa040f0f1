import GlyphHint.Proofs.Machine.Failure
set_option autoImplicit false

/-!
# Which guard an instruction meets

Whether an instruction can be performed is decided by guards on its byte, on the bytes behind it and
on the values on the stack, tried in a fixed order.  `Opcode.Stops` and `Machine.Fails` write the
guards down in that order, without performing anything.  A turn fails with a fault exactly if the
guards say so and performs its instruction if no guard applies (`Machine.turn_failed_iff`,
`Machine.turn_performed_iff`).
-/

namespace GlyphHint

namespace Opcode

/-- The guards of an instruction that finds its operands.  No instruction has more than one of them,
except that a push first wants room for its values and then wants their bytes. -/
def Refused (o : Opcode) (program : Program) (pc : Nat) (stack : Stack) : Cause → Prop
  | .stackOverflow =>
    -- DUP and DEPTH put one value on top, a push as many as it says.
    ((o.byte = 0x20 ∨ o.byte = 0x24) ∧ stack.depth = stack.capacity) ∨
      ∃ shape n, o.pushShape? = some shape ∧ program.pushCount? pc shape = some n ∧
        stack.capacity - stack.depth < n
  | .insufficientData =>
    ∃ shape, o.pushShape? = some shape ∧
      (program.pushCount? pc shape = none ∨
        ∃ n, program.pushCount? pc shape = some n ∧ n ≤ stack.capacity - stack.depth ∧
          program.size < pc + shape.size n)
  | .invalidData =>
    -- CINDEX and MINDEX
    (o.byte = 0x25 ∨ o.byte = 0x26) ∧
      ∃ x, stack.peek? 0 = some x ∧ ¬ (0 < x.toInt ∧ x.toInt < stack.depth)
  | .divisionByZero => o.byte = 0x62 ∧ stack.peek? 0 = some 0
  | .unbalanced =>
    -- ELSE, and IF where it leaves its arm out
    (o.byte = 0x1B ∧ Branch.matching? program pc false = none) ∨
      (o.byte = 0x58 ∧ stack.peek? 0 = some 0 ∧ Branch.matching? program pc true = none)
  | .unrecognized | .unimplemented | .stackUnderflow => False

/-- The guards of an instruction in their order; each one is tried where those before it let the
instruction pass. -/
inductive Stops (o : Opcode) (program : Program) (pc : Nat) (stack : Stack) : Cause → Prop where
  | unrecognized (h : o.entry? = none) : Stops o program pc stack .unrecognized
  | unimplemented {entry : Entry} (hentry : o.entry? = some entry)
      (h : entry.support = .unimplemented) : Stops o program pc stack .unimplemented
  | stackUnderflow {entry : Entry} {op : Op} (hentry : o.entry? = some entry)
      (hruns : entry.support = .runs op) (h : stack.depth < op.pops) :
      Stops o program pc stack .stackUnderflow
  | refused {entry : Entry} {op : Op} {cause : Cause} (hentry : o.entry? = some entry)
      (hruns : entry.support = .runs op) (hdeep : op.pops ≤ stack.depth)
      (h : o.Refused program pc stack cause) : Stops o program pc stack cause

end Opcode

/-- The guards of a turn in the program: the step limit and then those of the instruction. -/
inductive Machine.Fails (program : Program) (limit : Nat) (s : Machine.State) : Fault → Prop where
  | tooManySteps (h : limit ≤ s.steps + 1) : Fails program limit s (.tooManySteps limit)
  | stopped {b : UInt8} {cause : Cause} (hlimit : s.steps + 1 < limit)
      (hbyte : program[s.pc.toNat]? = some b)
      (h : (Opcode.mk b).Stops program s.pc.toNat s.stack cause) :
      Fails program limit s (.stopped cause s.pc.toNat ⟨b⟩)

/-! ## The guards of one operation -/

/-- The guards of an operation that finds its operands. -/
def Op.Refused (op : Op) (program : Program) (pc : Nat) (stack : Stack) (cause : Cause) : Prop :=
  match op with
  | .dup | .depth => cause = .stackOverflow ∧ stack.depth = stack.capacity
  | .push shape =>
    (cause = .stackOverflow ∧
      ∃ n, program.pushCount? pc shape = some n ∧ stack.capacity - stack.depth < n) ∨
    (cause = .insufficientData ∧
      (program.pushCount? pc shape = none ∨
        ∃ n, program.pushCount? pc shape = some n ∧ n ≤ stack.capacity - stack.depth ∧
          program.size < pc + shape.size n))
  | .copyIndexed | .moveIndexed =>
    cause = .invalidData ∧ ∃ x, stack.peek? 0 = some x ∧ ¬ (0 < x.toInt ∧ x.toInt < stack.depth)
  | .divide => cause = .divisionByZero ∧ stack.peek? 0 = some 0
  | .elseArm => cause = .unbalanced ∧ Branch.matching? program pc false = none
  | .ifNonzero =>
    cause = .unbalanced ∧ stack.peek? 0 = some 0 ∧ Branch.matching? program pc true = none
  | _ => False

namespace Opcode

variable {o : Opcode} {op : Op} {program : Program} {pc : Nat} {stack : Stack} {cause : Cause}

theorem byte_eq_iff {other : Op} {b : UInt8} (hop : o.op? = some op)
    (h : other.byte? = some b) : o.byte = b ↔ op = other := by
  rw [← op?_eq_some_iff h, hop, Option.some_inj]

/-- The guards on the byte are the guards of its operation. -/
theorem refused_iff (hop : o.op? = some op) :
    o.Refused program pc stack cause ↔ op.Refused program pc stack cause := by
  have hpush : ∀ shape, o.pushShape? = some shape ↔ op = .push shape := by
    intro shape
    rw [pushShape?_eq_some_iff, hop, Option.some_inj]
  have hdup : o.byte = 0x20 ↔ op = .dup := byte_eq_iff hop rfl
  have hdepth : o.byte = 0x24 ↔ op = .depth := byte_eq_iff hop rfl
  have hcopy : o.byte = 0x25 ↔ op = .copyIndexed := byte_eq_iff hop rfl
  have hmove : o.byte = 0x26 ↔ op = .moveIndexed := byte_eq_iff hop rfl
  have hdivide : o.byte = 0x62 ↔ op = .divide := byte_eq_iff hop rfl
  have helse : o.byte = 0x1B ↔ op = .elseArm := byte_eq_iff hop rfl
  have hif : o.byte = 0x58 ↔ op = .ifNonzero := byte_eq_iff hop rfl
  cases cause <;>
    simp only [Refused, hpush, hdup, hdepth, hcopy, hmove, hdivide, helse, hif] <;>
    cases op <;> simp [Op.Refused]

end Opcode

/-! ## The guards decide what an operation does -/

/-- A result that is an error under one condition only is decided by that condition. -/
theorem error_iff_of_guard {α : Type} {r : Except Cause α} {c cause : Cause} {G : Prop}
    (hrefused : G → r = .error c) (hpassed : ¬ G → ∃ a, r = .ok a) :
    cause = c ∧ G ↔ r = .error cause := by
  constructor
  · rintro ⟨rfl, hG⟩
    exact hrefused hG
  · intro hr
    by_cases hG : G
    · rw [hrefused hG] at hr
      exact ⟨(Except.error.inj hr).symm, hG⟩
    · obtain ⟨a, ha⟩ := hpassed hG
      cases ha.symm.trans hr

/-- An index is refused exactly where no value lies at the place that it names. -/
theorem index_error_iff {α : Type} {stack : Stack} {x : Int32} {vs : List Int32}
    (h : stack.topFirst = x :: vs) (cause : Cause) (f : Int32 → α) :
    (cause = .invalidData ∧
        ∃ x, stack.peek? 0 = some x ∧ ¬ (0 < x.toInt ∧ x.toInt < stack.depth)) ↔
      (match vs[x.toInt.toNat - 1]? with
        | some v => if 0 < x.toInt then .ok (f v) else .error .invalidData
        | none => .error .invalidData) = Except.error cause := by
  have hdepth : stack.depth = vs.length + 1 := stack.depth_of_topFirst h
  have htop : stack.peek? 0 = some x := by rw [stack.peek?_eq_topFirst, h]; rfl
  apply error_iff_of_guard
  · rintro ⟨y, hy, hindex⟩
    cases htop.symm.trans hy
    split
    · rename_i v hv
      have hplace := (List.getElem?_eq_some_iff.mp hv).1
      exact if_neg (by omega)
    · rfl
  · intro hindex
    have hinside : 0 < x.toInt ∧ x.toInt < stack.depth :=
      Decidable.byContradiction fun hout => hindex ⟨x, htop, hout⟩
    have hplace : x.toInt.toNat - 1 < vs.length := by omega
    rw [List.getElem?_eq_getElem hplace]
    exact ⟨_, if_pos hinside.1⟩

namespace Op

section Refused

variable (program : Program) (pc : Nat) {stack : Stack} (cause : Cause)

theorem refused_ifNonzero_iff (hdeep : 1 ≤ stack.depth) :
    Op.ifNonzero.Refused program pc stack cause ↔
      Op.ifNonzero.effect program pc stack.capacity stack.topFirst = .error cause := by
  obtain ⟨condition, vs, h⟩ := stack.exists_cons hdeep
  rw [Refused, stack.peek?_eq_topFirst, h]
  apply error_iff_of_guard
  · rintro ⟨hzero, hmatch⟩
    simp only [effect, Option.some.inj hzero, if_true, hmatch]
  · intro hguard
    by_cases hzero : condition = 0
    · have hmatch : Branch.matching? program pc true ≠ none := by
        intro hnone
        exact hguard ⟨congrArg some hzero, hnone⟩
      obtain ⟨offset, hoffset⟩ := Option.ne_none_iff_exists'.mp hmatch
      exact ⟨_, by simp only [effect, hzero, if_true, hoffset]; rfl⟩
    · exact ⟨_, by simp only [effect, hzero, if_false]; rfl⟩

theorem refused_divide_iff (hdeep : 2 ≤ stack.depth) :
    Op.divide.Refused program pc stack cause ↔
      Op.divide.effect program pc stack.capacity stack.topFirst = .error cause := by
  obtain ⟨b, a, vs, h⟩ := stack.exists_cons_cons hdeep
  rw [Refused, stack.peek?_eq_topFirst, h]
  apply error_iff_of_guard
  · intro hzero
    simp only [effect, (Fixed.div?_eq_none_iff a b).mpr (Option.some.inj hzero)]
  · intro hzero
    have hquotient : Fixed.div? a b ≠ none := by
      intro hnone
      exact hzero (congrArg some ((Fixed.div?_eq_none_iff a b).mp hnone))
    obtain ⟨q, hq⟩ := Option.ne_none_iff_exists'.mp hquotient
    exact ⟨_, by simp only [effect, hq]; rfl⟩

theorem refused_push_iff (shape : PushShape) (stack : Stack) :
    (Op.push shape).Refused program pc stack cause ↔
      (Op.push shape).effect program pc stack.capacity stack.topFirst = .error cause := by
  have hcapacity := stack.depth_le_capacity
  simp only [Refused, effect, stack.length_topFirst]
  cases program.pushCount? pc shape with
  | none => simp [eq_comm]
  | some n =>
    simp only [Option.some.injEq, exists_eq_left', reduceCtorEq, false_or]
    -- Room is wanted before operand bytes, so a push that lacks both overflows.
    rcases Nat.lt_or_ge stack.capacity (stack.depth + n) with hfull | hfull
    · have hroom : stack.capacity - stack.depth < n := by omega
      rw [if_pos hfull]
      simp [hroom, Nat.not_le.mpr hroom, eq_comm]
    · have hroom : n ≤ stack.capacity - stack.depth := by omega
      rw [if_neg (Nat.not_lt.mpr hfull)]
      rcases Nat.lt_or_ge program.size (pc + shape.size n) with hlong | hfits
      · rw [if_neg (Nat.not_le.mpr hlong)]
        simp [hroom, Nat.not_lt.mpr hroom, hlong, eq_comm]
      · rw [if_pos hfits]
        simp [Nat.not_lt.mpr hroom, Nat.not_lt.mpr hfits]

end Refused

/-- An operation that finds its operands is refused exactly by its guards. -/
theorem refused_iff_effect (op : Op) (program : Program) (pc : Nat) {stack : Stack}
    (hdeep : op.pops ≤ stack.depth) (cause : Cause) :
    op.Refused program pc stack cause ↔
      op.effect program pc stack.capacity stack.topFirst = .error cause := by
  have hcapacity := stack.depth_le_capacity
  cases op with
  | elseArm =>
    apply error_iff_of_guard
    · intro hmatch
      simp only [effect, hmatch]
    · intro hmatch
      obtain ⟨offset, hoffset⟩ := Option.ne_none_iff_exists'.mp hmatch
      exact ⟨_, by simp only [effect, hoffset]; rfl⟩
  | ifNonzero => exact refused_ifNonzero_iff program pc cause hdeep
  | dup =>
    obtain ⟨v, vs, h⟩ := stack.exists_cons hdeep
    have hdepth : stack.depth = vs.length + 1 := stack.depth_of_topFirst h
    rw [Refused, h, hdepth]
    apply error_iff_of_guard
    · intro hfull
      exact if_neg (by omega)
    · intro hroom
      exact ⟨_, if_pos (by omega)⟩
  | depth =>
    apply error_iff_of_guard
    · intro hfull
      exact if_neg (by rw [stack.length_topFirst]; omega)
    · intro hroom
      exact ⟨_, if_pos (by rw [stack.length_topFirst]; omega)⟩
  | copyIndexed =>
    obtain ⟨x, vs, h⟩ := stack.exists_cons hdeep
    have hiff := index_error_iff h cause fun v => ((pc : Int) + 1, v :: vs)
    rw [h]
    exact hiff
  | moveIndexed =>
    obtain ⟨x, vs, h⟩ := stack.exists_cons hdeep
    have hiff := index_error_iff h cause
      fun v => ((pc : Int) + 1, v :: vs.eraseIdx (x.toInt.toNat - 1))
    rw [h]
    exact hiff
  | divide => exact refused_divide_iff program pc cause hdeep
  | push shape => exact refused_push_iff program pc cause shape stack
  | endIf => simp [Refused, effect]
  | debug => simp [Refused, effect]
  | clear => simp [Refused, effect]
  | jump =>
    obtain ⟨offset, vs, h⟩ := stack.exists_cons hdeep
    simp [Refused, effect, h]
  | pop =>
    obtain ⟨v, vs, h⟩ := stack.exists_cons hdeep
    simp [Refused, effect, h]
  | unary f =>
    obtain ⟨a, vs, h⟩ := stack.exists_cons hdeep
    simp [Refused, effect, h]
  | jumpWhen truth =>
    obtain ⟨condition, offset, vs, h⟩ := stack.exists_cons_cons hdeep
    simp [Refused, effect, h]
  | swap =>
    obtain ⟨b, a, vs, h⟩ := stack.exists_cons_cons hdeep
    simp [Refused, effect, h]
  | binary f =>
    obtain ⟨b, a, vs, h⟩ := stack.exists_cons_cons hdeep
    simp [Refused, effect, h]

end Op

/-! ## The guards decide what a turn comes to -/

namespace Opcode

variable {o : Opcode} {program : Program} {pc : Nat} {stack : Stack} {cause : Cause}

/-- An opcode that is not admitted meets the first guard that it does not pass. -/
theorem stops_of_admission_error (h : o.admission stack.depth = .error cause) :
    o.Stops program pc stack cause := by
  unfold admission at h
  split at h
  · rename_i hentry
    cases h
    exact .unrecognized hentry
  · rename_i hentry
    cases h
    exact .unimplemented hentry rfl
  · rename_i hentry
    split at h
    · rename_i hshallow
      cases h
      exact .stackUnderflow hentry rfl hshallow
    · cases h

end Opcode

namespace Machine

variable {program : Program} {limit : Nat} {s t : State} {fault : Fault}

/-- A turn in the program fails with a fault exactly if its guards say so. -/
theorem turn_failed_iff (hinside : s.Inside program) :
    (∃ stack, turn program limit s = .failed fault stack) ↔ Fails program limit s fault := by
  constructor
  · rintro ⟨stack, hturn⟩
    rcases turn_failed hturn with ⟨-, hcase⟩
    rcases hcase with ⟨hlimit, rfl, -⟩ | ⟨hlimit, b, cause, hbyte, rfl, hadmission | hperform⟩
    · exact .tooManySteps hlimit
    · exact .stopped hlimit hbyte (Opcode.stops_of_admission_error hadmission.1)
    · rcases hperform with ⟨op, hop, hdeep, hrun⟩
      obtain ⟨first, last, mnemonic, hentry⟩ := Opcode.entry?_of_op? hop
      have heffect := (Action.effect_of_perform_error hdeep hrun).1
      have hrefused := (op.refused_iff_effect program s.pc.toNat hdeep cause).mpr heffect
      exact .stopped hlimit hbyte
        (.refused hentry rfl hdeep ((Opcode.refused_iff hop).mpr hrefused))
  · intro hfails
    cases hfails with
    | tooManySteps hlimit => exact ⟨_, turn_of_limit hinside hlimit⟩
    | @stopped b cause hlimit hbyte hstops =>
      have hpc : 0 ≤ s.pc := hinside.1
      cases hstops with
      | unrecognized hentry =>
        refine ⟨_, turn_of_admission_error hpc hbyte hlimit ?_⟩
        unfold Opcode.admission
        rw [hentry]
      | @unimplemented entry hentry hsupport =>
        refine ⟨_, turn_of_admission_error hpc hbyte hlimit ?_⟩
        obtain ⟨first, last, mnemonic, support⟩ := entry
        cases hsupport
        unfold Opcode.admission
        rw [hentry]
      | stackUnderflow hentry hruns hshallow =>
        have hadmission :=
          Opcode.admission_of_shallow (Opcode.op?_of_entry? hentry hruns) hshallow
        exact ⟨_, turn_of_admission_error hpc hbyte hlimit hadmission⟩
      | @refused entry op cause hentry hruns hdeep hrefused =>
        have hop := Opcode.op?_of_entry? hentry hruns
        have heffect := (op.refused_iff_effect program s.pc.toNat hdeep cause).mp
          ((Opcode.refused_iff hop).mp hrefused)
        have hrun := Action.perform_of_effect_error hdeep heffect
        refine ⟨s.stack, ?_⟩
        rw [turn_of_op hpc hbyte hlimit hop hdeep, hrun]

/-- A turn in the program performs its instruction exactly if no guard applies. -/
theorem turn_performed_iff (hinside : s.Inside program) :
    (∃ t, turn program limit s = .performed t) ↔ ∀ fault, ¬ Fails program limit s fault := by
  constructor
  · rintro ⟨t, hturn⟩ fault hfails
    obtain ⟨stack, hfailed⟩ := (turn_failed_iff hinside).mpr hfails
    rw [hturn] at hfailed
    cases hfailed
  · intro hfails
    cases hturn : turn program limit s with
    | finished => exact absurd hinside (turn_finished hturn)
    | failed fault stack =>
      exact absurd ((turn_failed_iff hinside).mp ⟨stack, hturn⟩) (hfails fault)
    | performed t => exact ⟨t, rfl⟩

end Machine

namespace Interpreter

open Machine

/-- The fault of a run is the one of its first state that meets a guard. -/
theorem run_error_iff (it : Interpreter) (program : Program) (fault : Fault)
    (hshort : program.size ≤ it.limits.maxProgramLength) :
    (it.run program).1.result = .error fault ↔
      ∃ s, Reaches program it.limits.maxSteps (start it.stack) s ∧ s.Inside program ∧
        Fails program it.limits.maxSteps s fault := by
  constructor
  · intro h
    obtain ⟨s, hstopped, -⟩ := exists_stoppedAt hshort h
    have hfails := (turn_failed_iff hstopped.inside).mp ⟨s.stack, hstopped.failed⟩
    exact ⟨s, hstopped.reached, hstopped.inside, hfails⟩
  · rintro ⟨s, hreached, hinside, hfails⟩
    obtain ⟨stack, hturn⟩ := (turn_failed_iff hinside).mpr hfails
    rw [it.run_of_ends program hshort (.failed hreached hturn)]

/-- The guards in their order decide every turn in the program, and with it the fault of every run:
a turn fails with a fault exactly if the guards say so, performs its instruction exactly if none
applies, and a run fails exactly if the program is too long or a state that it comes to meets a
guard. -/
theorem guards_decide :
    (∀ (program : Program) (limit : Nat) (s : State), s.Inside program →
      (∀ fault, (∃ stack, turn program limit s = .failed fault stack) ↔
        Fails program limit s fault) ∧
      ((∃ t, turn program limit s = .performed t) ↔ ∀ fault, ¬ Fails program limit s fault)) ∧
    ∀ (it : Interpreter) (program : Program) (fault : Fault),
      (it.run program).1.result = .error fault ↔
        (it.limits.maxProgramLength < program.size ∧
          fault = .tooManyInstructions program.size it.limits.maxProgramLength) ∨
        (program.size ≤ it.limits.maxProgramLength ∧
          ∃ s, Reaches program it.limits.maxSteps (start it.stack) s ∧ s.Inside program ∧
            Fails program it.limits.maxSteps s fault) := by
  constructor
  · intro program limit s hinside
    exact ⟨fun fault => turn_failed_iff hinside, turn_performed_iff hinside⟩
  · intro it program fault
    rcases Nat.lt_or_ge it.limits.maxProgramLength program.size with hlong | hshort
    · rw [it.run_of_long program hlong]
      simp [hlong, Nat.not_le.mpr hlong, eq_comm]
    · rw [it.run_error_iff program fault hshort]
      simp [hshort, Nat.not_lt.mpr hshort]

/-- Pushes three values, of which the program holds one. -/
def shortPush : Program :=
  #[0x40, 3, 7]

theorem guards_decide_shortPush :
    (start (Stack.empty 2)).Inside shortPush ∧
      (∃ stack, turn shortPush 9 (start (Stack.empty 2)) =
        .failed (.stopped .stackOverflow 0 ⟨0x40⟩) stack) ∧
      ¬ Fails shortPush 9 (start (Stack.empty 2)) (.stopped .insufficientData 0 ⟨0x40⟩) := by
  have hinside : (start (Stack.empty 2)).Inside shortPush := by decide
  have hguards := guards_decide.1 shortPush 9 (start (Stack.empty 2)) hinside
  have hoverflow :
      Fails shortPush 9 (start (Stack.empty 2)) (.stopped .stackOverflow 0 ⟨0x40⟩) := by
    have hentry : Opcode.entry? ⟨0x40⟩ =
        some (.single 0x40 "NPUSHB" (.push ⟨.byte, .prefixed⟩)) := rfl
    apply Fails.stopped (by decide) rfl
    apply Opcode.Stops.refused hentry rfl
    · decide
    · exact Or.inr ⟨⟨.byte, .prefixed⟩, 3, rfl, rfl, by decide⟩
  obtain ⟨stack, hturn⟩ := (hguards.1 _).mpr hoverflow
  refine ⟨hinside, ⟨stack, hturn⟩, ?_⟩
  intro hmissing
  obtain ⟨stack', hturn'⟩ := (hguards.1 _).mpr hmissing
  rw [hturn] at hturn'
  cases hturn'

end Interpreter

end GlyphHint
