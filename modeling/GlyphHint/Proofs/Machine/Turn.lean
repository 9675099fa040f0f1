import GlyphHint.Interpreter
import GlyphHint.Proofs.Opcode.Encoding
import Mathlib.Logic.Relation
set_option autoImplicit false

/-!
# Turns of a run

A run is a loop of turns.  `Machine.turn` is one turn as a function of the state at the head of the
loop, and `Machine.loopFrom_eq_turn` says that the loop does one turn after another.  From there on
a run is a chain of performed turns (`Machine.Reaches`) up to a state whose turn finishes or fails
(`Machine.Ends`).  The interpreter's outcome is the end of the chain from its start state
(`Interpreter.ends_run`), and whatever ends the chain is the outcome (`Interpreter.run_of_ends`).
-/

namespace GlyphHint

namespace Machine

/-- A machine at the head of its loop. -/
structure State where
  pc : Int
  /-- the number of instructions performed so far -/
  steps : Nat
  stack : Stack

/-- The program counter lies in the program. -/
def State.Inside (s : State) (program : Program) : Prop :=
  0 ≤ s.pc ∧ s.pc.toNat < program.size

instance (s : State) (program : Program) : Decidable (s.Inside program) :=
  inferInstanceAs (Decidable (_ ∧ _))

/-- What one turn of a run comes to. -/
inductive Turn where
  /-- the program counter has left the program -/
  | finished
  /-- the run fails and leaves this stack -/
  | failed (fault : Fault) (stack : Stack)
  /-- one more instruction has been performed -/
  | performed (next : State)

/-- One turn: charges a step, admits the instruction and performs it. -/
def turn (program : Program) (limit : Nat) (s : State) : Turn :=
  if h : 0 ≤ s.pc ∧ s.pc.toNat < program.size then
    if limit ≤ s.steps + 1 then .failed (.tooManySteps limit) s.stack
    else
      have hsize : s.pc.toNat < program.size := h.2
      let opcode : Opcode := ⟨program[s.pc.toNat]⟩
      match opcode.admission s.stack.depth with
      | .error cause => .failed (.stopped cause s.pc.toNat opcode) s.stack
      | .ok (_, op) =>
        match Action.perform program s.pc.toNat op s.stack with
        | .error cause stack => .failed (.stopped cause s.pc.toNat opcode) stack
        | .ok next stack => .performed ⟨next, s.steps + 1, stack⟩
  else .finished

/-- What a turn shows to the observer: the instruction it admits, if it comes that far. -/
def shown? (program : Program) (limit : Nat) (s : State) : Option Moment :=
  if h : 0 ≤ s.pc ∧ s.pc.toNat < program.size then
    if limit ≤ s.steps + 1 then none
    else
      have hsize : s.pc.toNat < program.size := h.2
      match (Opcode.mk program[s.pc.toNat]).admission s.stack.depth with
      | .error _ => none
      | .ok (mnemonic, _) => some ⟨s.pc.toNat, mnemonic, s.stack⟩
  else none

/-- The loop from a state on, as a run under this step limit enters it. -/
def loopFrom {α : Type} (observe : α → Moment → α) (program : Program) (limit : Nat) (s : State)
    (seen : α) : Ending α :=
  loop observe program limit (limit - 1 - s.steps) s.pc s.steps s.stack seen

/-- The loop does one turn and goes on from the state after it. -/
theorem loopFrom_eq_turn {α : Type} (observe : α → Moment → α) (program : Program) (limit : Nat)
    (s : State) (seen : α) :
    loopFrom observe program limit s seen =
      let seen' := (shown? program limit s).elim seen (observe seen)
      match turn program limit s with
      | .finished => ⟨.ok s.steps, s.stack, seen'⟩
      | .failed fault stack => ⟨.error fault, stack, seen'⟩
      | .performed next => loopFrom observe program limit next seen' := by
  unfold loopFrom turn shown?
  rw [loop.eq_def]
  by_cases hinside : 0 ≤ s.pc ∧ s.pc.toNat < program.size
  · simp only [hinside, and_self, dite_true]
    by_cases hlimit : limit ≤ s.steps + 1
    · have hleft : limit - 1 - s.steps = 0 := by omega
      simp only [hleft, hlimit, if_true, Option.elim_none]
    · -- One unit of fuel is one step below the limit.
      have hleft : limit - 1 - s.steps = limit - 1 - (s.steps + 1) + 1 := by omega
      simp only [hleft, hlimit, if_false]
      cases (Opcode.mk program[s.pc.toNat]).admission s.stack.depth with
      | error cause => rfl
      | ok admitted =>
        simp only [Option.elim_some]
        cases Action.perform program s.pc.toNat admitted.2 s.stack with
        | error cause stack => rfl
        | ok next stack => rfl
  · simp only [hinside, dite_false, Option.elim_none]

/-! ## What a turn can come to -/

variable {program : Program} {limit : Nat} {s t : State}

theorem turn_of_outside (h : ¬ s.Inside program) : turn program limit s = .finished := by
  unfold turn
  exact dif_neg h

theorem turn_of_limit (h : s.Inside program) (hlimit : limit ≤ s.steps + 1) :
    turn program limit s = .failed (.tooManySteps limit) s.stack := by
  obtain ⟨hpc, hsize⟩ := h
  unfold turn
  rw [dif_pos ⟨hpc, hsize⟩, if_pos hlimit]

/-- Below the step limit a turn fetches a byte, admits its opcode and performs its operation. -/
theorem turn_of_fetch {b : UInt8} (hpc : 0 ≤ s.pc) (hbyte : program[s.pc.toNat]? = some b)
    (hlimit : s.steps + 1 < limit) :
    turn program limit s =
      match (Opcode.mk b).admission s.stack.depth with
      | .error cause => .failed (.stopped cause s.pc.toNat ⟨b⟩) s.stack
      | .ok (_, op) =>
        match Action.perform program s.pc.toNat op s.stack with
        | .error cause stack => .failed (.stopped cause s.pc.toNat ⟨b⟩) stack
        | .ok next stack => .performed ⟨next, s.steps + 1, stack⟩ := by
  obtain ⟨hsize, rfl⟩ := Array.getElem?_eq_some_iff.mp hbyte
  unfold turn
  rw [dif_pos ⟨hpc, hsize⟩, if_neg (Nat.not_le.mpr hlimit)]

theorem turn_of_admission_error {b : UInt8} {cause : Cause} (hpc : 0 ≤ s.pc)
    (hbyte : program[s.pc.toNat]? = some b) (hlimit : s.steps + 1 < limit)
    (hadmission : (Opcode.mk b).admission s.stack.depth = .error cause) :
    turn program limit s = .failed (.stopped cause s.pc.toNat ⟨b⟩) s.stack := by
  rw [turn_of_fetch hpc hbyte hlimit, hadmission]

/-- An opcode whose operation finds its operands does whatever the operation does. -/
theorem turn_of_op {b : UInt8} {op : Op} (hpc : 0 ≤ s.pc)
    (hbyte : program[s.pc.toNat]? = some b) (hlimit : s.steps + 1 < limit)
    (hop : (Opcode.mk b).op? = some op) (hdeep : op.pops ≤ s.stack.depth) :
    turn program limit s =
      match Action.perform program s.pc.toNat op s.stack with
      | .error cause stack => .failed (.stopped cause s.pc.toNat ⟨b⟩) stack
      | .ok next stack => .performed ⟨next, s.steps + 1, stack⟩ := by
  obtain ⟨mnemonic, hadmission⟩ := Opcode.admission_of_deep hop hdeep
  rw [turn_of_fetch hpc hbyte hlimit, hadmission]

/-- Everything a turn can come to: it is outside of the program, it meets the step limit, it does
not admit the opcode, or it does what the operation of the opcode does. -/
theorem turn_cases (program : Program) (limit : Nat) (s : State) :
    (¬ s.Inside program ∧ turn program limit s = .finished) ∨
    (s.Inside program ∧ limit ≤ s.steps + 1 ∧
      turn program limit s = .failed (.tooManySteps limit) s.stack) ∨
    (s.Inside program ∧ s.steps + 1 < limit ∧ ∃ b, program[s.pc.toNat]? = some b ∧
      ((∃ cause, (Opcode.mk b).admission s.stack.depth = .error cause ∧
        turn program limit s = .failed (.stopped cause s.pc.toNat ⟨b⟩) s.stack) ∨
      ∃ op, (Opcode.mk b).op? = some op ∧ op.pops ≤ s.stack.depth ∧
        turn program limit s =
          match Action.perform program s.pc.toNat op s.stack with
          | .error cause stack => .failed (.stopped cause s.pc.toNat ⟨b⟩) stack
          | .ok next stack => .performed ⟨next, s.steps + 1, stack⟩)) := by
  by_cases hinside : s.Inside program
  · right
    rcases Nat.lt_or_ge (s.steps + 1) limit with hlimit | hlimit
    · right
      have hsize : s.pc.toNat < program.size := hinside.2
      have hbyte : program[s.pc.toNat]? = some program[s.pc.toNat] :=
        Array.getElem?_eq_getElem hsize
      refine ⟨hinside, hlimit, program[s.pc.toNat], hbyte, ?_⟩
      cases hadmission : (Opcode.mk program[s.pc.toNat]).admission s.stack.depth with
      | error cause =>
        left
        exact ⟨cause, rfl, turn_of_admission_error hinside.1 hbyte hlimit hadmission⟩
      | ok admitted =>
        right
        obtain ⟨hop, hdeep⟩ := Opcode.op?_of_admission hadmission
        exact ⟨admitted.2, hop, hdeep, turn_of_op hinside.1 hbyte hlimit hop hdeep⟩
    · left
      exact ⟨hinside, hlimit, turn_of_limit hinside hlimit⟩
  · left
    exact ⟨hinside, turn_of_outside hinside⟩

/-- Everything a performed turn did. -/
theorem turn_performed (h : turn program limit s = .performed t) :
    0 ≤ s.pc ∧ s.steps + 1 < limit ∧ t.steps = s.steps + 1 ∧
      ∃ b op, program[s.pc.toNat]? = some b ∧ (Opcode.mk b).op? = some op ∧
        op.pops ≤ s.stack.depth ∧
        Action.perform program s.pc.toNat op s.stack = .ok t.pc t.stack := by
  rcases turn_cases program limit s with ⟨-, hturn⟩ | ⟨-, -, hturn⟩ |
    ⟨hinside, hlimit, b, hbyte, ⟨cause, -, hturn⟩ | ⟨op, hop, hdeep, hturn⟩⟩
  · cases hturn.symm.trans h
  · cases hturn.symm.trans h
  · cases hturn.symm.trans h
  · rw [hturn] at h
    split at h
    · cases h
    · rename_i next stack hperform
      cases h
      exact ⟨hinside.1, hlimit, rfl, b, op, hbyte, hop, hdeep, hperform⟩

/-- A turn performs its instruction only inside of the program. -/
theorem inside_of_turn_performed (h : turn program limit s = .performed t) : s.Inside program := by
  obtain ⟨hpc, -, -, b, op, hbyte, -⟩ := turn_performed h
  exact ⟨hpc, (Array.getElem?_eq_some_iff.mp hbyte).1⟩

/-- Everything a failed turn can have met. -/
theorem turn_failed {fault : Fault} {stack : Stack}
    (h : turn program limit s = .failed fault stack) :
    s.Inside program ∧
      ((limit ≤ s.steps + 1 ∧ fault = .tooManySteps limit ∧ stack = s.stack) ∨
        (s.steps + 1 < limit ∧ ∃ b cause, program[s.pc.toNat]? = some b ∧
          fault = .stopped cause s.pc.toNat ⟨b⟩ ∧
          (((Opcode.mk b).admission s.stack.depth = .error cause ∧ stack = s.stack) ∨
            ∃ op, (Opcode.mk b).op? = some op ∧ op.pops ≤ s.stack.depth ∧
              Action.perform program s.pc.toNat op s.stack = .error cause stack))) := by
  rcases turn_cases program limit s with ⟨-, hturn⟩ | ⟨hinside, hlimit, hturn⟩ |
    ⟨hinside, hlimit, b, hbyte, ⟨cause, hadmission, hturn⟩ | ⟨op, hop, hdeep, hturn⟩⟩
  · cases hturn.symm.trans h
  · cases hturn.symm.trans h
    exact ⟨hinside, Or.inl ⟨hlimit, rfl, rfl⟩⟩
  · cases hturn.symm.trans h
    exact ⟨hinside, Or.inr ⟨hlimit, b, cause, hbyte, rfl, Or.inl ⟨hadmission, rfl⟩⟩⟩
  · rw [hturn] at h
    split at h
    · rename_i cause left hperform
      cases h
      exact ⟨hinside, Or.inr ⟨hlimit, b, cause, hbyte, rfl, Or.inr ⟨op, hop, hdeep, hperform⟩⟩⟩
    · cases h

/-- A turn finishes only outside of the program. -/
theorem turn_finished (h : turn program limit s = .finished) : ¬ s.Inside program := by
  rcases turn_cases program limit s with ⟨houtside, -⟩ | ⟨-, -, hturn⟩ |
    ⟨-, -, b, -, ⟨cause, -, hturn⟩ | ⟨op, -, -, hturn⟩⟩
  · exact houtside
  · cases hturn.symm.trans h
  · cases hturn.symm.trans h
  · rw [hturn] at h
    split at h <;> cases h

/-- Induction on the turns of a run: to show something of every state, it is shown where the run
ends, and where an instruction is performed it is granted for the state after it. -/
theorem turn_induction {motive : State → Prop} (program : Program) (limit : Nat)
    (finished : ∀ s, turn program limit s = .finished → motive s)
    (failed : ∀ s fault stack, turn program limit s = .failed fault stack → motive s)
    (performed : ∀ s next, turn program limit s = .performed next → motive next → motive s)
    (s : State) : motive s := by
  -- The distance of the step counter from the limit shrinks with every performed turn.
  induction hleft : limit - s.steps using Nat.strongRecOn generalizing s with
  | ind left ih =>
    cases hturn : turn program limit s with
    | finished => exact finished s hturn
    | failed fault stack => exact failed s fault stack hturn
    | performed next =>
      obtain ⟨-, hlimit, hsteps, -⟩ := turn_performed hturn
      exact performed s next hturn (ih (limit - next.steps) (by omega) next rfl)

/-! ## Chains of turns -/

/-- From the first state the run comes to the second one, each turn on the way performing an
instruction. -/
def Reaches (program : Program) (limit : Nat) : State → State → Prop :=
  Relation.ReflTransGen fun s t => turn program limit s = .performed t

theorem Reaches.refl (s : State) : Reaches program limit s s :=
  Relation.ReflTransGen.refl

theorem Reaches.single (h : turn program limit s = .performed t) : Reaches program limit s t :=
  Relation.ReflTransGen.single h

theorem Reaches.trans {u : State} (hst : Reaches program limit s t)
    (htu : Reaches program limit t u) : Reaches program limit s u :=
  Relation.ReflTransGen.trans hst htu

/-- A run whose first turn is performed stands still or goes on from there. -/
theorem Reaches.eq_or_of_performed {u : State} (h : Reaches program limit s u)
    (hturn : turn program limit s = .performed t) : u = s ∨ Reaches program limit t u := by
  rcases Relation.ReflTransGen.cases_head h with rfl | ⟨next, hnext, hrest⟩
  · exact Or.inl rfl
  · cases hturn.symm.trans hnext
    exact Or.inr hrest

/-- A run whose turn is not performed stands still. -/
theorem Reaches.eq_of_last (h : Reaches program limit s t)
    (hlast : ∀ next, turn program limit s ≠ .performed next) : t = s := by
  rcases Relation.ReflTransGen.cases_head h with rfl | ⟨next, hnext, -⟩
  · rfl
  · exact absurd hnext (hlast next)

/-- Turns leave no choice, so of two states that a run comes to, it comes from one to the other. -/
theorem Reaches.total {u : State} (hst : Reaches program limit s t)
    (hsu : Reaches program limit s u) : Reaches program limit t u ∨ Reaches program limit u t :=
  Relation.ReflTransGen.total_of_right_unique
    (fun _ _ _ h h' => Turn.performed.inj (h.symm.trans h')) hst hsu

/-- What every performed turn preserves, a run preserves. -/
theorem Reaches.preserves {P : State → Prop} (h : Reaches program limit s t) (hs : P s)
    (hturn : ∀ u v, turn program limit u = .performed v → P u → P v) : P t := by
  induction h with
  | refl => exact hs
  | tail _ hlast ih => exact hturn _ _ hlast ih

/-- A run from the state ends with this result on this stack. -/
inductive Ends (program : Program) (limit : Nat) (s : State) : Except Fault Nat → Stack → Prop where
  /-- the run leaves the program -/
  | finished {t : State} (reached : Reaches program limit s t)
      (last : turn program limit t = .finished) : Ends program limit s (.ok t.steps) t.stack
  /-- a turn fails -/
  | failed {t : State} {fault : Fault} {stack : Stack} (reached : Reaches program limit s t)
      (last : turn program limit t = .failed fault stack) :
      Ends program limit s (.error fault) stack

theorem Ends.of_reaches {r : Except Fault Nat} {stack : Stack} (hst : Reaches program limit s t)
    (h : Ends program limit t r stack) : Ends program limit s r stack := by
  cases h with
  | finished reached last => exact .finished (hst.trans reached) last
  | failed reached last => exact .failed (hst.trans reached) last

/-- Every loop comes to an end that its turns lead to. -/
theorem ends_loopFrom {α : Type} (observe : α → Moment → α) (program : Program) (limit : Nat)
    (s : State) (seen : α) :
    Ends program limit s (loopFrom observe program limit s seen).result
      (loopFrom observe program limit s seen).stack := by
  induction s using turn_induction program limit generalizing seen with
  | finished s hturn =>
    rw [loopFrom_eq_turn, hturn]
    exact .finished (.refl s) hturn
  | failed s fault stack hturn =>
    rw [loopFrom_eq_turn, hturn]
    exact .failed (.refl s) hturn
  | performed s next hturn ih =>
    rw [loopFrom_eq_turn, hturn]
    exact (ih _).of_reaches (.single hturn)

/-- The loop from a state on goes on as the loop from every state it reaches. -/
theorem Reaches.loopFrom_eq {α : Type} (observe : α → Moment → α) (h : Reaches program limit s t)
    (seen : α) :
    ∃ seen', loopFrom observe program limit s seen = loopFrom observe program limit t seen' := by
  induction h with
  | refl => exact ⟨seen, rfl⟩
  | @tail u v _ hlast ih =>
    obtain ⟨seen', heq⟩ := ih
    refine ⟨(shown? program limit u).elim seen' (observe seen'), ?_⟩
    rw [heq, loopFrom_eq_turn, hlast]

/-- The end that the turns lead to is the end of the loop. -/
theorem loopFrom_of_ends {α : Type} (observe : α → Moment → α) {r : Except Fault Nat}
    {stack : Stack} (h : Ends program limit s r stack) (seen : α) :
    (loopFrom observe program limit s seen).result = r ∧
      (loopFrom observe program limit s seen).stack = stack := by
  cases h with
  | finished reached last =>
    obtain ⟨seen', heq⟩ := reached.loopFrom_eq observe seen
    rw [heq, loopFrom_eq_turn, last]
    exact ⟨rfl, rfl⟩
  | failed reached last =>
    obtain ⟨seen', heq⟩ := reached.loopFrom_eq observe seen
    rw [heq, loopFrom_eq_turn, last]
    exact ⟨rfl, rfl⟩

/-- The state a run starts in. -/
def start (stack : Stack) : State where
  pc := 0
  steps := 0
  stack := stack.clear

end Machine

namespace Interpreter

open Machine

variable (it : Interpreter) (program : Program)

/-- A program over the length limit is refused with the stack emptied. -/
theorem run_of_long (h : it.limits.maxProgramLength < program.size) :
    it.run program =
      (⟨.error (.tooManyInstructions program.size it.limits.maxProgramLength), []⟩,
        ⟨it.limits, it.stack.clear⟩) := by
  simp only [run, runWith, Machine.run, h, if_true, Stack.toList_clear]

/-- A program within the length limit runs from the start state. -/
theorem run_of_short (h : program.size ≤ it.limits.maxProgramLength) :
    it.run program =
      let ending := loopFrom (fun (_ : Unit) _ => ()) program it.limits.maxSteps (start it.stack) ()
      (⟨ending.result, ending.stack.toList⟩, ⟨it.limits, ending.stack⟩) := by
  have hshort : ¬ it.limits.maxProgramLength < program.size := Nat.not_lt.mpr h
  simp only [run, runWith, Machine.run, hshort, if_false]
  rfl

/-- The outcome of a run and the stack it leaves are where its turns lead. -/
theorem ends_run (h : program.size ≤ it.limits.maxProgramLength) :
    Ends program it.limits.maxSteps (start it.stack) (it.run program).1.result
      (it.run program).2.stack := by
  rw [run_of_short it program h]
  exact ends_loopFrom _ program it.limits.maxSteps (start it.stack) ()

/-- Wherever the turns lead is the outcome of the run. -/
theorem run_of_ends (h : program.size ≤ it.limits.maxProgramLength) {r : Except Fault Nat}
    {stack : Stack} (hends : Ends program it.limits.maxSteps (start it.stack) r stack) :
    it.run program = (⟨r, stack.toList⟩, ⟨it.limits, stack⟩) := by
  obtain ⟨hresult, hstack⟩ := loopFrom_of_ends (fun (_ : Unit) _ => ()) hends ()
  rw [run_of_short it program h]
  simp only [hresult, hstack]

/-- A successful run has left the program, with as many steps behind it as it reports. -/
theorem exists_finished {steps : Nat} (h : (it.run program).1.result = .ok steps) :
    program.size ≤ it.limits.maxProgramLength ∧
      ∃ s, Reaches program it.limits.maxSteps (start it.stack) s ∧
        turn program it.limits.maxSteps s = .finished ∧ s.steps = steps := by
  rcases Nat.lt_or_ge it.limits.maxProgramLength program.size with hlong | hshort
  · rw [it.run_of_long program hlong] at h
    cases h
  · refine ⟨hshort, ?_⟩
    have hends := it.ends_run program hshort
    rw [h] at hends
    generalize (it.run program).2.stack = left at hends
    cases hends with
    | @finished s reached last => exact ⟨s, reached, last, rfl⟩

/-- The stack that a run reports is the stack that it leaves. -/
theorem stack_run : (it.run program).1.stack = (it.run program).2.stack.toList :=
  rfl

end Interpreter

end GlyphHint
