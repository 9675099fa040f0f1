import GlyphHint.Machine.Run
set_option autoImplicit false

/-!
# Interpreters

An interpreter holds its limits and a stack and runs programs one after another; the stack buffer
is reused, the values of an earlier run are not.  A run is also available as a trace: a start event,
one event per admitted instruction with a view of the stack before it, and an end event.
-/

namespace GlyphHint

/-- What a run reports while it goes on; `σ` is the view of the stack that step events carry. -/
inductive Event (σ : Type) where
  /-- the run of a program of that many bytes starts -/
  | started (length : Nat)
  /-- an instruction is about to be performed -/
  | step (pc : Nat) (mnemonic : String) (view : σ)
  /-- the run has ended normally -/
  | finished (steps depth : Nat)
  /-- the run has failed -/
  | failed (fault : Fault)
  deriving DecidableEq, Repr, Inhabited

/-- An interpreter between two runs. -/
structure Interpreter where
  limits : Limits
  stack : Stack

/-- What a caller sees of a finished run. -/
structure Outcome where
  /-- the number of steps, or the fault -/
  result : Except Fault Nat
  /-- the stack that is left, bottom to top -/
  stack : List Int32

/-- The number of values left on the stack. -/
def Outcome.depth (r : Outcome) : Nat :=
  r.stack.length

namespace Interpreter

/-- An interpreter that has run nothing yet. -/
def new (limits : Limits) : Interpreter :=
  ⟨limits, Stack.empty limits.stackCapacity⟩

/-- Runs a program and shows it to an observer. -/
@[inline] def runWith {α : Type} (observe : α → Moment → α) (it : Interpreter) (program : Program)
    (seen : α) : Ending α :=
  Machine.run observe it.limits program it.stack seen

/-- Runs a program. -/
def run (it : Interpreter) (program : Program) : Outcome × Interpreter :=
  let ending := it.runWith (fun (_ : Unit) _ => ()) program ()
  (⟨ending.result, ending.stack.toList⟩, ⟨it.limits, ending.stack⟩)

/-- Runs programs one after another. -/
def runAll (it : Interpreter) : List Program → List Outcome
  | [] => []
  | program :: rest => (it.run program).1 :: runAll (it.run program).2 rest

/-- The event at the end of a run. -/
def lastEvent {σ : Type} (ending : Ending (Array (Event σ))) : Event σ :=
  match ending.result with
  | .ok steps => .finished steps ending.stack.depth
  | .error fault => .failed fault

/-- Runs a program and records its events with a view of the stack. -/
def trace {σ : Type} (view : Stack → σ) (it : Interpreter) (program : Program) :
    Array (Event σ) × Outcome :=
  let record (events : Array (Event σ)) (m : Moment) :=
    events.push (.step m.pc m.mnemonic (view m.stack))
  let ending := it.runWith record program #[.started program.size]
  (ending.seen.push (lastEvent ending), ⟨ending.result, ending.stack.toList⟩)

end Interpreter

end GlyphHint
