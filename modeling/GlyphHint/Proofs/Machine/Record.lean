import GlyphHint.Proofs.Machine.Turn
set_option autoImplicit false

/-!
# The recording of a run

An observer makes what it likes of the moments of a run, but it has no influence on the run.  The
run with any observer is the run that keeps every moment (`Machine.record`), with the observer let
loose on the kept moments afterwards (`Machine.loopFrom_eq_record`).  So the outcome of an
interpreter and the events of its trace are two readings of one recording
(`Interpreter.run_eq_record`, `Interpreter.events_trace`).
-/

namespace GlyphHint

/-- The ending with something else made of what was seen. -/
def Ending.map {α β : Type} (f : α → β) (e : Ending α) : Ending β :=
  ⟨e.result, e.stack, f e.seen⟩

/-- The event of a moment, with a view of its stack. -/
def Moment.event {σ : Type} (view : Stack → σ) (m : Moment) : Event σ :=
  .step m.pc m.mnemonic (view m.stack)

/-- The event that reports an outcome. -/
def Outcome.event {σ : Type} (r : Outcome) : Event σ :=
  match r.result with
  | .ok steps => .finished steps r.depth
  | .error fault => .failed fault

/-- The event with something else shown of the stack. -/
def Event.map {σ τ : Type} (f : σ → τ) : Event σ → Event τ
  | .started length => .started length
  | .step pc mnemonic view => .step pc mnemonic (f view)
  | .finished steps depth => .finished steps depth
  | .failed fault => .failed fault

/-- The event belongs to an instruction. -/
def Event.isStep {σ : Type} : Event σ → Bool
  | .step .. => true
  | _ => false

namespace Machine

variable {α β : Type} {program : Program} {limit : Nat} {s t : State}

/-! ## Keeping all moments -/

/-- The observer that keeps all moments in order. -/
def keep (kept : List Moment) (m : Moment) : List Moment :=
  kept ++ [m]

theorem foldl_keep (kept moments : List Moment) : moments.foldl keep kept = kept ++ moments := by
  unfold keep
  rw [List.foldl_append_eq_append, ← List.flatMap_def, List.flatMap_singleton']

/-- The run from a state on, with all the moments that it shows. -/
def record (program : Program) (limit : Nat) (s : State) : Ending (List Moment) :=
  loopFrom keep program limit s []

/-- Two observers whose answers `f` relates at every moment give related answers of the run. -/
theorem loopFrom_map {observe : α → Moment → α} {observe' : β → Moment → β} (f : α → β)
    (hf : ∀ a m, f (observe a m) = observe' (f a) m) (program : Program) (limit : Nat) (s : State)
    (seen : α) :
    loopFrom observe' program limit s (f seen) =
      (loopFrom observe program limit s seen).map f := by
  have hshown : ∀ (s : State) (seen : α),
      (shown? program limit s).elim (f seen) (observe' (f seen)) =
        f ((shown? program limit s).elim seen (observe seen)) := by
    intro s seen
    cases shown? program limit s with
    | none => rfl
    | some m => exact (hf seen m).symm
  induction s using turn_induction program limit generalizing seen with
  | finished s hturn =>
    rw [loopFrom_eq_turn, loopFrom_eq_turn, hshown, hturn]
    rfl
  | failed s fault stack hturn =>
    rw [loopFrom_eq_turn, loopFrom_eq_turn, hshown, hturn]
    rfl
  | performed s next hturn ih =>
    rw [loopFrom_eq_turn, loopFrom_eq_turn, hshown, hturn]
    exact ih _

/-- Whatever an observer makes of a run, it makes of the moments kept. -/
theorem loopFrom_eq_record (observe : α → Moment → α) (program : Program) (limit : Nat) (s : State)
    (seen : α) :
    loopFrom observe program limit s seen =
      (record program limit s).map fun moments => moments.foldl observe seen := by
  have hkeep : ∀ kept m,
      (keep kept m).foldl observe seen = observe (kept.foldl observe seen) m := by
    intro kept m
    rw [keep, List.foldl_append]
    rfl
  exact loopFrom_map (fun moments => moments.foldl observe seen) hkeep program limit s []

/-- A recording starts with what the first turn shows and goes on with the recording from the state
after it. -/
theorem record_eq_turn (program : Program) (limit : Nat) (s : State) :
    record program limit s =
      let first := (shown? program limit s).toList
      match turn program limit s with
      | .finished => ⟨.ok s.steps, s.stack, first⟩
      | .failed fault stack => ⟨.error fault, stack, first⟩
      | .performed next => (record program limit next).map (first ++ ·) := by
  have hfirst : (shown? program limit s).elim [] (keep []) = (shown? program limit s).toList := by
    cases shown? program limit s <;> rfl
  unfold record
  rw [loopFrom_eq_turn, hfirst]
  cases turn program limit s with
  | finished => rfl
  | failed fault stack => rfl
  | performed next =>
    simp only [loopFrom_eq_record keep, foldl_keep]
    rfl

theorem record_of_finished (h : turn program limit s = .finished) :
    record program limit s = ⟨.ok s.steps, s.stack, (shown? program limit s).toList⟩ := by
  rw [record_eq_turn, h]

theorem record_of_failed {fault : Fault} {stack : Stack}
    (h : turn program limit s = .failed fault stack) :
    record program limit s = ⟨.error fault, stack, (shown? program limit s).toList⟩ := by
  rw [record_eq_turn, h]

theorem record_of_performed (h : turn program limit s = .performed t) :
    record program limit s =
      (record program limit t).map ((shown? program limit s).toList ++ ·) := by
  rw [record_eq_turn, h]

/-- Whatever the turn comes to, what it shows is kept first. -/
theorem shown?_prefix_record (program : Program) (limit : Nat) (s : State) :
    (shown? program limit s).toList <+: (record program limit s).seen := by
  cases hturn : turn program limit s with
  | finished => simp only [record_of_finished hturn, List.prefix_rfl]
  | failed fault stack => simp only [record_of_failed hturn, List.prefix_rfl]
  | performed next =>
    rw [record_of_performed hturn]
    exact List.prefix_append _ _

/-! ## What a turn shows -/

theorem shown?_of_admission_ok {b : UInt8} {mnemonic : String} {op : Op} (hpc : 0 ≤ s.pc)
    (hbyte : program[s.pc.toNat]? = some b) (hlimit : s.steps + 1 < limit)
    (hadmission : (Opcode.mk b).admission s.stack.depth = .ok (mnemonic, op)) :
    shown? program limit s = some ⟨s.pc.toNat, mnemonic, s.stack⟩ := by
  obtain ⟨hsize, rfl⟩ := Array.getElem?_eq_some_iff.mp hbyte
  unfold shown?
  rw [dif_pos ⟨hpc, hsize⟩, if_neg (Nat.not_le.mpr hlimit)]
  simp only [hadmission]

theorem shown?_of_admission_error {b : UInt8} {cause : Cause}
    (hbyte : program[s.pc.toNat]? = some b)
    (hadmission : (Opcode.mk b).admission s.stack.depth = .error cause) :
    shown? program limit s = none := by
  obtain ⟨hsize, rfl⟩ := Array.getElem?_eq_some_iff.mp hbyte
  unfold shown?
  split
  · split
    · rfl
    · simp only [hadmission]
  · rfl

theorem shown?_of_outside (h : ¬ s.Inside program) : shown? program limit s = none := by
  unfold shown?
  exact dif_neg h

theorem shown?_of_limit (hlimit : limit ≤ s.steps + 1) : shown? program limit s = none := by
  simp only [shown?, hlimit, if_true, dite_eq_ite, ite_self]

end Machine

namespace Interpreter

open Machine

variable {σ : Type} (it : Interpreter) (program : Program)

/-- The run of a program with all the moments that it shows. -/
def record : Ending (List Moment) :=
  it.runWith keep program []

theorem record_of_long (h : it.limits.maxProgramLength < program.size) :
    it.record program =
      ⟨.error (.tooManyInstructions program.size it.limits.maxProgramLength), it.stack.clear,
        []⟩ := by
  simp only [record, runWith, Machine.run, h, if_true]

theorem record_of_short (h : program.size ≤ it.limits.maxProgramLength) :
    it.record program = Machine.record program it.limits.maxSteps (start it.stack) := by
  simp only [record, runWith, Machine.run, Nat.not_lt.mpr h, if_false]
  rfl

/-- Whatever an observer makes of a run, it makes of the moments kept. -/
theorem runWith_eq_record {α : Type} (observe : α → Moment → α) (seen : α) :
    it.runWith observe program seen =
      (it.record program).map fun moments => moments.foldl observe seen := by
  rcases Nat.lt_or_ge it.limits.maxProgramLength program.size with hlong | hshort
  · rw [it.record_of_long program hlong]
    simp only [runWith, Machine.run, hlong, if_true]
    rfl
  · rw [it.record_of_short program hshort, ← loopFrom_eq_record]
    simp only [runWith, Machine.run, Nat.not_lt.mpr hshort, if_false]
    rfl

/-- The outcome of a run is in its recording. -/
theorem run_eq_record :
    it.run program =
      (⟨(it.record program).result, (it.record program).stack.toList⟩,
        ⟨it.limits, (it.record program).stack⟩) := by
  simp only [run, it.runWith_eq_record program]
  rfl

/-- A trace reports the outcome of the run. -/
theorem outcome_trace (view : Stack → σ) :
    (it.trace view program).2 = (it.run program).1 := by
  simp only [trace, it.runWith_eq_record program, it.run_eq_record program]
  rfl

/-- The last event of a trace reports how the run has ended. -/
theorem lastEvent_eq_event (ending : Ending (Array (Event σ))) :
    lastEvent ending = (Outcome.mk ending.result ending.stack.toList).event := by
  obtain ⟨result, stack, seen⟩ := ending
  cases result with
  | ok steps => simp only [lastEvent, Outcome.event, Outcome.depth, Stack.length_toList]
  | error fault => rfl

/-- The events of a trace are its start, the moments of the recording and the outcome. -/
theorem events_trace (view : Stack → σ) :
    (it.trace view program).1.toList =
      .started program.size ::
        ((it.record program).seen.map (Moment.event view) ++ [(it.run program).1.event]) := by
  have hsteps : ∀ events : Array (Event σ), (it.record program).seen.foldl
      (fun events m => events.push (.step m.pc m.mnemonic (view m.stack))) events =
        events ++ ((it.record program).seen.map (Moment.event view)).toArray :=
    fun _ => List.foldl_push_eq_append
  simp only [trace, it.runWith_eq_record program, it.run_eq_record program, lastEvent_eq_event,
    Ending.map, hsteps]
  simp

/-- The events of the instructions of a run, with the values on the stack before each of them. -/
def stepEvents : List (Event (List Int32)) :=
  (it.trace Stack.toList program).1.toList.filter Event.isStep

theorem stepEvents_eq_record :
    it.stepEvents program = (it.record program).seen.map (Moment.event Stack.toList) := by
  have hlast : ∀ r : Outcome, (r.event : Event (List Int32)).isStep = false := by
    intro r
    unfold Outcome.event
    cases r.result <;> rfl
  have hsteps : ∀ e ∈ (it.record program).seen.map (Moment.event Stack.toList),
      e.isStep = true := by
    intro e he
    obtain ⟨m, -, rfl⟩ := List.mem_map.mp he
    rfl
  unfold stepEvents
  rw [it.events_trace program, List.filter_cons_of_neg (by simp [Event.isStep]),
    List.filter_append, List.filter_eq_self.mpr hsteps, List.filter_cons_of_neg (by simp [hlast]),
    List.filter_nil, List.append_nil]

end Interpreter

end GlyphHint
