import GlyphHint.Proofs.Machine.Failure
import GlyphHint.Proofs.Machine.Record
set_option autoImplicit false

/-!
# Runs in lockstep

Two machines that hold the same values run the same program in lockstep, whatever lies in the stale
slots of their buffers and whatever their capacities are, until the one of smaller capacity
overflows (`Machine.turn_twins`, `Machine.record_twins`).  With equal capacities the runs are alike
to the end, so nothing of an earlier run shows in a later one
(`Interpreter.earlier_runs_leave_nothing`); with different capacities nothing but an overflow can
tell them apart (`Interpreter.capacity_shows_in_overflow`).
-/

namespace GlyphHint

/-- With more room an operation does the same, except that it overflows less often. -/
theorem Op.effect_of_more_room (op : Op) (program : Program) (pc : Nat) {c c' : Nat}
    (hle : c ≤ c') (vs : List Int32) :
    op.effect program pc c vs = op.effect program pc c' vs ∨
      (c < c' ∧ op.effect program pc c vs = .error .stackOverflow) := by
  rcases Nat.eq_or_lt_of_le hle with rfl | hlt
  · exact Or.inl rfl
  · refine Or.imp_right (fun hfull => ⟨hlt, hfull⟩) ?_
    cases op with
    | dup =>
      cases vs with
      | nil => exact Or.inl rfl
      | cons v vs =>
        by_cases hroom : vs.length + 1 < c
        · have hroom' : vs.length + 1 < c' := by omega
          left
          simp only [effect, hroom, hroom', if_true]
        · right
          exact if_neg hroom
    | depth =>
      by_cases hroom : vs.length < c
      · have hroom' : vs.length < c' := by omega
        left
        simp only [effect, hroom, hroom', if_true]
      · right
        exact if_neg hroom
    | push shape =>
      simp only [effect]
      cases program.pushCount? pc shape with
      | none => exact Or.inl rfl
      | some n =>
        by_cases hfull : c < vs.length + n
        · right
          exact if_pos hfull
        · have hroom' : ¬ c' < vs.length + n := by omega
          left
          simp only [hfull, hroom', if_false]
    | _ =>
      -- No other operation reads the capacity.
      left
      rcases vs with _ | ⟨b, _ | ⟨a, vs⟩⟩ <;> rfl

/-- Two stacks with the same values: the one of capacity `c`, the other of capacity `c'`. -/
structure Stack.Twins (c c' : Nat) (s t : Stack) : Prop where
  values : s.topFirst = t.topFirst
  left : s.capacity = c
  right : t.capacity = c'

namespace Stack.Twins

variable {c c' : Nat} {s t : Stack}

theorem depth (h : s.Twins c c' t) : s.depth = t.depth := by
  rw [← s.length_topFirst, h.values, t.length_topFirst]

theorem toList (h : s.Twins c c' t) : s.toList = t.toList := by
  rw [← s.reverse_topFirst, h.values, t.reverse_topFirst]

end Stack.Twins

namespace Machine

variable {program : Program} {limit : Nat} {c c' : Nat} {s t : Stack}

/-- On twins an operation does the same and leaves twins, unless it overflows the stack of smaller
capacity. -/
theorem perform_twins (hle : c ≤ c') (h : Stack.Twins c c' s t) (program : Program) (pc : Nat)
    {op : Op} (hdeep : op.pops ≤ s.depth) :
    (∃ next s' t', Action.perform program pc op s = .ok next s' ∧
      Action.perform program pc op t = .ok next t' ∧ Stack.Twins c c' s' t') ∨
    (∃ cause, Action.perform program pc op s = .error cause s ∧
      Action.perform program pc op t = .error cause t) ∨
    (c < c' ∧ Action.perform program pc op s = .error .stackOverflow s) := by
  have hdeep' : op.pops ≤ t.depth := h.depth ▸ hdeep
  have hs := Action.perform_follows program pc op s hdeep
  have ht := Action.perform_follows program pc op t hdeep'
  rw [h.left] at hs
  rw [h.right, ← h.values] at ht
  rcases op.effect_of_more_room program pc hle s.topFirst with heffect | ⟨hlt, hfull⟩
  · rw [← heffect] at ht
    cases hresult : op.effect program pc c s.topFirst with
    | ok result =>
      rw [hresult] at hs ht
      obtain ⟨s', hrun, hvalues, hcapacity⟩ := hs
      obtain ⟨t', hrun', hvalues', hcapacity'⟩ := ht
      left
      exact ⟨result.1, s', t', hrun, hrun', hvalues.trans hvalues'.symm, hcapacity.trans h.left,
        hcapacity'.trans h.right⟩
    | error cause =>
      rw [hresult] at hs ht
      right; left
      exact ⟨cause, hs, ht⟩
  · rw [hfull] at hs
    right; right
    exact ⟨hlt, hs⟩

/-- On twins a turn comes to the same and leaves twins, unless it overflows the stack of smaller
capacity. -/
theorem turn_twins (hle : c ≤ c') (h : Stack.Twins c c' s t) (program : Program) (limit : Nat)
    (pc : Int) (steps : Nat) :
    (turn program limit ⟨pc, steps, s⟩ = .finished ∧
      turn program limit ⟨pc, steps, t⟩ = .finished) ∨
    (∃ fault, turn program limit ⟨pc, steps, s⟩ = .failed fault s ∧
      turn program limit ⟨pc, steps, t⟩ = .failed fault t) ∨
    (∃ next s' t', turn program limit ⟨pc, steps, s⟩ = .performed ⟨next, steps + 1, s'⟩ ∧
      turn program limit ⟨pc, steps, t⟩ = .performed ⟨next, steps + 1, t'⟩ ∧
      Stack.Twins c c' s' t') ∨
    (c < c' ∧ ∃ opcode,
      turn program limit ⟨pc, steps, s⟩ = .failed (.stopped .stackOverflow pc.toNat opcode) s) := by
  rcases turn_cases program limit ⟨pc, steps, s⟩ with ⟨houtside, hturn⟩ |
    ⟨hinside, hlimit, hturn⟩ | ⟨hinside, hlimit, b, hbyte, hcase⟩
  · left
    exact ⟨hturn, turn_of_outside houtside⟩
  · right; left
    exact ⟨_, hturn, turn_of_limit hinside hlimit⟩
  · right
    have hpc : 0 ≤ pc := hinside.1
    rcases hcase with ⟨cause, hadmission, hturn⟩ | ⟨op, hop, hdeep, hturn⟩
    · left
      rw [h.depth] at hadmission
      exact ⟨_, hturn, turn_of_admission_error hpc hbyte hlimit hadmission⟩
    · have hturn' := turn_of_op (s := ⟨pc, steps, t⟩) hpc hbyte hlimit hop (h.depth ▸ hdeep)
      rcases perform_twins hle h program pc.toNat hdeep with
        ⟨next, s', t', hrun, hrun', htwins⟩ | ⟨cause, hrun, hrun'⟩ | ⟨hlt, hrun⟩
      · right; left
        simp only [hrun] at hturn
        simp only [hrun'] at hturn'
        exact ⟨next, s', t', hturn, hturn', htwins⟩
      · left
        simp only [hrun] at hturn
        simp only [hrun'] at hturn'
        exact ⟨_, hturn, hturn'⟩
      · right; right
        simp only [hrun] at hturn
        exact ⟨hlt, _, hturn⟩

/-- With twins for stacks a turn shows the same. -/
theorem shown?_twins (h : Stack.Twins c c' s t) (program : Program) (limit : Nat) (pc : Int)
    (steps : Nat) :
    (shown? program limit ⟨pc, steps, s⟩).map (Moment.event Stack.toList) =
      (shown? program limit ⟨pc, steps, t⟩).map (Moment.event Stack.toList) := by
  simp only [shown?, h.depth]
  split
  · split
    · rfl
    · cases (Opcode.mk program[pc.toNat]).admission t.depth with
      | error cause => rfl
      | ok admitted => simp only [Option.map_some, Moment.event, h.toList]
  · rfl

end Machine

/-- The events of the instructions of a recorded run, with the values on the stack. -/
def Ending.events (e : Ending (List Moment)) : List (Event (List Int32)) :=
  e.seen.map (Moment.event Stack.toList)

theorem Ending.events_map_append (first : List Moment) (e : Ending (List Moment)) :
    (e.map (first ++ ·)).events = first.map (Moment.event Stack.toList) ++ e.events := by
  simp only [Ending.events, Ending.map, List.map_append]

/-- Two recorded runs look the same. -/
structure Ending.Alike (a b : Ending (List Moment)) : Prop where
  result : a.result = b.result
  values : a.stack.toList = b.stack.toList
  events : a.events = b.events

/-- A recorded run is cut off by an overflow of its stack where another one may go on. -/
structure Ending.Overflowed (a b : Ending (List Moment)) : Prop where
  result : ∃ pc opcode, a.result = .error (.stopped .stackOverflow pc opcode)
  events : a.events <+: b.events

namespace Machine

/-- With twins for stacks two runs are alike, unless the one of smaller capacity overflows. -/
theorem record_twins {c c' : Nat} {s t : Stack} (hle : c ≤ c') (h : Stack.Twins c c' s t)
    (program : Program) (limit : Nat) (pc : Int) (steps : Nat) :
    (record program limit ⟨pc, steps, s⟩).Alike (record program limit ⟨pc, steps, t⟩) ∨
      (c < c' ∧ (record program limit ⟨pc, steps, s⟩).Overflowed
        (record program limit ⟨pc, steps, t⟩)) := by
  -- The distance of the step counter from the limit shrinks with every performed turn.
  induction hleft : limit - steps using Nat.strongRecOn generalizing pc steps s t with
  | ind left ih =>
    have hshown : (shown? program limit ⟨pc, steps, s⟩).toList.map (Moment.event Stack.toList) =
        (shown? program limit ⟨pc, steps, t⟩).toList.map (Moment.event Stack.toList) := by
      rw [← Option.toList_map, ← Option.toList_map, shown?_twins h]
    rcases turn_twins hle h program limit pc steps with ⟨hturn, hturn'⟩ |
      ⟨fault, hturn, hturn'⟩ | ⟨next, s', t', hturn, hturn', htwins⟩ | ⟨hlt, opcode, hturn⟩
    · left
      rw [record_of_finished hturn, record_of_finished hturn']
      exact ⟨rfl, h.toList, hshown⟩
    · left
      rw [record_of_failed hturn, record_of_failed hturn']
      exact ⟨rfl, h.toList, hshown⟩
    · have hlimit : steps + 1 < limit := (turn_performed hturn).2.1
      rw [record_of_performed hturn, record_of_performed hturn']
      rcases ih (limit - (steps + 1)) (by omega) htwins next (steps + 1) rfl with
        ⟨hresult, hvalues, hevents⟩ | ⟨hlt, hresult, hevents⟩
      · left
        refine ⟨hresult, hvalues, ?_⟩
        rw [Ending.events_map_append, Ending.events_map_append, hshown, hevents]
      · right
        refine ⟨hlt, hresult, ?_⟩
        rw [Ending.events_map_append, Ending.events_map_append, hshown]
        exact (List.prefix_append_right_inj _).mpr hevents
    · right
      refine ⟨hlt, ?_⟩
      rw [record_of_failed hturn]
      refine ⟨⟨_, _, rfl⟩, ?_⟩
      unfold Ending.events
      rw [hshown]
      exact (shown?_prefix_record program limit ⟨pc, steps, t⟩).map _

end Machine

namespace Interpreter

open Machine

variable {it it' : Interpreter} {program : Program}

/-- Interpreters with the same limits on length and steps run a program alike, unless the one whose
stack has the smaller capacity overflows it. -/
theorem record_alike_or_overflowed (it it' : Interpreter)
    (hlength : it.limits.maxProgramLength = it'.limits.maxProgramLength)
    (hsteps : it.limits.maxSteps = it'.limits.maxSteps)
    (hle : it.stack.capacity ≤ it'.stack.capacity) (program : Program) :
    (it.record program).Alike (it'.record program) ∨
      (it.stack.capacity < it'.stack.capacity ∧
        (it.record program).Overflowed (it'.record program)) := by
  rcases Nat.lt_or_ge it.limits.maxProgramLength program.size with hlong | hshort
  · left
    rw [it.record_of_long program hlong, it'.record_of_long program (hlength ▸ hlong), hlength]
    exact ⟨rfl, rfl, rfl⟩
  · have htwins : Stack.Twins it.stack.capacity it'.stack.capacity it.stack.clear it'.stack.clear :=
      ⟨by rw [Stack.topFirst_clear, Stack.topFirst_clear], rfl, rfl⟩
    rw [it.record_of_short program hshort, it'.record_of_short program (hlength ▸ hshort),
      ← hsteps]
    exact record_twins hle htwins program it.limits.maxSteps 0 0

/-- Runs that are alike have the same outcome. -/
theorem run_eq_of_alike (h : (it.record program).Alike (it'.record program)) :
    (it.run program).1 = (it'.run program).1 := by
  rw [it.run_eq_record program, it'.run_eq_record program, h.result, h.values]

/-- Runs that are alike have the same trace, whatever it shows of the values on the stack. -/
theorem trace_eq_of_alike {σ : Type} (h : (it.record program).Alike (it'.record program))
    (view : List Int32 → σ) :
    it.trace (view ∘ Stack.toList) program = it'.trace (view ∘ Stack.toList) program := by
  have hevent : ∀ m : Moment, m.event (view ∘ Stack.toList) = (m.event Stack.toList).map view :=
    fun _ => rfl
  have hevents := congrArg (List.map (Event.map view)) h.events
  simp only [Ending.events, List.map_map, Function.comp_def, ← hevent] at hevents
  apply Prod.ext
  · apply Array.toList_inj.mp
    rw [it.events_trace program, it'.events_trace program, run_eq_of_alike h]
    simp only [hevents, Function.comp_def]
  · rw [it.outcome_trace program, it'.outcome_trace program, run_eq_of_alike h]

/-! ## One interpreter for many programs -/

/-- A run keeps the capacity of the stack. -/
theorem capacity_run (it : Interpreter) (program : Program) :
    (it.run program).2.stack.capacity = it.stack.capacity := by
  rcases Nat.lt_or_ge it.limits.maxProgramLength program.size with hlong | hshort
  · rw [it.run_of_long program hlong]
    rfl
  · have hends := it.ends_run program hshort
    generalize (it.run program).1.result = result, (it.run program).2.stack = left at hends
    cases hends with
    | finished reached last => exact reached.capacity_eq
    | failed reached last =>
      rw [stack_of_turn_failed last]
      exact reached.capacity_eq

/-- The interpreter after runs of these programs, one after another. -/
def after (it : Interpreter) (programs : List Program) : Interpreter :=
  programs.foldl (fun it program => (it.run program).2) it

/-- An interpreter keeps its limits and the capacity of its stack. -/
theorem after_keeps (it : Interpreter) (programs : List Program) :
    (it.after programs).limits = it.limits ∧
      (it.after programs).stack.capacity = it.stack.capacity := by
  induction programs generalizing it with
  | nil => exact ⟨rfl, rfl⟩
  | cons program rest ih =>
    obtain ⟨hlimits, hcapacity⟩ := ih (it.run program).2
    exact ⟨hlimits, hcapacity.trans (it.capacity_run program)⟩

/-- With the same limits and the same capacity two interpreters run every program alike, whatever
their buffers hold. -/
theorem record_alike (hlimits : it.limits = it'.limits)
    (hcapacity : it.stack.capacity = it'.stack.capacity) (program : Program) :
    (it.record program).Alike (it'.record program) := by
  rcases record_alike_or_overflowed it it' (congrArg _ hlimits) (congrArg _ hlimits)
    (Nat.le_of_eq hcapacity) program with halike | ⟨hlt, -⟩
  · exact halike
  · omega

/-- So a row of programs has the outcomes that each of them has on an interpreter of its own. -/
theorem runAll_eq_map (hlimits : it.limits = it'.limits)
    (hcapacity : it.stack.capacity = it'.stack.capacity) (programs : List Program) :
    it.runAll programs = programs.map fun program => (it'.run program).1 := by
  induction programs generalizing it with
  | nil => rfl
  | cons program rest ih =>
    have hfirst := run_eq_of_alike (record_alike hlimits hcapacity program)
    have hlimits' : (it.run program).2.limits = it'.limits := hlimits
    have hrest := ih hlimits' ((it.capacity_run program).trans hcapacity)
    rw [runAll, List.map_cons, hfirst, hrest]

/-- A used interpreter is as good as a new one.  After any programs, however their runs have ended,
it still has its limits and its capacity, and it runs the next program to the same outcome, leaving
the same values on the stack and showing the same events as a new interpreter; so each program of a
row has the outcome that it would have on a new interpreter. -/
theorem earlier_runs_leave_nothing {σ : Type} (limits : Limits) (earlier : List Program)
    (program : Program) (view : List Int32 → σ) :
    let fresh := Interpreter.new limits
    let used := fresh.after earlier
    used.limits = limits ∧ used.stack.capacity = limits.stackCapacity ∧
      (used.run program).1 = (fresh.run program).1 ∧
      (used.run program).2.stack.toList = (fresh.run program).2.stack.toList ∧
      (used.run program).2.stack.depth = (fresh.run program).2.stack.depth ∧
      used.trace (view ∘ Stack.toList) program = fresh.trace (view ∘ Stack.toList) program ∧
      fresh.runAll earlier = earlier.map fun program => (fresh.run program).1 := by
  intro fresh used
  obtain ⟨hlimits, hcapacity⟩ := fresh.after_keeps earlier
  have halike : (used.record program).Alike (fresh.record program) :=
    record_alike hlimits hcapacity program
  have houtcome := run_eq_of_alike halike
  have hvalues : (used.run program).2.stack.toList = (fresh.run program).2.stack.toList :=
    congrArg Outcome.stack houtcome
  refine ⟨hlimits, hcapacity, houtcome, hvalues, ?_, trace_eq_of_alike halike view,
    runAll_eq_map rfl rfl earlier⟩
  rw [← Stack.length_toList, hvalues, Stack.length_toList]

/-! ## Stacks of different capacity -/

/-- The capacity of the stack shows in overflows only.  Runs on stacks of two capacities have the
same outcome and show the same events, or the one on the smaller stack overflows and the events of
its instructions are the first ones of the other run.  So a run that does not overflow has the same
outcome with every greater capacity. -/
theorem capacity_shows_in_overflow (limits : Limits) (program : Program) (c c' : Nat)
    (hle : c ≤ c') :
    let small := Interpreter.new { limits with stackCapacity := c }
    let large := Interpreter.new { limits with stackCapacity := c' }
    (((small.run program).1 = (large.run program).1 ∧
        ∀ (σ : Type) (view : List Int32 → σ),
          small.trace (view ∘ Stack.toList) program = large.trace (view ∘ Stack.toList) program) ∨
      ((∃ pc opcode, (small.run program).1.result = .error (.stopped .stackOverflow pc opcode)) ∧
        small.stepEvents program <+: large.stepEvents program)) ∧
    ((∀ pc opcode, (small.run program).1.result ≠ .error (.stopped .stackOverflow pc opcode)) →
      (large.run program).1 = (small.run program).1) := by
  intro small large
  have hcases := record_alike_or_overflowed small large rfl rfl hle program
  constructor
  · rcases hcases with halike | ⟨-, hresult, hevents⟩
    · left
      exact ⟨run_eq_of_alike halike, fun _ view => trace_eq_of_alike halike view⟩
    · right
      rw [small.run_eq_record program, small.stepEvents_eq_record, large.stepEvents_eq_record]
      exact ⟨hresult, hevents⟩
  · intro hroom
    rcases hcases with halike | ⟨-, ⟨pc, opcode, hresult⟩, -⟩
    · exact (run_eq_of_alike halike).symm
    · rw [small.run_eq_record program] at hroom
      exact absurd hresult (hroom pc opcode)

/-- Pushes a value and copies it twice. -/
def copiesTwice : Program :=
  #[0xB0, 5, 0x20, 0x20]

theorem capacity_shows_in_overflow_copiesTwice :
    let withCapacity (c : Nat) := Interpreter.new { maxSteps := 9, stackCapacity := c }
    2 ≤ 3 ∧ ((withCapacity 2).run copiesTwice).1.result =
        .error (.stopped .stackOverflow 3 ⟨0x20⟩) ∧
      (withCapacity 2).stepEvents copiesTwice <+: (withCapacity 3).stepEvents copiesTwice ∧
      ((withCapacity 3).run copiesTwice).1.result = .ok 3 ∧
      ((withCapacity 4).run copiesTwice).1 = ((withCapacity 3).run copiesTwice).1 := by
  intro withCapacity
  have hoverflow : ((withCapacity 2).run copiesTwice).1.result =
      .error (.stopped .stackOverflow 3 ⟨0x20⟩) := rfl
  have hroom : ((withCapacity 3).run copiesTwice).1.result = .ok 3 := rfl
  refine ⟨by decide, hoverflow, ?_, hroom, ?_⟩
  · rcases (capacity_shows_in_overflow { maxSteps := 9 } copiesTwice 2 3 (by decide)).1 with
      ⟨hsame, -⟩ | ⟨-, hevents⟩
    · cases hoverflow.symm.trans ((congrArg Outcome.result hsame).trans hroom)
    · exact hevents
  · apply (capacity_shows_in_overflow { maxSteps := 9 } copiesTwice 3 4 (by decide)).2
    intro pc opcode h
    cases hroom.symm.trans h

end Interpreter

end GlyphHint
