import GlyphHint.Proofs.Machine.Lockstep
import GlyphHint.Proofs.Machine.Range
import GlyphHint.Proofs.WordMachine.Perform
set_option autoImplicit false

/-!
# Runs with words

With words a run goes from head to head of its loop as the run on integers does.  At each head the
words are the integers of a state that the machine is in (`WordMachine.AtHead`), and the bounds of
that state keep every result of the next turn in its range, so the turn comes to the same
(`WordMachine.loop_turn`).  No policy that admits the ranges therefore refuses anything, and the run
comes to the outcome of the interpreter (`WordMachine.computes_run`).
-/

namespace GlyphHint.WordMachine

open Machine (State Reaches turn start)

/-- Words at the head of the loop that are the integers of a state, with a buffer that holds its
values. -/
structure AtHead (pc : Int64) (steps : UInt64) (b : Buffer) (s : State) : Prop where
  pc : pc.toInt = s.pc
  steps : steps.toNat = s.steps
  stack : Holds b s.stack

variable {policy : Policy} {program : Program} {limits : Limits} {pc : Int64} {steps : UInt64}
  {b : Buffer} {s : State}
  (hadmits : policy.Admits limits program.size) (hsize : program.size ≤ 2 ^ 62)

/-! ## One turn of the loop -/

theorem AtHead.lt_zero_iff (h : AtHead pc steps b s) : pc < 0 ↔ s.pc < 0 := by
  rw [Int64.lt_iff_toInt_lt, h.pc]
  rfl

include hadmits in
/-- A program counter that is not negative is the same number as an offset. -/
theorem AtHead.fetched_exact (h : AtHead pc steps b s) (hpc : 0 ≤ s.pc)
    (hhigh : s.pc < program.size + 2 ^ 31) :
    ∃ place, policy.toUnsigned .fetched pc = some place ∧ place.toNat = s.pc.toNat := by
  obtain ⟨place, hplace, hexact⟩ := hadmits.toUnsigned (q := .fetched) (a := pc)
    ⟨by rw [h.pc]; exact hpc, by rw [h.pc]; exact hhigh⟩ (by rw [h.pc]; exact hpc)
  exact ⟨place, hplace, by rw [hexact, h.pc]⟩

include hadmits hsize in
/-- The step counter is exact one step on. -/
theorem AtHead.steps_exact (h : AtHead pc steps b s)
    (hsteps : s.steps = 0 ∨ s.steps < limits.maxSteps.toNat) :
    ∃ next, policy.add .steps steps 1 = some next ∧ next.toNat = s.steps + 1 := by
  have hcount := h.steps
  have hone : (1 : UInt64).toNat = 1 := rfl
  obtain ⟨next, hadd, hnext⟩ := hadmits.add hsize (q := .steps) (a := steps) (b := 1)
    ⟨by omega, by omega⟩ rfl
  exact ⟨next, hadd, by omega⟩

include hadmits hsize in
/-- Wherever a run has come to, one turn of the loop with words comes to what a turn comes to. -/
theorem loop_turn {stack : Stack} (hcapacity : stack.capacity = limits.stackCapacity.toNat)
    (hreached : Reaches program limits.maxSteps.toNat (start stack) s) (h : AtHead pc steps b s)
    (turns : Nat) :
    match turn program limits.maxSteps.toNat s with
    | .finished =>
      loop policy program limits.maxSteps (turns + 1) pc steps b = some (.ok s.steps, b)
    | .failed fault stack => ∃ left,
      loop policy program limits.maxSteps (turns + 1) pc steps b = some (.error fault, left) ∧
        Holds left stack
    | .performed t => ∃ pc' steps' c, AtHead pc' steps' c t ∧
      loop policy program limits.maxSteps (turns + 1) pc steps b =
        loop policy program limits.maxSteps turns pc' steps' c := by
  have hbounded : Machine.Bounded program limits.exact (start stack) s :=
    Reaches.bounded hcapacity hreached
  rw [loop]
  by_cases hneg : s.pc < 0
  · have houtside : ¬ s.Inside program := fun hinside => Int.not_lt.mpr hinside.1 hneg
    rw [Machine.turn_of_outside houtside, if_pos (h.lt_zero_iff.mpr hneg), h.steps]
  · have hpc := Int.not_lt.mp hneg
    obtain ⟨place, hfetch, hplace⟩ := h.fetched_exact hadmits hpc hbounded.high
    obtain ⟨next, hadd, hnext⟩ := h.steps_exact hadmits hsize hbounded.steps
    rw [if_neg (mt h.lt_zero_iff.mp hneg), hfetch]
    simp only [Option.bind_eq_bind, Option.bind_some, hplace]
    -- The offset and the next count are exact, so the checks come out as they do on integers.
    rcases Machine.turn_cases program limits.maxSteps.toNat s with ⟨houtside, hturn⟩ |
      ⟨hinside, hlimit, hturn⟩ | ⟨hinside, hlimit, byte, hbyte, hcase⟩
    · have hmissing : program[s.pc.toNat]? = none :=
        Array.getElem?_eq_none (Nat.not_lt.mp fun hlt => houtside ⟨hpc, hlt⟩)
      simp only [hturn, hmissing, h.steps]
      rfl
    · have hreached : limits.maxSteps ≤ next := by
        rw [UInt64.le_iff_toNat_le, hnext]
        exact hlimit
      have hbyte := Array.getElem?_eq_getElem hinside.2
      simp only [hturn, hbyte, hadd, Option.bind_some, hreached, if_true]
      exact ⟨b, rfl, h.stack⟩
    · have hbelow : ¬ limits.maxSteps ≤ next := by
        rw [UInt64.le_iff_toNat_le, hnext]
        exact Nat.not_le.mpr hlimit
      simp only [hbyte, hadd, Option.bind_some, hbelow, if_false, h.stack.top_eq]
      rcases hcase with ⟨cause, hadmission, hturn⟩ | ⟨op, hop, hdeep, hturn⟩
      · simp only [hturn, hadmission]
        exact ⟨b, rfl, h.stack⟩
      · obtain ⟨mnemonic, hadmission⟩ := Opcode.admission_of_deep hop hdeep
        rw [← hplace] at hbyte
        have hmirrors := perform_mirrors hadmits hsize (hreached.capacity_eq.trans hcapacity)
          hbyte hop b h.stack
        rw [hplace] at hmirrors
        simp only [hturn, hadmission]
        cases hrun : GlyphHint.Action.perform program s.pc.toNat op s.stack with
        | ok target stack =>
          rw [hrun] at hmirrors
          obtain ⟨pc', c, hwords, htarget, hc⟩ := hmirrors
          simp only [hwords, Option.bind_some]
          exact ⟨pc', next, c, ⟨htarget, hnext, hc⟩, rfl⟩
        | error cause stack =>
          rw [hrun] at hmirrors
          obtain ⟨left, hwords, hleft⟩ := hmirrors
          simp only [hwords, Option.bind_some]
          exact ⟨left, rfl, hleft⟩

/-! ## Whole runs -/

/-- A buffer holds the values of a stack that has been cleared, whatever its slots are. -/
theorem holds_clear {stack : Stack} (hcapacity : stack.capacity = limits.stackCapacity.toNat)
    (hslots : b.slots.length = limits.stackCapacity.toNat) :
    Holds { b with top := 0 } stack.clear where
  represents := by
    refine ⟨b.slots, rfl, ?_⟩
    rw [stack.toList_clear, List.length_nil, Nat.zero_add, hslots]
    exact hcapacity.symm
  words := by
    rw [stack.capacity_clear, hcapacity]
    exact limits.stackCapacity.toNat_lt

theorem Holds.values_eq {stack : Stack} (h : Holds b stack) : b.values = .ok stack.toList := by
  obtain ⟨stale, rfl, -⟩ := h.represents
  simp only [Buffer.values, List.length_append, Nat.le_add_right, if_true, List.take_left]

theorem Holds.length_slots {stack : Stack} (h : Holds b stack) :
    b.slots.length = stack.capacity := by
  obtain ⟨stale, rfl, hlength⟩ := h.represents
  rw [List.length_append, hlength]

/-- On the buffer the machine with words comes to this outcome, and it keeps the slots. -/
def Computes (policy : Policy) (program : Program) (limits : Limits) (b : Buffer)
    (outcome : Outcome) : Prop :=
  ∃ left, run policy program limits b = some (outcome.result, left) ∧
    left.values = .ok outcome.stack ∧ left.slots.length = b.slots.length

section Interpreter

variable {it : Interpreter} (hlimits : it.limits = limits.exact)
  (hcapacity : it.stack.capacity = limits.stackCapacity.toNat)
  (hslots : b.slots.length = limits.stackCapacity.toNat)

include hadmits hsize hcapacity hslots

/-- Every head of the loop that the machine comes to is one that the machine with words comes to,
with a turn for each step that is left. -/
theorem comes_to_head (hshort : program.size ≤ limits.maxProgramLength.toNat)
    (hreached : Reaches program limits.maxSteps.toNat (start it.stack) s) :
    ∃ turns pc steps c, turns + s.steps = limits.maxSteps.toNat ∧ AtHead pc steps c s ∧
      run policy program limits b =
        loop policy program limits.maxSteps (turns + 1) pc steps c := by
  induction hreached with
  | refl =>
    refine ⟨limits.maxSteps.toNat, 0, 0, { b with top := 0 }, rfl,
      ⟨rfl, rfl, holds_clear hcapacity hslots⟩, ?_⟩
    exact if_neg (Nat.not_lt.mpr hshort)
  | @tail t u hreached hturn ih =>
    obtain ⟨turns, pc, steps, c, hturns, hhead, hrun⟩ := ih
    obtain ⟨-, hlimit, hsteps, -⟩ := Machine.turn_performed hturn
    obtain ⟨turns, rfl⟩ := Nat.exists_eq_add_one.mpr (show 0 < turns by omega)
    have hstep := loop_turn hadmits hsize hcapacity hreached hhead (turns + 1)
    rw [hturn] at hstep
    obtain ⟨pc', steps', c', hhead', hloop⟩ := hstep
    exact ⟨turns, pc', steps', c', by omega, hhead', hrun.trans hloop⟩

/-- Wherever the turns of the machine lead, the machine with words comes to it. -/
theorem run_of_ends (hshort : program.size ≤ limits.maxProgramLength.toNat)
    {result : Except Fault Nat} {stack : Stack}
    (hends : Machine.Ends program limits.maxSteps.toNat (start it.stack) result stack) :
    ∃ left, run policy program limits b = some (result, left) ∧ Holds left stack := by
  cases hends with
  | @finished t hreached last =>
    obtain ⟨turns, pc, steps, c, -, hhead, hrun⟩ :=
      comes_to_head hadmits hsize hcapacity hslots hshort hreached
    have hlast := loop_turn hadmits hsize hcapacity hreached hhead turns
    rw [last] at hlast
    exact ⟨c, hrun.trans hlast, hhead.stack⟩
  | @failed t fault _ hreached last =>
    obtain ⟨turns, pc, steps, c, -, hhead, hrun⟩ :=
      comes_to_head hadmits hsize hcapacity hslots hshort hreached
    have hlast := loop_turn hadmits hsize hcapacity hreached hhead turns
    rw [last] at hlast
    obtain ⟨left, hloop, hleft⟩ := hlast
    exact ⟨left, hrun.trans hloop, hleft⟩

include hlimits

/-- The machine with words comes to the outcome of the interpreter. -/
theorem computes_run : Computes policy program limits b (it.run program).1 := by
  have hlength : it.limits.maxProgramLength = limits.maxProgramLength.toNat := congrArg _ hlimits
  have hsteps : it.limits.maxSteps = limits.maxSteps.toNat := congrArg _ hlimits
  rcases Nat.lt_or_ge limits.maxProgramLength.toNat program.size with hlong | hshort
  · rw [it.run_of_long program (hlength ▸ hlong), hlength]
    exact ⟨{ b with top := 0 }, if_pos hlong, rfl, rfl⟩
  · have hends := it.ends_run program (hlength ▸ hshort)
    rw [hsteps] at hends
    obtain ⟨left, hrun, hleft⟩ := run_of_ends hadmits hsize hcapacity hslots hshort hends
    refine ⟨left, hrun, hleft.values_eq, ?_⟩
    rw [hleft.length_slots, it.capacity_run program, hcapacity, hslots]

end Interpreter

/-- No word wraps around, in runs of programs of up to `2 ^ 62` bytes under any limits, on an
interpreter that has run any other programs before.  The heads of the loop are bounded, and for a
capacity below `2 ^ 31` a depth is the same number as a value.  Every type holds the range of its
integers.  With every policy that admits the ranges, and on every buffer with as many slots as the
capacity says, the machine with words comes to the outcome of the interpreter, past the same heads
of the loop.  One of these policies refuses whatever is out of its range, so every integer that a
run computes is in its range; another lets results wrap around, and for a capacity below `2 ^ 31`
there is the one that traps where a type does not hold a result. -/
theorem no_word_wraps (limits : Limits) (program : Program) (hsize : program.size ≤ 2 ^ 62)
    (earlier : List Program) :
    let it := (Interpreter.new limits.exact).after earlier
    (∀ s, it.Visits program s →
      Machine.Bounded program limits.exact (start it.stack) s ∧
        (limits.stackCapacity.toNat < 2 ^ 31 →
          (Int32.ofNat s.stack.depth).toInt = s.stack.depth)) ∧
    (∀ q z, Quantity.InRange limits program.size q z →
      (q = .depth → limits.stackCapacity.toNat < 2 ^ 31) → q.type.Holds z) ∧
    (∀ policy : Policy, policy.Admits limits program.size →
      ∀ b : Buffer, b.slots.length = limits.stackCapacity.toNat →
        Computes policy program limits b (it.run program).1 ∧
        ∀ s, it.Visits program s → ∃ turns pc steps c, AtHead pc steps c s ∧
          run policy program limits b =
            loop policy program limits.maxSteps (turns + 1) pc steps c) ∧
    (Policy.strict limits program.size).Admits limits program.size ∧
    Policy.wrapping.Admits limits program.size ∧
    (limits.stackCapacity.toNat < 2 ^ 31 → Policy.trapping.Admits limits program.size) := by
  intro it
  obtain ⟨hlimits, hcapacity⟩ := (Interpreter.new limits.exact).after_keeps earlier
  have hsteps : it.limits.maxSteps = limits.maxSteps.toNat := congrArg _ hlimits
  have hlength : it.limits.maxProgramLength = limits.maxProgramLength.toNat := congrArg _ hlimits
  have hreached : ∀ {s}, it.Visits program s →
      Reaches program limits.maxSteps.toNat (start it.stack) s := by
    intro s hvisits
    rw [← hsteps]
    exact hvisits.reached
  refine ⟨?_, ?_, ?_, Policy.admits_strict, Policy.admits_wrapping, Policy.admits_trapping hsize⟩
  · intro s hvisits
    have hbounded : Machine.Bounded program limits.exact (start it.stack) s :=
      Reaches.bounded hcapacity (hreached hvisits)
    have hdepth : s.stack.depth ≤ limits.stackCapacity.toNat := hbounded.depth
    exact ⟨hbounded, fun hsmall => Int32.toInt_ofNat_of_lt (Nat.lt_of_le_of_lt hdepth hsmall)⟩
  · intro q z hrange hdepth
    exact hrange.holds hsize hdepth
  · intro policy hadmits b hslots
    refine ⟨computes_run hadmits hsize hlimits hcapacity hslots, ?_⟩
    intro s hvisits
    obtain ⟨turns, pc, steps, c, -, hhead, hrun⟩ :=
      comes_to_head hadmits hsize hcapacity hslots (hlength ▸ hvisits.short) (hreached hvisits)
    exact ⟨turns, pc, steps, c, hhead, hrun⟩

/-- Jumps back out of the program by the least value that a push of words can hold. -/
def jumpsOut : Program :=
  #[0xB8, 0x80, 0x00, 0x1C]

theorem no_word_wraps_jumpsOut :
    let limits : Limits := ⟨4, 1, 3⟩
    let it := Interpreter.new limits.exact
    jumpsOut.size ≤ 2 ^ 62 ∧ limits.stackCapacity.toNat < 2 ^ 31 ∧
      (Buffer.allocated 1).slots.length = limits.stackCapacity.toNat ∧
      (∃ left, run (.strict limits 4) jumpsOut limits (Buffer.allocated 1) = some (.ok 2, left) ∧
        left.values = .ok []) ∧
      (∃ left, run .trapping jumpsOut limits (Buffer.allocated 1) = some (.ok 2, left)) ∧
      ∃ s, it.Visits jumpsOut s ∧ s.pc = -32765 ∧
        Machine.Bounded jumpsOut limits.exact (start it.stack) s ∧
        ∃ turns pc steps c, AtHead pc steps c s ∧
          run .trapping jumpsOut limits (Buffer.allocated 1) =
            loop .trapping jumpsOut limits.maxSteps (turns + 1) pc steps c := by
  intro limits it
  have hsize : jumpsOut.size ≤ 2 ^ 62 := by decide
  have hcapacity : limits.stackCapacity.toNat < 2 ^ 31 := by decide
  have hslots : (Buffer.allocated 1).slots.length = limits.stackCapacity.toNat := rfl
  obtain ⟨hheads, -, hpolicies, hstrict, -, htrapping⟩ := no_word_wraps limits jumpsOut hsize []
  obtain ⟨⟨left, hleft, hvalues, -⟩, -⟩ := hpolicies _ hstrict (Buffer.allocated 1) hslots
  obtain ⟨⟨left', hleft', -⟩, hcomes⟩ :=
    hpolicies _ (htrapping hcapacity) (Buffer.allocated 1) hslots
  -- The run pushes the offset, jumps by it and is then in front of the program.
  obtain ⟨r, s, hpushed, hjumped, hpc⟩ : ∃ r s,
      turn jumpsOut 3 (start it.stack) = .performed r ∧ turn jumpsOut 3 r = .performed s ∧
        s.pc = -32765 := ⟨_, _, rfl, rfl, by decide +kernel⟩
  have hvisits : it.Visits jumpsOut s :=
    ⟨Nat.le_refl 4, (Reaches.single hpushed).trans (Reaches.single hjumped)⟩
  exact ⟨hsize, hcapacity, hslots, ⟨left, hleft, hvalues⟩, ⟨left', hleft'⟩, s, hvisits, hpc,
    (hheads s hvisits).1, hcomes s hvisits⟩

end GlyphHint.WordMachine
