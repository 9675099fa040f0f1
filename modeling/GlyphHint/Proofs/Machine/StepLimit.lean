import GlyphHint.Proofs.Machine.Failure
set_option autoImplicit false

/-!
# The step limit cuts runs off

A turn looks at the step limit before it does anything else, and nothing else in it depends on the
limit.  So a run goes the same way under all limits, for as far as they let it
(`Machine.Reaches.of_limit`), and a run that ends with its step counter at `count` ends like that
under every limit above `count` and is cut off by every other one (`Machine.EndsAt.of_limit`,
`Machine.EndsAt.cut_off`).
-/

namespace GlyphHint

namespace Machine

variable {program : Program} {m n : Nat} {s t : State}

/-- Where neither of two limits is met, a turn does the same under both. -/
theorem turn_of_limits (hm : s.steps + 1 < m) (hn : s.steps + 1 < n) :
    turn program m s = turn program n s := by
  simp only [turn, Nat.not_le.mpr hm, Nat.not_le.mpr hn, if_false]

/-- What is reached under one limit is reached under every limit that leaves the steps for it. -/
theorem Reaches.of_limit (h : Reaches program m s t) (hn : t.steps ≤ max n 1 - 1) :
    Reaches program n s t := by
  induction h with
  | refl => exact .refl s
  | @tail u v _ hlast ih =>
    obtain ⟨-, hm, hsteps, -⟩ := turn_performed hlast
    have hu : u.steps + 1 < n := by omega
    rw [turn_of_limits hm hu] at hlast
    exact (ih (by omega)).trans (.single hlast)

/-- The step counter takes every value on the way, in the program. -/
theorem Reaches.exists_steps_eq (h : Reaches program m s t) {k : Nat} (hs : s.steps ≤ k)
    (ht : k < t.steps) : ∃ u, Reaches program m s u ∧ u.Inside program ∧ u.steps = k := by
  induction h with
  | refl => omega
  | @tail u v hreached hlast ih =>
    obtain ⟨-, -, hsteps, -⟩ := turn_performed hlast
    rcases Nat.lt_or_ge k u.steps with hearlier | hlater
    · exact ih hearlier
    · exact ⟨u, hreached, inside_of_turn_performed hlast, by omega⟩

/-- A limit cuts off every run that comes, in the program, to the last step that it leaves. -/
theorem Reaches.cut_off (h : Reaches program m s t) (hinside : t.Inside program)
    (ht : t.steps = max n 1 - 1) : Ends program n s (.error (.tooManySteps n)) t.stack := by
  have hlimit : n ≤ t.steps + 1 := by omega
  exact .failed (h.of_limit (Nat.le_of_eq ht)) (turn_of_limit hinside hlimit)

/-- A run from the state ends with this result on this stack, and its step counter, which includes a
failing instruction, is then at `count`. -/
inductive EndsAt (program : Program) (limit : Nat) (s : State) (count : Nat) :
    Except Fault Nat → Stack → Prop where
  /-- the run leaves the program -/
  | finished {t : State} (reached : Reaches program limit s t)
      (last : turn program limit t = .finished) (counted : count = t.steps) :
      EndsAt program limit s count (.ok t.steps) t.stack
  /-- a turn fails -/
  | failed {t : State} {fault : Fault} {stack : Stack} (reached : Reaches program limit s t)
      (last : turn program limit t = .failed fault stack) (counted : count = t.steps + 1) :
      EndsAt program limit s count (.error fault) stack

variable {count : Nat} {r : Except Fault Nat} {stack : Stack}

theorem EndsAt.ends (h : EndsAt program m s count r stack) : Ends program m s r stack := by
  cases h with
  | finished reached last counted => exact .finished reached last
  | failed reached last counted => exact .failed reached last

theorem Ends.exists_endsAt (h : Ends program m s r stack) :
    ∃ count, EndsAt program m s count r stack := by
  cases h with
  | finished reached last => exact ⟨_, .finished reached last rfl⟩
  | failed reached last => exact ⟨_, .failed reached last rfl⟩

/-- A turn that fails for another reason than the step limit has not met the limit. -/
theorem steps_lt_of_turn_failed {fault : Fault} (h : turn program m t = .failed fault stack)
    (hother : ∀ k, fault ≠ .tooManySteps k) : t.steps + 1 < m := by
  rcases turn_failed h with ⟨-, ⟨-, hfault, -⟩ | ⟨hlimit, -⟩⟩
  · exact absurd hfault (hother m)
  · exact hlimit

/-- A run that the limit has not cut off has not met it. -/
theorem EndsAt.count_le (h : EndsAt program m s count r stack) (hs : s.steps ≤ max m 1 - 1)
    (hother : ∀ k, r ≠ .error (.tooManySteps k)) : count ≤ max m 1 - 1 := by
  cases h with
  | finished reached last counted =>
    rw [counted]
    exact reached.steps_le hs
  | failed reached last counted =>
    have hlimit := steps_lt_of_turn_failed last fun k hk => hother k (congrArg _ hk)
    omega

/-- It ends the same under every limit that leaves as many steps. -/
theorem EndsAt.of_limit (h : EndsAt program m s count r stack)
    (hother : ∀ k, r ≠ .error (.tooManySteps k)) (hn : count ≤ max n 1 - 1) :
    EndsAt program n s count r stack := by
  cases h with
  | finished reached last counted =>
    exact .finished (reached.of_limit (counted ▸ hn)) (turn_of_outside (turn_finished last)) counted
  | @failed t fault _ reached last counted =>
    have hlimit := steps_lt_of_turn_failed last fun k hk => hother k (congrArg _ hk)
    have hlimit' : t.steps + 1 < n := by omega
    rw [turn_of_limits hlimit hlimit'] at last
    exact .failed (reached.of_limit (by omega)) last counted

/-- Every limit that the step counter has come to cuts it off. -/
theorem EndsAt.cut_off (h : EndsAt program m s count r stack) (hs : s.steps = 0)
    (hcount : 1 ≤ count) (hn : n ≤ count) :
    ∃ left, Ends program n s (.error (.tooManySteps n)) left := by
  cases h with
  | @finished t reached last counted =>
    have hpassed : max n 1 - 1 < t.steps := by omega
    obtain ⟨u, hu, hinside, hsteps⟩ := reached.exists_steps_eq (by omega) hpassed
    exact ⟨u.stack, hu.cut_off hinside hsteps⟩
  | @failed t _ _ reached last counted =>
    rcases Nat.lt_or_ge (max n 1 - 1) t.steps with hearlier | hlast
    · obtain ⟨u, hu, hinside, hsteps⟩ := reached.exists_steps_eq (by omega) hearlier
      exact ⟨u.stack, hu.cut_off hinside hsteps⟩
    · exact ⟨t.stack, reached.cut_off (turn_failed last).1 (by omega)⟩

end Machine

namespace Interpreter

open Machine

/-- The run of a program ends with its step counter at `count`. -/
def CountsTo (it : Interpreter) (program : Program) (count : Nat) : Prop :=
  program.size ≤ it.limits.maxProgramLength ∧
    EndsAt program it.limits.maxSteps (start it.stack) count (it.run program).1.result
      (it.run program).2.stack

/-- The step counter of a successful run is at the steps that the run reports. -/
theorem CountsTo.eq_of_ok {it : Interpreter} {program : Program} {count steps : Nat}
    (h : it.CountsTo program count) (hok : (it.run program).1.result = .ok steps) :
    count = steps := by
  obtain ⟨-, hends⟩ := h
  rw [hok] at hends
  generalize (it.run program).2.stack = left at hends
  cases hends with
  | finished reached last counted => exact counted

/-- Under every other limit that leaves as many steps, a run has the same outcome. -/
theorem CountsTo.run_eq {it it' : Interpreter} {program : Program} {count : Nat}
    (h : it.CountsTo program count)
    (hlength : it.limits.maxProgramLength = it'.limits.maxProgramLength)
    (hstack : it.stack = it'.stack)
    (hother : ∀ k, (it.run program).1.result ≠ .error (.tooManySteps k))
    (hn : count ≤ max it'.limits.maxSteps 1 - 1) : (it'.run program).1 = (it.run program).1 := by
  obtain ⟨hshort, hends⟩ := h
  have hends' := (hends.of_limit hother hn).ends
  rw [hstack] at hends'
  rw [it'.run_of_ends program (hlength ▸ hshort) hends']
  rfl

/-- A new interpreter with another step limit. -/
def withMaxSteps (limits : Limits) (n : Nat) : Interpreter :=
  .new { limits with maxSteps := n }

variable {limits : Limits} {program : Program} {m n : Nat}

/-- Every program that is not too long runs to some value of the step counter. -/
theorem exists_countsTo (m : Nat) (h : program.size ≤ limits.maxProgramLength) :
    ∃ count, (withMaxSteps limits m).CountsTo program count := by
  obtain ⟨count, hends⟩ := ((withMaxSteps limits m).ends_run program h).exists_endsAt
  exact ⟨count, h, hends⟩

/-- A greater limit changes nothing about a run that the smaller one has not cut off. -/
theorem run_of_greater_limit (hle : m ≤ n)
    (hother : ∀ k, ((withMaxSteps limits m).run program).1.result ≠ .error (.tooManySteps k)) :
    ((withMaxSteps limits n).run program).1 = ((withMaxSteps limits m).run program).1 := by
  rcases Nat.lt_or_ge limits.maxProgramLength program.size with hlong | hshort
  · rw [(withMaxSteps limits m).run_of_long program hlong,
      (withMaxSteps limits n).run_of_long program hlong]
    rfl
  · obtain ⟨count, hcounts⟩ := exists_countsTo m hshort
    have hcount : count ≤ max m 1 - 1 := hcounts.2.count_le (Nat.zero_le _) hother
    have hn : count ≤ max n 1 - 1 := by omega
    exact hcounts.run_eq rfl rfl hother hn

/-- A limit that the step counter has come to cuts the run off. -/
theorem CountsTo.cut_off {count : Nat} (h : (withMaxSteps limits m).CountsTo program count)
    (hcount : 1 ≤ count) (hn : n ≤ count) :
    ((withMaxSteps limits n).run program).1.result = .error (.tooManySteps n) := by
  obtain ⟨hshort, hends⟩ := h
  obtain ⟨left, hends'⟩ := hends.cut_off rfl hcount hn
  rw [(withMaxSteps limits n).run_of_ends program hshort hends']

/-- A successful run of a program that is not empty stays below the limit. -/
theorem steps_lt_of_run_ok {steps : Nat} (hnonempty : 0 < program.size)
    (h : ((withMaxSteps limits m).run program).1.result = .ok steps) : steps < m := by
  obtain ⟨hshort, s, hreached, -, rfl⟩ := (withMaxSteps limits m).exists_finished program h
  have hsteps : s.steps ≤ max m 1 - 1 := hreached.steps_le (Nat.zero_le _)
  rcases Nat.lt_or_ge 1 m with hlimit | hlimit
  · omega
  · -- The first turn meets the limit, so the run would have failed.
    have hinside : (start (withMaxSteps limits m).stack).Inside program :=
      ⟨Int.le_refl 0, hnonempty⟩
    have hfirst : m ≤ (start (withMaxSteps limits m).stack).steps + 1 := hlimit
    rw [(withMaxSteps limits m).run_of_ends program hshort
      (.failed (.refl _) (turn_of_limit hinside hfirst))] at h
    cases h

/-- The step limit only cuts runs off, and does so at one threshold.  A run that is not cut off has
the same outcome under every greater limit.  If its step counter has come to `count`, it has this
outcome under all limits above `count`, and under all others it is cut off.  So a successful run of
a program that is not empty has taken fewer steps than its limit. -/
theorem step_limit_is_threshold (limits : Limits) (program : Program) (m : Nat) :
    let outcome (n : Nat) := ((withMaxSteps limits n).run program).1
    (∀ n, m ≤ n → (∀ k, (outcome m).result ≠ .error (.tooManySteps k)) → outcome n = outcome m) ∧
    (program.size ≤ limits.maxProgramLength →
      ∃ count, (withMaxSteps limits m).CountsTo program count) ∧
    (∀ count, (withMaxSteps limits m).CountsTo program count → 1 ≤ count →
      (∀ k, (outcome m).result ≠ .error (.tooManySteps k)) →
      ∀ n, (count < n → outcome n = outcome m) ∧
        (n ≤ count → (outcome n).result = .error (.tooManySteps n))) ∧
    (0 < program.size → ∀ steps, (outcome m).result = .ok steps → steps < m) := by
  intro outcome
  refine ⟨?_, exists_countsTo m, ?_, ?_⟩
  · intro n hle hother
    exact run_of_greater_limit hle hother
  · intro count hcounts hcount hother n
    constructor
    · intro habove
      have hn : count ≤ max n 1 - 1 := by omega
      exact hcounts.run_eq rfl rfl hother hn
    · intro hn
      exact hcounts.cut_off hcount hn
  · intro hnonempty steps hok
    exact steps_lt_of_run_ok hnonempty hok

/-- Counts 2 down to 0 in a loop of six instructions. -/
def countdown : Program :=
  #[0xB0, 2, 0xB0, 1, 0x61, 0x20, 0xB8, 0xFF, 0xF8, 0x23, 0x78]

theorem step_limit_is_threshold_countdown :
    (withMaxSteps {} 99).CountsTo countdown 13 ∧
      ((withMaxSteps {} 99).run countdown).1.result = .ok 13 ∧
      ((withMaxSteps {} 100).run countdown).1.result = .ok 13 ∧
      ((withMaxSteps {} 14).run countdown).1.result = .ok 13 ∧
      ((withMaxSteps {} 13).run countdown).1.result = .error (.tooManySteps 13) ∧
      ((withMaxSteps {} 0).run countdown).1.result = .error (.tooManySteps 0) ∧ 13 < 99 := by
  have hresult : ((withMaxSteps {} 99).run countdown).1.result = .ok 13 := by
    have hsteps : ((withMaxSteps {} 99).run countdown).1.result.toOption = some 13 := by
      decide +kernel
    cases hrun : ((withMaxSteps {} 99).run countdown).1.result with
    | ok steps =>
      rw [hrun] at hsteps
      exact congrArg _ (Option.some.inj hsteps)
    | error fault =>
      rw [hrun] at hsteps
      cases hsteps
  have hother : ∀ k, ((withMaxSteps {} 99).run countdown).1.result ≠ .error (.tooManySteps k) := by
    intro k hk
    cases hresult.symm.trans hk
  obtain ⟨hgreater, hexists, hthreshold, hbelow⟩ := step_limit_is_threshold {} countdown 99
  obtain ⟨count, hcounts⟩ := hexists (by decide)
  obtain rfl : count = 13 := hcounts.eq_of_ok hresult
  have hcut := hthreshold 13 hcounts (by decide) hother
  have hhigher := congrArg Outcome.result (hgreater 100 (by decide) hother)
  have hlowest := congrArg Outcome.result ((hcut 14).1 (by decide))
  exact ⟨hcounts, hresult, hhigher.trans hresult, hlowest.trans hresult, (hcut 13).2 (by decide),
    (hcut 0).2 (by decide), hbelow (by decide) 13 hresult⟩

end Interpreter

end GlyphHint
