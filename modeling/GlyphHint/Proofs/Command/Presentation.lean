import GlyphHint.Proofs.Command.Decision
import GlyphHint.Proofs.Text.Coloured
set_option autoImplicit false

/-!
# Presentation

How much a command logs and whether its output has colours are matters of presentation.  An
invocation comes to one log and one report, and of these its verbosity shows a part and the
environment decides on the colours (`Course`).  So two invocations that differ in nothing else end
with the same exit code and the same output up to colours, and the one with the lower verbosity
writes a selection of the other one's log (`presentation_changes_no_result`).
-/

namespace GlyphHint.Command

open Text

/-! ## What is presentation -/

/-- Surroundings that differ at most in whether they force colours; where they do not, there are
none. -/
structure SameUpToColour (around around' : Surroundings Id) : Prop where
  noColour : around.lookup "NO_COLOR" = some "1"
  lookup : ∀ name, name ≠ "CLICOLOR_FORCE" → around'.lookup name = around.lookup name
  readFile : around'.readFile = around.readFile
  readInput : around'.readInput = around.readInput

/-- What follows the log on standard error. -/
def lastLine (colour : Bool) : Option Failure → String
  | none => ""
  | some f => failureLine colour f

/-- The responses of two invocations that differ in presentation, the first one with the lower
verbosity. -/
structure SameResult (around around' : Surroundings Id) (i : Invocation) (r r' : Response) :
    Prop where
  exitCode : r'.exitCode = r.exitCode
  /-- the outputs are equal up to colours -/
  stdout : withoutSequences r'.stdout.toList = withoutSequences r.stdout.toList
  /-- without a difference in colours the outputs are equal -/
  stdout_eq : around'.lookup "CLICOLOR_FORCE" = around.lookup "CLICOLOR_FORCE" →
    r'.stdout = r.stdout
  /-- the log of the second invocation, selected by level, is the log of the first one, and both
  report the same failure behind it, if there is one -/
  stderr : ∃ (log : List LogLine) (failure : Option Failure), (∀ l ∈ log, l.OneLine) ∧
    (failure = none ↔ r.exitCode = 0) ∧
    r'.stderr.toList = log.flatMap (·.written.toList) ++
      (lastLine (wantsColour around'.lookup) failure).toList ∧
    r.stderr.toList =
      (log.filter (·.level.verbosity ≤ i.verbosity)).flatMap (·.written.toList) ++
        (lastLine (wantsColour around.lookup) failure).toList ∧
    withoutSequences (lastLine (wantsColour around'.lookup) failure).toList =
      withoutSequences (lastLine (wantsColour around.lookup) failure).toList

/-! ## The course of an invocation -/

/-- A report in colours and without: the same failure, or texts that differ in colours only. -/
def Alike (report : Bool → Except Failure String) : Prop :=
  (∃ f, ∀ colour, report colour = .error f) ∨
    ∃ text : Bool → String, (∀ colour, report colour = .ok (text colour)) ∧
      ∀ colour, withoutSequences (text colour).toList = withoutSequences (text false).toList

/-- What an invocation comes to, whatever its presentation: all lines of its log, and its report in
colours and without. -/
structure Course (around : Surroundings Id) (i : Invocation) (log : Array LogLine)
    (report : Bool → Except Failure String) : Prop where
  oneLine : ∀ l ∈ log.toList, l.OneLine
  alike : Alike report
  presented : ∀ (around' : Surroundings Id) (verbosity : Nat), SameUpToColour around around' →
    invoke around' { i with verbosity := verbosity } =
      pure (respond (wantsColour around'.lookup) (showLog verbosity log)
        (report (wantsColour around'.lookup)))

namespace SameUpToColour

variable {around around' : Surroundings Id} (h : SameUpToColour around around') (i : Invocation)
  (verbosity : Nat)

include h

theorem refl : SameUpToColour around around :=
  ⟨h.noColour, fun _ _ => rfl, rfl, rfl⟩

theorem document : SameDocument around i around' { i with verbosity := verbosity } :=
  ⟨rfl, fun path _ => congrFun h.readFile path⟩

theorem programProblem {f : Failure} (hproblem : ProgramProblem around i f) :
    ProgramProblem around' { i with verbosity := verbosity } f := by
  cases hproblem with
  | hexText source refused => exact .hexText source refused
  | input source reading => exact .input source (h.readInput.trans reading)
  | file source reading => exact .file source ((congrFun h.readFile _).trans reading)

theorem supplies {program : Program} (hsupplies : Supplies around i program) :
    Supplies around' { i with verbosity := verbosity } program := by
  cases hsupplies with
  | hexText source decoded => exact .hexText source decoded
  | input source reading => exact .input source (h.readInput.trans reading)
  | file source reading => exact .file source ((congrFun h.readFile _).trans reading)

end SameUpToColour

theorem alike_error (f : Failure) : Alike fun _ => .error f :=
  Or.inl ⟨f, fun _ => rfl⟩

theorem alike_of_shows {text : Bool → String} (h : ∀ colour, Shows (text colour) (text false)) :
    Alike fun colour => .ok (text colour) := by
  refine Or.inr ⟨text, fun _ => rfl, fun colour => ?_⟩
  rw [(h colour).withoutSequences_eq, (h false).withoutSequences_eq]

/-- The report of a task has colours at most. -/
theorem alike_taskReport (i : Invocation) (limits : Limits) (program : Program) :
    Alike fun colour => i.taskReport colour limits program := by
  unfold Invocation.taskReport
  cases i.verb with
  | disasm =>
    simp only [listProgram]
    cases program.listing with
    | error truncation => exact alike_error _
    | ok instrs => exact alike_of_shows fun colour => Listing.shows_text colour instrs
  | run =>
    simp only [runProgram]
    obtain ⟨result, stack⟩ := ((Interpreter.new limits).trace Stack.depth program).2
    cases result with
    | error fault => exact alike_error _
    | ok steps =>
      let report : Report := ⟨steps, stack⟩
      cases i.json with
      | true => exact Or.inr ⟨fun _ => report.json, fun _ => rfl, fun _ => rfl⟩
      | false => exact alike_of_shows fun colour => report.shows_text colour

/-- Every invocation has a course. -/
theorem exists_course (around : Surroundings Id) (i : Invocation) :
    ∃ log report, Course around i log report := by
  obtain ⟨f, hdocument⟩ | ⟨document, hsaid⟩ := exists_documentProblem_or_said around i
  · refine ⟨#[], fun _ => .error f, by simp, alike_error f, ?_⟩
    intro around' verbosity hplace
    exact invoke_of_documentProblem ((hplace.document i verbosity).problem hdocument)
  obtain ⟨f, hprogram⟩ | ⟨program, hsupplies⟩ := exists_programProblem_or_supplies around i
  · refine ⟨#[], fun _ => .error f, by simp, alike_error f, ?_⟩
    intro around' verbosity hplace
    exact invoke_of_programProblem ((hplace.document i verbosity).said hsaid)
      (hplace.programProblem i verbosity hprogram)
  · refine ⟨i.taskLog (i.limits document) program,
      fun colour => i.taskReport colour (i.limits document) program,
      oneLine_of_mem_taskLog i _ program, alike_taskReport i _ program, ?_⟩
    intro around' verbosity hplace
    rw [invoke_of_supplies ((hplace.document i verbosity).said hsaid)
      (hplace.supplies i verbosity hsupplies), perform_eq]
    rfl

/-! ## Two presentations -/

theorem withoutSequences_failureLine (colour : Bool) (f : Failure) :
    withoutSequences (failureLine colour f).toList =
      "error:".toList ++ withoutSequences (" " ++ f.message ++ "\n").toList := by
  have hmark : Shows "error:" "error:" := Visible.shows (by decide)
  have hpainted := hmark.paint colour .boldRed (" " ++ f.message ++ "\n").toList
  rw [← hpainted, failureLine]
  simp only [String.toList_append, List.append_assoc]

theorem wantsColour_congr {lookup lookup' : String → Option String}
    (h : lookup' "CLICOLOR_FORCE" = lookup "CLICOLOR_FORCE") :
    wantsColour lookup' = wantsColour lookup := by
  rw [wantsColour, wantsColour, h]

/-- A lower verbosity selects from what a higher one shows. -/
theorem toList_showLog_of_le {low high : Nat} (h : low ≤ high) (log : Array LogLine) :
    (showLog low log).toList =
      ((log.toList.filter (·.level.verbosity ≤ high)).filter (·.level.verbosity ≤ low)).flatMap
        (·.written.toList) := by
  rw [toList_showLog, List.filter_filter]
  congr 1
  apply List.filter_congr
  intro l _
  rw [← Bool.decide_and]
  apply decide_eq_decide.mpr
  omega

theorem Course.sameResult {around around' : Surroundings Id} {i : Invocation}
    {log : Array LogLine} {report : Bool → Except Failure String}
    (h : Course around i log report) {verbosity : Nat} (hlower : i.verbosity ≤ verbosity) :
    SameResult around around' i
      (respond (wantsColour around.lookup) (showLog i.verbosity log)
        (report (wantsColour around.lookup)))
      (respond (wantsColour around'.lookup) (showLog verbosity log)
        (report (wantsColour around'.lookup))) := by
  have hshown : ∀ l ∈ log.toList.filter (·.level.verbosity ≤ verbosity), l.OneLine := by
    intro l hl
    exact h.oneLine l (List.mem_of_mem_filter hl)
  rcases h.alike with ⟨f, hreport⟩ | ⟨text, hreport, htext⟩
  · rw [hreport, hreport]
    refine ⟨rfl, rfl, fun _ => rfl, _, some f, hshown, ?_, ?_, ?_, ?_⟩
    · simp [respond, f.exitCode_ne.1]
    · rw [← toList_showLog]
      exact String.toList_append
    · rw [← toList_showLog_of_le hlower]
      exact String.toList_append
    · rw [lastLine, withoutSequences_failureLine, lastLine, withoutSequences_failureLine]
  · rw [hreport, hreport]
    refine ⟨rfl, ?_, ?_, _, none, hshown, by simp [respond], ?_, ?_, rfl⟩
    · exact (htext _).trans (htext _).symm
    · intro hcolour
      rw [wantsColour_congr hcolour]
      rfl
    · rw [← toList_showLog]
      simp [respond, lastLine]
    · rw [← toList_showLog_of_le hlower]
      simp [respond, lastLine]

/-- Two command lines that are understood as the same invocation up to the verbosity, in
surroundings that differ at most in whether they force colours, come to the same result: the exit
codes are equal, the outputs are equal up to colours, and on standard error the lower verbosity
writes a selection of the log by level, before the same report of a failure. -/
theorem presentation_changes_no_result (around around' : Surroundings Id)
    (words words' : List String) (i : Invocation) (verbosity : Nat)
    (understood : Invocation.read around.lookup words = .ok i)
    (understood' : Invocation.read around'.lookup words' = .ok { i with verbosity := verbosity })
    (places : SameUpToColour around around') (lower : i.verbosity ≤ verbosity) :
    ∃ r r', execute around words = pure (.response r) ∧
      execute around' words' = pure (.response r') ∧ SameResult around around' i r r' := by
  obtain ⟨log, report, hcourse⟩ := exists_course around i
  refine ⟨_, _, ?_, ?_, hcourse.sameResult lower⟩
  · rw [execute_of_understood understood]
    exact congrArg Answer.response (hcourse.presented around i.verbosity places.refl)
  · rw [execute_of_understood understood']
    exact congrArg Answer.response (hcourse.presented around' verbosity places)

/-- Surroundings with a program on standard input, in which colours are forced or not. -/
def pipedPlace (forced : Option String) : Surroundings Id where
  lookup name :=
    if name = "NO_COLOR" then some "1" else if name = "CLICOLOR_FORCE" then forced else none
  readFile _ := .error .notFound
  readInput := .ok #[0xB0, 5]

/-- A run with some of its log and without colours, and the same run with all of its log and in
colours. -/
theorem presentation_changes_no_result_pushOne :
    let announced := "INFO running program bytes=2 cfg=HintConfig \x7b max_program_len: 50000, " ++
      "stack_capacity: 800, max_steps: 100000 \x7d\n"
    let r : Response :=
      ⟨0, "Steps: 1\nDepth: 1\n     0            5  (0.078125)\n", announced⟩
    let r' : Response :=
      ⟨0, "\x1b[2mSteps:\x1b[0m \x1b[36m1\x1b[0m\n\x1b[2mDepth:\x1b[0m \x1b[36m1\x1b[0m\n" ++
          "     0            5  \x1b[2m(0.078125)\x1b[0m\n",
        announced ++ "DEBUG hinting run start program_len=2\n" ++
          "TRACE step pc=0 op=\"PUSHB\" depth=0\nDEBUG hinting run finished steps=1 depth=1\n"⟩
    execute (pipedPlace none) ["-v", "run"] = pure (.response r) ∧
      execute (pipedPlace (some "1")) ["run", "-vvv"] = pure (.response r') ∧
      SameResult (pipedPlace none) (pipedPlace (some "1")) ⟨.run, .input, false, 1, none, {}⟩
        r r' := by
  intro announced r r'
  have understood : Invocation.read (pipedPlace none).lookup ["-v", "run"] =
      .ok ⟨.run, .input, false, 1, none, {}⟩ := by
    decide +kernel
  have understood' : Invocation.read (pipedPlace (some "1")).lookup ["run", "-vvv"] =
      .ok ⟨.run, .input, false, 3, none, {}⟩ := by
    decide +kernel
  have places : SameUpToColour (pipedPlace none) (pipedPlace (some "1")) := by
    refine ⟨rfl, ?_, rfl, rfl⟩
    intro name hname
    simp [pipedPlace, hname]
  have hr : Id.run (execute (pipedPlace none) ["-v", "run"]) = .response r := by
    decide +kernel
  have hr' : Id.run (execute (pipedPlace (some "1")) ["run", "-vvv"]) = .response r' := by
    decide +kernel
  obtain ⟨s, s', hs, hs', hsame⟩ := presentation_changes_no_result (pipedPlace none)
    (pipedPlace (some "1")) ["-v", "run"] ["run", "-vvv"] _ 3 understood understood' places
    (by decide)
  cases Answer.response.inj (hs.symm.trans hr)
  cases Answer.response.inj (hs'.symm.trans hr')
  exact ⟨hs, hs', hsame⟩

end GlyphHint.Command
