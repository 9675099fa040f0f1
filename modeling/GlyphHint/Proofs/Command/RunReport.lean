import GlyphHint.Proofs.Command.Decision
import GlyphHint.Proofs.Report
set_option autoImplicit false

/-!
# What a successful run writes

A command that runs a program without a fault writes one of the two reports of the state that the
interpreter ends in, and from either of them the steps, the depth and the stack of this state can be
read back and nothing else (`run_reports_tell`).
-/

namespace GlyphHint.Command

open Json Report

variable {around : Surroundings Id} {i : Invocation} {document : Settings} {program : Program}
  {limits : Limits} {steps : Nat}

/-- A run that succeeds is reported in the format that is asked for. -/
theorem taskReport_of_success (verb : i.verb = .run)
    (success : ((Interpreter.new limits).run program).1.result = .ok steps) (colour : Bool) :
    i.taskReport colour limits program =
      .ok (if i.json then Report.json ⟨steps, ((Interpreter.new limits).run program).1.stack⟩
        else Report.text colour ⟨steps, ((Interpreter.new limits).run program).1.stack⟩) := by
  simp only [Invocation.taskReport, verb, report_runProgram, outcomeReport, success]

theorem execute_of_success {line : List String}
    (understood : Invocation.read around.lookup line = .ok i) (verb : i.verb = .run)
    (said : DocumentSays around i document) (supplies : Supplies around i program)
    (success : ((Interpreter.new (i.limits document)).run program).1.result = .ok steps) :
    ∃ log, execute around line = pure (.response ⟨0,
      if i.json then
        Report.json ⟨steps, ((Interpreter.new (i.limits document)).run program).1.stack⟩
      else Report.text (wantsColour around.lookup)
        ⟨steps, ((Interpreter.new (i.limits document)).run program).1.stack⟩, log⟩) := by
  rw [execute_of_understood understood, invoke_of_supplies said supplies, perform_eq,
    taskReport_of_success verb success]
  exact ⟨_, rfl⟩

/-- Both reports of a successful run tell the state that the interpreter ends in.  The depth of its
stack is the number of values on it.  The JSON report is the document of an object with the steps,
the depth and the stack from bottom to top, and of nothing else.  The report for reading, without
colours, has a line for the steps, one for the depth and one for each value, in which the words are
the index, the value and the value's decimal in brackets.  Either way there are no other steps,
depth and stack that the report could tell. -/
theorem run_reports_tell {line : List String}
    (understood : Invocation.read around.lookup line = .ok i) (verb : i.verb = .run)
    (said : DocumentSays around i document) (supplies : Supplies around i program)
    (success : ((Interpreter.new (i.limits document)).run program).1.result = .ok steps) :
    let left := ((Interpreter.new (i.limits document)).run program).2.stack
    ∃ r : Response, execute around line = pure (.response r) ∧ r.exitCode = 0 ∧
      left.toList.length = left.depth ∧
      (i.json = true →
        (∀ marks, IsDocument marks r.stdout ↔
          marks = documentMarks steps left.depth left.toList) ∧
        ∀ steps' depth' stack', IsDocument (documentMarks steps' depth' stack') r.stdout ↔
          steps' = steps ∧ depth' = left.depth ∧ stack' = left.toList) ∧
      (i.json = false → wantsColour around.lookup = false →
        ShownIn r.stdout steps left.depth left.toList ∧
        ∀ steps' depth' stack', ShownIn r.stdout steps' depth' stack' ↔
          steps' = steps ∧ depth' = left.depth ∧ stack' = left.toList) := by
  intro left
  obtain ⟨log, hexecute⟩ := execute_of_success understood verb said supplies success
  have hdepth : left.toList.length = left.depth := left.length_toList
  refine ⟨_, hexecute, rfl, hdepth, ?json, ?text⟩
  case json =>
    intro hjson
    have hdocument := isDocument_json ⟨steps, left.toList⟩
    rw [hdepth] at hdocument
    simp only [hjson, if_true]
    have hunique : ∀ marks, IsDocument marks (Report.json ⟨steps, left.toList⟩) ↔
        marks = documentMarks steps left.depth left.toList := by
      intro marks
      constructor
      · exact fun h => h.unique hdocument
      · rintro rfl
        exact hdocument
    refine ⟨hunique, fun steps' depth' stack' => (hunique _).trans ?_⟩
    constructor
    · exact documentMarks_inj
    · rintro ⟨rfl, rfl, rfl⟩
      rfl
  case text =>
    intro htext hcolour
    have hshown := shownIn_text ⟨steps, left.toList⟩
    rw [hdepth] at hshown
    simp only [htext, hcolour, Bool.false_eq_true, if_false]
    refine ⟨hshown, fun steps' depth' stack' => ?_⟩
    constructor
    · exact fun h => h.unique hshown
    · rintro ⟨rfl, rfl, rfl⟩
      exact hshown

/-- Surroundings with a program on standard input that pushes a negative word and another one. -/
def negativePlace : Surroundings Id where
  lookup _ := none
  readFile _ := .error .notFound
  readInput := .ok #[0xB9, 0xFF, 0xFF, 0x00, 0xA1]

/-- The reports of a run that leaves a negative value below another one. -/
theorem run_reports_tell_negative :
    let r : Response := ⟨0, "\x7b\n  \"steps\": 1,\n  \"depth\": 2,\n  \"stack\": [\n    -1,\n" ++
      "    161\n  ]\n\x7d\n", ""⟩
    let r' : Response := ⟨0, "Steps: 1\nDepth: 2\n     0           -1  (-0.015625)\n" ++
      "     1          161  (2.515625)\n", ""⟩
    execute negativePlace ["run", "--json"] = pure (.response r) ∧
      execute negativePlace ["run"] = pure (.response r') ∧
      (∀ marks, IsDocument marks r.stdout ↔ marks = documentMarks 1 2 [-1, 161]) ∧
      ∀ steps depth stack, ShownIn r'.stdout steps depth stack ↔
        steps = 1 ∧ depth = 2 ∧ stack = [-1, 161] := by
  intro r r'
  let i (json : Bool) : Invocation := ⟨.run, .input, json, 0, none, {}⟩
  have understood : Invocation.read negativePlace.lookup ["run", "--json"] = .ok (i true) := by
    decide +kernel
  have understood' : Invocation.read negativePlace.lookup ["run"] = .ok (i false) := by
    decide +kernel
  have hrun : ∀ json, ((Interpreter.new ((i json).limits {})).run
      #[0xB9, 0xFF, 0xFF, 0x00, 0xA1]).1.result = .ok 1 := by
    decide +kernel
  have hstack : ∀ json, ((Interpreter.new ((i json).limits {})).run
      #[0xB9, 0xFF, 0xFF, 0x00, 0xA1]).2.stack.toList = [-1, 161] := by
    decide +kernel
  have hdepth : ∀ json, ((Interpreter.new ((i json).limits {})).run
      #[0xB9, 0xFF, 0xFF, 0x00, 0xA1]).2.stack.depth = 2 := by
    decide +kernel
  have hr : Id.run (execute negativePlace ["run", "--json"]) = .response r := by
    decide +kernel
  have hr' : Id.run (execute negativePlace ["run"]) = .response r' := by
    decide +kernel
  obtain ⟨s, hs, -, -, hjson, -⟩ := run_reports_tell understood rfl (.nothing rfl)
    (.input rfl rfl) (hrun true)
  obtain ⟨s', hs', -, -, -, htext⟩ := run_reports_tell understood' rfl (.nothing rfl)
    (.input rfl rfl) (hrun false)
  cases Answer.response.inj (hs.symm.trans hr)
  cases Answer.response.inj (hs'.symm.trans hr')
  have hdocument := (hjson rfl).1
  have hshown := (htext rfl rfl).2
  rw [hstack true, hdepth true] at hdocument
  rw [hstack false, hdepth false] at hshown
  exact ⟨hs, hs', hdocument, hshown⟩

end GlyphHint.Command
