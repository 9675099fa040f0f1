import GlyphHint.Interpreter
set_option autoImplicit false

/-!
# Log lines

A command reports on standard error what it does, as far as its verbosity asks for it: from one on
the program and the limits, from two on the start and end of the run, from three on every step.
-/

namespace GlyphHint.Command

/-- The importance of a log line. -/
inductive LogLevel where
  | info
  | debug
  | trace
  deriving DecidableEq, Repr, Inhabited

namespace LogLevel

/-- The name at the start of a line. -/
def name : LogLevel → String
  | .info => "INFO"
  | .debug => "DEBUG"
  | .trace => "TRACE"

/-- The least verbosity that shows lines of the level. -/
def verbosity : LogLevel → Nat
  | .info => 1
  | .debug => 2
  | .trace => 3

end LogLevel

/-- A line of the log. -/
structure LogLine where
  level : LogLevel
  text : String
  deriving DecidableEq, Repr, Inhabited

namespace LogLine

/-- The line that announces a run. -/
def announcement (length : Nat) (limits : Limits) : LogLine :=
  ⟨.info, "running program bytes=" ++ toString length ++ " cfg=HintConfig \x7b max_program_len: "
    ++ toString limits.maxProgramLength ++ ", stack_capacity: " ++ toString limits.stackCapacity
    ++ ", max_steps: " ++ toString limits.maxSteps ++ " \x7d"⟩

/-- The line of an event that carries the depth of the stack. -/
def ofEvent : Event Nat → LogLine
  | .started length => ⟨.debug, "hinting run start program_len=" ++ toString length⟩
  | .step pc mnemonic depth =>
    ⟨.trace, "step pc=" ++ toString pc ++ " op=\"" ++ mnemonic ++ "\" depth=" ++ toString depth⟩
  | .finished steps depth =>
    ⟨.debug, "hinting run finished steps=" ++ toString steps ++ " depth=" ++ toString depth⟩
  | .failed fault => ⟨.debug, "hinting run failed error=" ++ fault.message⟩

/-- The line as it is written.  What the subscriber of the log adds by itself is left out: the time
stamp at the front, the blanks that fill up the name of the level and, without `NO_COLOR`, the
colours. -/
def written (l : LogLine) : String :=
  l.level.name ++ " " ++ l.text ++ "\n"

end LogLine

/-- The written lines of a log that a verbosity shows. -/
def showLog (verbosity : Nat) (log : Array LogLine) : String :=
  log.foldl (fun shown l => if l.level.verbosity ≤ verbosity then shown ++ l.written else shown) ""

end GlyphHint.Command
