import GlyphHint.Command.Failure
import GlyphHint.Command.Invocation
import GlyphHint.Command.Log
import GlyphHint.Report
set_option autoImplicit false

/-!
# Executing a command

A command is decided in a fixed order: its words, its limits document, its program, and then the
run or the listing.  The first problem ends it.  A command writes its report to standard output
only if it succeeds; on standard error stand the log lines that its verbosity shows and, if it
fails, one line that says why.
-/

namespace GlyphHint.Command

open Text

/-- How a command ends. -/
structure Response where
  exitCode : Nat
  stdout : String
  stderr : String
  deriving DecidableEq, Repr, Inhabited

/-- What a word list comes to: a response, or the refusal of the words. -/
inductive Answer where
  | response (r : Response)
  | usageError
  deriving DecidableEq, Repr, Inhabited

/-- The output has colours: `CLICOLOR_FORCE` is set to anything but zero. -/
def wantsColour (lookup : String → Option String) : Bool :=
  match lookup "CLICOLOR_FORCE" with
  | some choice => choice != "0"
  | none => false

/-- The line that reports a failure. -/
def failureLine (colour : Bool) (failure : Failure) : String :=
  paint colour .boldRed "error:" ++ " " ++ failure.message ++ "\n"

/-- The response of a command after it has logged. -/
def respond (colour : Bool) (log : String) : Except Failure String → Response
  | .ok report => ⟨0, report, log⟩
  | .error failure => ⟨failure.exitCode, "", log ++ failureLine colour failure⟩

/-- The limits of an invocation over its document, if it names one. -/
def readLimits {m : Type → Type} [Monad m] (around : Surroundings m) (i : Invocation) :
    m (Except Failure Limits) := do
  match i.config with
  | none => return .ok (i.settings.applyTo {})
  | some path =>
    match ← around.readFile path with
    | .error fault => return .error (.configUnreadable path fault)
    | .ok bytes =>
      match Limits.Document.read bytes with
      | .error fault => return .error (.configRefused path fault)
      | .ok document => return .ok ((i.settings.orElse document).applyTo {})

/-- The program of an invocation. -/
def readProgram {m : Type → Type} [Monad m] (around : Surroundings m) (i : Invocation) :
    m (Except Failure Program) := do
  match i.source with
  | .hexText text => return (Hex.decode text).mapError .hexRefused
  | .input => return (← around.readInput).mapError .inputUnreadable
  | .file path => return (← around.readFile path).mapError (.programUnreadable path)

/-- Runs a program: the report and the log. -/
def runProgram (colour json : Bool) (limits : Limits) (program : Program) :
    Except Failure String × Array LogLine :=
  let (events, outcome) := (Interpreter.new limits).trace Stack.depth program
  let report := match outcome.result with
    | .error fault => .error (.faulted fault)
    | .ok steps =>
      let report : Report := ⟨steps, outcome.stack⟩
      .ok (if json then report.json else report.text colour)
  (report, #[.announcement program.size limits] ++ events.map .ofEvent)

/-- Lists a program. -/
def listProgram (colour : Bool) (program : Program) : Except Failure String :=
  match program.listing with
  | .error truncation => .error (.truncated truncation)
  | .ok instrs => .ok (Listing.text colour instrs)

/-- Does what an invocation asks for, with its limits and program at hand. -/
def perform (colour : Bool) (i : Invocation) (limits : Limits) (program : Program) : Response :=
  match i.verb with
  | .run =>
    let (report, log) := runProgram colour i.json limits program
    respond colour (showLog i.verbosity log) report
  | .disasm => respond colour "" (listProgram colour program)

/-- Executes an invocation. -/
def invoke {m : Type → Type} [Monad m] (around : Surroundings m) (i : Invocation) :
    m Response := do
  let colour := wantsColour around.lookup
  match ← readLimits around i with
  | .error failure => return respond colour "" (.error failure)
  | .ok limits =>
    match ← readProgram around i with
    | .error failure => return respond colour "" (.error failure)
    | .ok program => return perform colour i limits program

/-- The version of the command. -/
def versionText : String :=
  "hintx 0.1.0\n"

/-- A summary of the command line. -/
def usageText : String :=
  "Usage: hintx [OPTIONS] <run|disasm> [FILE] [--hex HEX]\n\n" ++
  "  run [--json]  execute a program and print the final stack\n" ++
  "  disasm        print the instruction listing of a program\n\n" ++
  "Options: --config FILE, --max-steps N, --stack-capacity N, --max-program-len N,\n" ++
  "         -v, --verbose, -h, --help, -V, --version\n"

/-- Executes a command line. -/
def execute {m : Type → Type} [Monad m] (around : Surroundings m) (words : List String) :
    m Answer := do
  match Invocation.read around.lookup words with
  | .ok invocation => return .response (← invoke around invocation)
  | .error .version => return .response ⟨0, versionText, ""⟩
  | .error .help => return .response ⟨0, usageText, ""⟩
  | .error .usageError => return .usageError

end GlyphHint.Command
