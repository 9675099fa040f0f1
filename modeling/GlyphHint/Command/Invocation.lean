import GlyphHint.Command.Arguments
set_option autoImplicit false

/-!
# Invocations

An invocation joins what a command line gives before and behind the subcommand with the
environment.  For each limit on its own, the option behind the subcommand counts, else the one
before it, else the environment variable; a limit that none of them sets stays open.
-/

namespace GlyphHint.Command

/-! ## The environment -/

/-- The environment variable of a limit. -/
def environmentName : Limits.Field → String
  | .maxProgramLength => "HINTX_MAX_PROGRAM_LEN"
  | .stackCapacity => "HINTX_STACK_CAPACITY"
  | .maxSteps => "HINTX_MAX_STEPS"

/-- The value of one limit from the levels and the environment.  The variable is consulted, and
must be valid, unless the option is given at both levels. -/
def Arguments.setting? (a : Arguments) (lookup : String → Option String) (field : Limits.Field) :
    Except Early (Option Nat) :=
  let behind := a.behind.settings.get? field
  let before := a.before.settings.get? field
  if behind.isSome && before.isSome then .ok behind
  else
    match lookup (environmentName field) with
    | none => .ok (behind <|> before)
    | some text =>
      match Text.signedNatural? text.toList with
      | none => .error .usageError
      | some n => .ok (behind <|> before <|> some n)

/-- The settings from the levels and the environment. -/
def Arguments.settings? (a : Arguments) (lookup : String → Option String) :
    Except Early Settings := do
  return {
    maxProgramLength := ← a.setting? lookup .maxProgramLength
    stackCapacity := ← a.setting? lookup .stackCapacity
    maxSteps := ← a.setting? lookup .maxSteps }

/-! ## Invocations -/

/-- Where the program comes from. -/
inductive Source where
  /-- hexadecimal text on the command line -/
  | hexText (text : String)
  /-- a file -/
  | file (path : String)
  /-- standard input -/
  | input
  deriving DecidableEq, Repr, Inhabited

/-- A command line that has been understood, with the environment. -/
structure Invocation where
  verb : Verb
  source : Source
  json : Bool
  verbosity : Nat
  config : Option String
  settings : Settings
  deriving DecidableEq, Repr, Inhabited

/-- The source of the program: standard input stands in for the file `-` and for no file. -/
def Given.source (g : Given) : Source :=
  match g.hex, g.file with
  | some text, _ => .hexText text
  | none, none => .input
  | none, some path => if path = "-" then .input else .file path

/-- Understands a command line: what stands behind the subcommand wins over what stands before. -/
def Invocation.read (lookup : String → Option String) (words : List String) :
    Except Early Invocation := do
  let a ← readWords {} words
  let settings ← a.settings? lookup
  return {
    verb := a.verb
    source := a.behind.source
    json := a.behind.json
    verbosity := if a.behind.verbosity = 0 then a.before.verbosity else a.behind.verbosity
    config := a.behind.config <|> a.before.config
    settings := settings }

end GlyphHint.Command
