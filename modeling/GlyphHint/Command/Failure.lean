import GlyphHint.Command.Surroundings
import GlyphHint.Fault
import GlyphHint.Instr.Listing
import GlyphHint.Limits.Document
import GlyphHint.Text.Hex
set_option autoImplicit false

/-!
# Failures of a command

Why an understood command line does not lead to a report.  A fault of the run ends the command with
exit code 3, a problem with any of its inputs with exit code 2.
-/

namespace GlyphHint.Command

/-- Why a command fails. -/
inductive Failure where
  /-- the limits document cannot be read -/
  | configUnreadable (path : String) (fault : ReadFault)
  /-- the limits document cannot be understood -/
  | configRefused (path : String) (fault : Limits.Document.Fault)
  /-- the program file cannot be read -/
  | programUnreadable (path : String) (fault : ReadFault)
  /-- standard input cannot be read -/
  | inputUnreadable (fault : ReadFault)
  /-- the program's text is not hexadecimal -/
  | hexRefused (fault : Hex.Fault)
  /-- the program cannot be listed -/
  | truncated (truncation : Truncation)
  /-- the run failed -/
  | faulted (fault : Fault)
  deriving DecidableEq, Repr, Inhabited

namespace Failure

/-- The exit code of a failed command. -/
def exitCode : Failure → Nat
  | .faulted _ => 3
  | _ => 2

/-- The report of a failed command.  About a limits document that is not understood it also gives
the JSON library's own description of the first error; `<json error>` stands for this text, which
the reading of a document does not produce. -/
def message : Failure → String
  | .configUnreadable path fault => "read config " ++ path ++ ": " ++ fault.message
  | .configRefused path .notText =>
    "read config " ++ path ++ ": stream did not contain valid UTF-8"
  | .configRefused path .malformed => "parse config " ++ path ++ ": <json error>"
  | .programUnreadable path fault => "read program " ++ path ++ ": " ++ fault.message
  | .inputUnreadable fault => "read stdin: " ++ fault.message
  | .hexRefused fault => "parse hex program: " ++ fault.message
  | .truncated truncation => truncation.message
  | .faulted fault => fault.message

end Failure

end GlyphHint.Command
