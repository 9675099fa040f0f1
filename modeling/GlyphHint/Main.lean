import GlyphHint.Command.Execute
set_option autoImplicit false

/-!
# The command line program

Gathers the surroundings of the command from the operating system, executes the command and writes
its response.
-/

namespace GlyphHint.Command

/-- The fault of an error code, whose number may come negated. -/
def ReadFault.ofCode (code : UInt32) (text : String) : ReadFault :=
  .ofNumber (if code < 0x80000000 then code.toNat else (-code).toNat) text

/-- The fault of a failed reading. -/
def ReadFault.ofError : IO.Error → ReadFault
  | .noFileOrDirectory _ code text => .ofCode code text
  | .permissionDenied _ code text => .ofCode code text
  | .inappropriateType _ code text => .ofCode code text
  | .invalidArgument _ code text => .ofCode code text
  | .otherError code text => .ofCode code text
  | error => .ofNumber 5 (toString error)

/-- The bytes of a reading. -/
def reading (action : IO ByteArray) : IO Reading := do
  match ← action.toBaseIO with
  | .ok bytes => return .ok bytes.data
  | .error error => return .error (.ofError error)

/-- The surroundings that the operating system gives. -/
def systemSurroundings (environment : List (String × Option String)) : Surroundings IO where
  lookup name := (environment.lookup name).join
  readFile path := reading (IO.FS.readBinFile path)
  readInput := reading do (← IO.getStdin).readBinToEnd

end GlyphHint.Command

open GlyphHint GlyphHint.Command in
def main (words : List String) : IO UInt32 := do
  let names := "CLICOLOR_FORCE" :: Limits.Document.order.map environmentName
  let environment ← names.mapM fun name => return (name, ← IO.getEnv name)
  match ← execute (systemSurroundings environment) words with
  | .usageError =>
    IO.eprint usageText
    return 2
  | .response r =>
    IO.eprint r.stderr
    IO.print r.stdout
    return r.exitCode.toUInt32
