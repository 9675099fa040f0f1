set_option autoImplicit false

/-!
# Resource limits

A run is bounded in three ways: by the length of the program, by the number of values on the stack
and by the number of steps.  The step limit is exclusive: a run fails when its step counter reaches
it.

A source of limits, such as a document, the environment or a command line, sets some of them and
leaves the others open.  Settings of two sources combine field by field, the first source winning
(`Settings.orElse`), and settle to limits over a base that has a value for every field.  In every
source a limit is written in decimal digits and fits an unsigned 64-bit word.
-/

namespace GlyphHint

/-- The bounds of a run. -/
structure Limits where
  /-- the longest accepted program, in bytes -/
  maxProgramLength : Nat := 50000
  /-- the number of stack slots -/
  stackCapacity : Nat := 800
  /-- the step count at which a run fails -/
  maxSteps : Nat := 100000
  deriving DecidableEq, Repr, Inhabited

namespace Limits

/-- The name of a limit. -/
inductive Field where
  | maxProgramLength
  | stackCapacity
  | maxSteps
  deriving DecidableEq, Repr, Inhabited

/-- The value of one limit. -/
def get (l : Limits) : Field → Nat
  | .maxProgramLength => l.maxProgramLength
  | .stackCapacity => l.stackCapacity
  | .maxSteps => l.maxSteps

end Limits

/-- The limits that a source sets. -/
structure Settings where
  maxProgramLength : Option Nat := none
  stackCapacity : Option Nat := none
  maxSteps : Option Nat := none
  deriving DecidableEq, Repr, Inhabited

namespace Settings

/-- The value a source sets for one limit. -/
def get? (s : Settings) : Limits.Field → Option Nat
  | .maxProgramLength => s.maxProgramLength
  | .stackCapacity => s.stackCapacity
  | .maxSteps => s.maxSteps

/-- Sets one limit. -/
def set (s : Settings) (field : Limits.Field) (n : Nat) : Settings :=
  match field with
  | .maxProgramLength => { s with maxProgramLength := some n }
  | .stackCapacity => { s with stackCapacity := some n }
  | .maxSteps => { s with maxSteps := some n }

/-- The settings of two sources; where both set a limit, the first one counts. -/
def orElse (s t : Settings) : Settings where
  maxProgramLength := s.maxProgramLength <|> t.maxProgramLength
  stackCapacity := s.stackCapacity <|> t.stackCapacity
  maxSteps := s.maxSteps <|> t.maxSteps

/-- The limits of a source over a base. -/
def applyTo (s : Settings) (base : Limits) : Limits where
  maxProgramLength := s.maxProgramLength.getD base.maxProgramLength
  stackCapacity := s.stackCapacity.getD base.stackCapacity
  maxSteps := s.maxSteps.getD base.maxSteps

theorem get?_orElse (s t : Settings) (field : Limits.Field) :
    (s.orElse t).get? field = (s.get? field <|> t.get? field) := by
  cases field <;> rfl

theorem get_applyTo (s : Settings) (base : Limits) (field : Limits.Field) :
    (s.applyTo base).get field = (s.get? field).getD (base.get field) := by
  cases field <;> rfl

theorem get?_set (s : Settings) (field other : Limits.Field) (n : Nat) :
    (s.set field n).get? other = if field = other then some n else s.get? other := by
  cases field <;> cases other <;> rfl

end Settings

/-! ## Written numbers

Decimal digits are read as a natural number that fits an unsigned 64-bit word.  The reading stops at
the first digit that carries it past the greatest word, so its cost does not depend on the value.
-/

namespace Text

/-- The greatest unsigned 64-bit word. -/
def maxWord64 : Nat :=
  0xFFFFFFFFFFFFFFFF

/-- The decimal value of a digit. -/
def digit? (c : Char) : Option Nat :=
  if c.isDigit then some (c.toNat - '0'.toNat) else none

/-- Appends digits to the number read so far. -/
def extendNatural? (n : Nat) : List Char → Option Nat
  | [] => some n
  | c :: rest =>
    match digit? c with
    | none => none
    | some d => if 10 * n + d ≤ maxWord64 then extendNatural? (10 * n + d) rest else none

/-- The number of a nonempty row of digits, if it is a 64-bit word. -/
def natural? : List Char → Option Nat
  | [] => none
  | digits => extendNatural? 0 digits

/-- The number of a row of digits that may follow a plus sign. -/
def signedNatural? : List Char → Option Nat
  | '+' :: digits => natural? digits
  | digits => natural? digits

end Text

end GlyphHint
