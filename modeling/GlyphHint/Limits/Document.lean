import GlyphHint.Json.Nesting
import GlyphHint.Limits
set_option autoImplicit false

/-!
# Limits documents

Limits are kept in a JSON document of one of two forms.  An object sets limits by name, each at
most once; other members are stepped over.  An array sets limits by place, in a fixed order, and
may be cut short.  A limit is a natural number below 2^64 in plain digits.  Limits that a document
does not set are left open.
-/

namespace GlyphHint.Limits.Document

open GlyphHint.Json

/-- Why a document gives no limits. -/
inductive Fault where
  /-- the bytes are not UTF-8 text -/
  | notText
  /-- the text is no limits document -/
  | malformed
  deriving DecidableEq, Repr, Inhabited

/-- The name of a limit in an object. -/
def key : Field → String
  | .maxProgramLength => "max_program_len"
  | .stackCapacity => "stack_capacity"
  | .maxSteps => "max_steps"

/-- The order of the limits in an array. -/
def order : List Field :=
  [.maxProgramLength, .stackCapacity, .maxSteps]

/-- The limit of a name. -/
def field? (name : List Char) : Option Field :=
  order.find? fun field => (key field).toList = name

/-- Reads the members of an object behind its opening brace or a comma, after the settings read so
far. -/
def readMembers (settings : Settings) (tokens : List Token) : Option Settings :=
  match tokens with
  | .string units :: .colon :: value =>
    match characters? units with
    | none => none
    | some name =>
      match field? name with
      | some field =>
        match settings.get? field, value with
        | none, .natural digits :: .comma :: rest =>
          match Text.natural? digits with
          | none => none
          | some n => readMembers (settings.set field n) rest
        | none, [.natural digits, .closeObject] => (Text.natural? digits).map (settings.set field)
        | _, _ => none
      | none =>
        match _skipped : skip .value [] value with
        | some (.comma :: rest) => readMembers settings rest
        | some [.closeObject] => some settings
        | _ => none
  | _ => none
  termination_by tokens.length
  decreasing_by
    · simp only [List.length_cons]; omega
    · have := length_of_skip_value _skipped
      simp only [List.length_cons] at *
      omega

/-- Reads the elements of an array behind its opening bracket or a comma into the fields that are
left. -/
def readElements (settings : Settings) : List Field → List Token → Option Settings
  | field :: _, [.natural digits, .closeArray] => (Text.natural? digits).map (settings.set field)
  | field :: fields, .natural digits :: .comma :: rest =>
    match Text.natural? digits with
    | none => none
    | some n => readElements (settings.set field n) fields rest
  | _, _ => none

/-- Reads a whole document from its tokens. -/
def ofTokens? : List Token → Option Settings
  | [.openObject, .closeObject] => some {}
  | [.openArray, .closeArray] => some {}
  | .openObject :: tokens => readMembers {} tokens
  | .openArray :: tokens => readElements {} order tokens
  | _ => none

/-- The settings of a document's text. -/
def ofText? (text : String) : Option Settings := do
  ofTokens? (← tokens? text.toList)

/-- The settings of a document's bytes. -/
def read (bytes : Array UInt8) : Except Fault Settings :=
  match String.fromUTF8? ⟨bytes⟩ with
  | none => .error .notText
  | some text =>
    match ofText? text with
    | none => .error .malformed
    | some settings => .ok settings

end GlyphHint.Limits.Document
