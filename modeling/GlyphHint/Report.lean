import GlyphHint.Fixed
import GlyphHint.Instr.Listing
set_option autoImplicit false

/-!
# Reports

A run that ends normally is reported as its number of steps, the depth of the stack and the stack
itself, either for reading, with each value also as a decimal coordinate, or as a JSON document.  A
listing for reading has one line per instruction: the offset, filled up to four digits, and the
instruction's text, tinted by how far the machine supports the opcode.

Terminal colours are data: a tint wraps a piece of text in an escape sequence and a reset, and only
if the output wants colours.  Columns are aligned by filling up on the left; a text that is wider
than its column keeps its width.
-/

namespace GlyphHint

/-! ## Coloured and aligned text -/

namespace Text

/-- How a piece of text is shown on a terminal. -/
inductive Tint where
  | dim
  | cyan
  | yellow
  | red
  | boldRed
  deriving DecidableEq, Repr, Inhabited

/-- The number of a tint in an escape sequence. -/
def Tint.code : Tint → String
  | .dim => "2"
  | .cyan => "36"
  | .yellow => "33"
  | .red => "31"
  | .boldRed => "1;31"

/-- A piece of text in a tint, where the output wants colours. -/
def paint (colour : Bool) (tint : Tint) (text : String) : String :=
  if colour then "\x1b[" ++ tint.code ++ "m" ++ text ++ "\x1b[0m" else text

/-- A text filled up on the left to the width of its column. -/
def alignRight (fill : Char) (width : Nat) (text : String) : String :=
  String.ofList (List.replicate (width - text.length) fill) ++ text

end Text

open Text

/-! ## Listings -/

namespace Instr

/-- The text of an instruction, plain if the machine runs it. -/
def tinted (colour : Bool) (i : Instr) : String :=
  match i.opcode.entry? with
  | some ⟨_, _, _, .runs _⟩ => i.text
  | some ⟨_, _, _, .unimplemented⟩ => paint colour .yellow i.text
  | none => paint colour .red i.text

/-- The line of an instruction. -/
def line (colour : Bool) (i : Instr) : String :=
  alignRight '0' 4 (toString i.offset) ++ ": " ++ i.tinted colour ++ "\n"

end Instr

/-- The listing of a program for reading. -/
def Listing.text (colour : Bool) (instrs : Array Instr) : String :=
  instrs.foldl (fun lines i => lines ++ i.line colour) ""

/-! ## Results of runs -/

/-- What is reported of a successful run. -/
structure Report where
  steps : Nat
  /-- the stack that is left, bottom to top -/
  stack : List Int32
  deriving DecidableEq, Repr, Inhabited

namespace Report

/-- The line of one value: its index, the word, and the coordinate it stands for. -/
def valueLine (colour : Bool) (index : Nat) (v : Int32) : String :=
  "  " ++ alignRight ' ' 4 (toString index) ++ "  " ++ alignRight ' ' 11 (toString v.toInt) ++ "  "
    ++ paint colour .dim ("(" ++ Fixed.decimal v ++ ")") ++ "\n"

/-- The line of a labelled number. -/
def labelLine (colour : Bool) (label : String) (n : Nat) : String :=
  paint colour .dim label ++ " " ++ paint colour .cyan (toString n) ++ "\n"

/-- The report for reading. -/
def text (colour : Bool) (r : Report) : String :=
  let head := labelLine colour "Steps:" r.steps ++ labelLine colour "Depth:" r.stack.length
  r.stack.zipIdx.foldl (fun lines (v, index) => lines ++ valueLine colour index v) head

/-- The members of the stack's array, one to a line. -/
def jsonStack : List Int32 → String
  | [] => "[]"
  | v :: rest =>
    let first := "[\n    " ++ toString v.toInt
    rest.foldl (fun lines w => lines ++ ",\n    " ++ toString w.toInt) first ++ "\n  ]"

/-- The report as a JSON document. -/
def json (r : Report) : String :=
  "\x7b\n  \"steps\": " ++ toString r.steps ++ ",\n  \"depth\": " ++ toString r.stack.length
    ++ ",\n  \"stack\": " ++ jsonStack r.stack ++ "\n\x7d\n"

end Report

end GlyphHint
