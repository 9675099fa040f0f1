import GlyphHint.Fixed
import GlyphHint.Opcode
import GlyphHint.Opcode.Table
import GlyphHint.Program
import GlyphHint.Instr.Listing
import GlyphHint.Stack
import GlyphHint.Stack.Request
import GlyphHint.Branch
import GlyphHint.Fault
import GlyphHint.Limits
import GlyphHint.Limits.Document
import GlyphHint.Machine.Step
import GlyphHint.Machine.Run
import GlyphHint.Interpreter
import GlyphHint.Report
import GlyphHint.Json.Token
import GlyphHint.Json.Nesting
import GlyphHint.Text.Hex
import GlyphHint.Command.Arguments
import GlyphHint.Command.Invocation
import GlyphHint.Command.Surroundings
import GlyphHint.Command.Failure
import GlyphHint.Command.Log
import GlyphHint.Command.Execute
import GlyphHint.Main
import GlyphHint.Proofs.Machine.Action
import GlyphHint.Proofs.Machine.Effect
import GlyphHint.Proofs.Opcode.Encoding
import GlyphHint.Proofs.Machine.Turn
import GlyphHint.Proofs.Program.Layout
import GlyphHint.Proofs.Branch.Scan
import GlyphHint.Proofs.Structured.Block
import GlyphHint.Proofs.Structured.Simulation
import GlyphHint.Proofs.Machine.Locality
import GlyphHint.Proofs.Machine.Failure
import GlyphHint.Proofs.Machine.Guard
import GlyphHint.Proofs.Program.Boundary
import GlyphHint.Proofs.Machine.Linear
import GlyphHint.Proofs.Machine.Record
import GlyphHint.Proofs.Machine.Lockstep
import GlyphHint.Proofs.Machine.StepLimit
import GlyphHint.Proofs.Machine.Trace
import GlyphHint.Proofs.Program.Written
import GlyphHint.Proofs.Program.Window
import GlyphHint.Proofs.Branch.Bracket
import GlyphHint.Proofs.Branch.Rejoin
import GlyphHint.Proofs.Stack.BoundedList
import GlyphHint.Proofs.Stack.Buffer
import GlyphHint.Proofs.Command.Problem
import GlyphHint.Proofs.Command.OneLine
import GlyphHint.Proofs.Command.Decision
import GlyphHint.Proofs.Command.Line
import GlyphHint.Proofs.Command.Given
import GlyphHint.Proofs.Command.Precedence
import GlyphHint.Proofs.Machine.Push
import GlyphHint.Proofs.Command.Supply
import GlyphHint.Proofs.Text.Coloured
import GlyphHint.Proofs.Command.Presentation
import GlyphHint.Proofs.Machine.Jump
import GlyphHint.Proofs.Program.Concatenation
import GlyphHint.Proofs.Program.Part
import GlyphHint.Proofs.Machine.Part
import GlyphHint.Proofs.Machine.Appended
import GlyphHint.Proofs.Machine.Moved
import GlyphHint.Proofs.Fixed.Scaling
import GlyphHint.Proofs.Fixed.Grid
import GlyphHint.Proofs.Stack.Rotation
import GlyphHint.Proofs.Machine.Indexed
import GlyphHint.Proofs.Text.HexGrammar
import GlyphHint.Proofs.Command.HexProgram
import GlyphHint.Proofs.Json.Lexeme
import GlyphHint.Proofs.Text.Numeral
import GlyphHint.Proofs.Json.Value
import GlyphHint.Proofs.Limits.Document
import GlyphHint.Proofs.Limits.Mention
import GlyphHint.Proofs.Limits.Serialised
import GlyphHint.Proofs.Command.LimitsDocument
import GlyphHint.Proofs.Fixed.Shortest
import GlyphHint.Proofs.Fixed.Decimal
import GlyphHint.Proofs.Opcode.Mnemonic
import GlyphHint.Proofs.Text.Words
import GlyphHint.Proofs.Program.Disassembly
import GlyphHint.Proofs.Json.Mark
import GlyphHint.Proofs.Report
import GlyphHint.Proofs.Command.RunReport
import GlyphHint.Proofs.WordMachine.Quantity
import GlyphHint.Proofs.WordMachine.Machine
import GlyphHint.Proofs.WordMachine.Mirror
import GlyphHint.Proofs.WordMachine.Scan
import GlyphHint.Proofs.WordMachine.Perform
import GlyphHint.Proofs.Machine.Range
import GlyphHint.Proofs.WordMachine.Run
