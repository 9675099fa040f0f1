import GlyphHint.Proofs.Machine.Effect
import GlyphHint.Proofs.Stack.Buffer
import GlyphHint.Proofs.WordMachine.Quantity
set_option autoImplicit false

/-!
# A machine with words

The machine again, on words instead of integers: offsets, counters and nestings are words, the
program counter is a signed word, and the stack is the allocated buffer, which checks its own
indices.  Every sum, difference, product and conversion goes through a policy, by what its result
stands for, and a refused result or a failed check of the buffer breaks the whole run off.

Each loop has as many turns as it can need, a scan one for each byte of the program and a run one
more than its step limit allows.  A loop whose words take it back breaks off when it has used its
turns up.
-/

namespace GlyphHint.WordMachine

/-- A computation on the buffer that may stop with a cause, or break off. -/
abbrev Action := ExceptT Cause (StateT Buffer Option)

/-! ## The stack -/

/-- Stops. -/
def stop {α : Type} (cause : Cause) : Action α :=
  fun b => some (.error cause, b)

/-- Has the buffer serve a request. -/
def request (r : Stack.Request) : Action Stack.Reply := fun b =>
  match b.serve r with
  | .ok (reply, next) => some (.ok reply, next)
  | .error _ => none

/-- Puts a value on top. -/
def push (v : Int32) : Action Unit := do
  match ← request (.push v) with
  | .flag true => return ()
  | _ => stop .stackOverflow

/-- Takes the top value off. -/
def pop : Action Int32 := do
  match ← request .pop with
  | .value (some v) => return v
  | _ => stop .stackUnderflow

/-- Looks at the value `d` places below the top. -/
def peek (d : UInt64) : Action Int32 := do
  match ← request (.peek d.toNat) with
  | .value (some v) => return v
  | _ => stop .stackUnderflow

/-- Overwrites the top value. -/
def replaceTop (v : Int32) : Action Unit := do
  match ← request (.replace 0 v) with
  | .value (some _) => return ()
  | _ => stop .stackUnderflow

/-- Moves the value `d` places below the top onto the top. -/
def lift (d : UInt64) : Action Unit := do
  match ← request (.lift d.toNat) with
  | .flag true => return ()
  | _ => stop .invalidData

/-- Goes on only if there is room for `n` more values. -/
def needRoom (n : UInt64) : Action Unit := do
  match ← request (.hasRoom n.toNat) with
  | .flag true => return ()
  | _ => stop .stackOverflow

/-- Drops all values. -/
def clear : Action Unit := do
  let _ ← request .clear

/-- The number of values. -/
def depth : Action UInt64 :=
  fun b => some (.ok (UInt64.ofNat b.top), b)

/-- Puts values on top, one after another. -/
def pushAll : List Int32 → Action Unit
  | [] => return ()
  | v :: vs => do
    push v
    pushAll vs

section Program

variable (policy : Policy) (program : Program)

/-! ## The scan for the end of an arm -/

/-- The position of the last byte of the push at `pos`, if its count is there. -/
def lastOfPush (pos : UInt64) (shape : PushShape) : Option (Option UInt64) :=
  match shape.count with
  | .inline n => do
    let bytes ← policy.mul .valueBytes (.ofNat shape.width.bytes) (.ofNat n)
    let last ← policy.add .scanned pos bytes
    return some last
  | .prefixed => do
    let pos ← policy.add .scanned pos 1
    match program[pos.toNat]? with
    | none => return none
    | some n => do
      let bytes ← policy.mul .valueBytes (.ofNat shape.width.bytes) n.toUInt64
      let last ← policy.add .scanned pos bytes
      return some last

/-- Scans behind the byte at `pos` for the end of an arm. -/
def scan (stopAtElse : Bool) : (turns : Nat) → (pos nesting : UInt64) → Option (Option UInt64)
  | 0, _, _ => none
  | turns + 1, pos, nesting => do
    let pos ← policy.add .scanned pos 1
    match program[pos.toNat]? with
    | none => return none
    | some b =>
      match (Opcode.mk b).op? with
      | some .ifNonzero => do
        let nesting ← policy.add .nesting nesting 1
        scan stopAtElse turns pos nesting
      | some .elseArm =>
        if stopAtElse && nesting == 0 then return some pos else scan stopAtElse turns pos nesting
      | some .endIf =>
        if nesting = 0 then return some pos
        else do
          let nesting ← policy.sub .nesting nesting 1
          scan stopAtElse turns pos nesting
      | some (.push shape) => do
        match ← lastOfPush policy program pos shape with
        | none => return none
        | some last => scan stopAtElse turns last nesting
      | _ => scan stopAtElse turns pos nesting

/-- The end of the arm that starts at `pc`. -/
def endOfArm (pc : UInt64) (stopAtElse : Bool) : Action UInt64 := do
  match ← scan policy program stopAtElse program.size pc 0 with
  | some offset => return offset
  | none => stop .unbalanced

/-! ## One instruction -/

/-- The program counter behind the instruction of one byte at an offset. -/
def behind (offset : UInt64) : Option Int64 := do
  let counter ← policy.toSigned .place offset
  policy.addSigned .behind counter 1

/-- Takes an index off that counts the values below it from 1, and gives the place it names. -/
def popIndex : Action UInt64 := do
  let x ← peek 0
  let n ← depth
  if x ≤ 0 then stop .invalidData
  else
    let index ← policy.toUnsigned .index x.toInt64
    if n ≤ index then stop .invalidData
    else
      let _ ← pop
      policy.sub .indexed index 1

/-- The number of values of the push at `pc` and the offset of the first. -/
def operands (pc : UInt64) (shape : PushShape) : Action (UInt64 × UInt64) :=
  match shape.count with
  | .inline n => do
    let first ← policy.add .operands pc 1
    return (.ofNat n, first)
  | .prefixed => do
    let count ← policy.add .operands pc 1
    match program[count.toNat]? with
    | none => stop .insufficientData
    | some n => do
      let first ← policy.add .operands pc 2
      return (n.toUInt64, first)

/-- Puts the immediates of the push at `pc` on top and gives the offset behind it. -/
def pushImmediates (pc : UInt64) (shape : PushShape) : Action UInt64 := do
  let (n, first) ← operands policy program pc shape
  needRoom n
  let bytes ← policy.mul .valueBytes (.ofNat shape.width.bytes) n
  let last ← policy.add .pushEnd first bytes
  if first ≤ last ∧ last.toNat ≤ program.size then
    let count := (last.toNat - first.toNat) / shape.width.bytes
    pushAll (program.immediates shape.width first.toNat count)
    return last
  else stop .insufficientData

/-- Performs the operation of the instruction at `pc` and gives the next program counter. -/
def perform (pc : UInt64) (op : Op) : Action Int64 := do
  let counter ← policy.toSigned .place pc
  match op with
  | .elseArm => do
    let offset ← endOfArm policy program pc false
    behind policy offset
  | .endIf | .debug => policy.addSigned .behind counter 1
  | .ifNonzero => do
    let condition ← peek 0
    if condition = 0 then
      let offset ← endOfArm policy program pc true
      let next ← behind policy offset
      let _ ← pop
      return next
    else
      let _ ← pop
      policy.addSigned .behind counter 1
  | .jump => do
    let offset ← pop
    policy.addSigned .target counter offset.toInt64
  | .jumpWhen truth => do
    let condition ← pop
    let offset ← pop
    if (condition != 0) = truth then policy.addSigned .target counter offset.toInt64
    else policy.addSigned .behind counter 1
  | .dup => do
    let v ← peek 0
    push v
    policy.addSigned .behind counter 1
  | .pop => do
    let _ ← pop
    policy.addSigned .behind counter 1
  | .clear => do
    clear
    policy.addSigned .behind counter 1
  | .swap => do
    let b ← pop
    let a ← pop
    push b
    push a
    policy.addSigned .behind counter 1
  | .depth => do
    let n ← depth
    let v ← policy.toValue .depth n
    push v
    policy.addSigned .behind counter 1
  | .copyIndexed => do
    let d ← popIndex policy
    let v ← peek d
    push v
    policy.addSigned .behind counter 1
  | .moveIndexed => do
    let d ← popIndex policy
    lift d
    policy.addSigned .behind counter 1
  | .push shape => do
    let last ← pushImmediates policy program pc shape
    policy.toSigned .place last
  | .unary f => do
    let a ← peek 0
    replaceTop (f.eval a)
    policy.addSigned .behind counter 1
  | .binary f => do
    let b ← pop
    let a ← peek 0
    replaceTop (f.eval a b)
    policy.addSigned .behind counter 1
  | .divide => do
    let b ← peek 0
    let a ← peek 1
    match Fixed.div? a b with
    | none => stop .divisionByZero
    | some q =>
      let _ ← pop
      replaceTop q
      policy.addSigned .behind counter 1

/-! ## Runs -/

/-- Goes on from `pc` with `steps` steps charged. -/
def loop (maxSteps : UInt64) : (turns : Nat) → (pc : Int64) → (steps : UInt64) → Buffer →
    Option (Except Fault Nat × Buffer)
  | 0, _, _, _ => none
  | turns + 1, pc, steps, b =>
    if pc < 0 then some (.ok steps.toNat, b)
    else do
      let place ← policy.toUnsigned .fetched pc
      match program[place.toNat]? with
      | none => return (.ok steps.toNat, b)
      | some byte => do
        let steps ← policy.add .steps steps 1
        if maxSteps ≤ steps then return (.error (.tooManySteps maxSteps.toNat), b)
        else
          match (Opcode.mk byte).admission b.top with
          | .error cause => return (.error (.stopped cause place.toNat ⟨byte⟩), b)
          | .ok (_, op) => do
            match ← perform policy program place op b with
            | (.error cause, left) => return (.error (.stopped cause place.toNat ⟨byte⟩), left)
            | (.ok next, left) => loop maxSteps turns next steps left

/-- Runs a program on the cleared buffer: the steps or the fault, and the buffer that is left. -/
def run (limits : Limits) (b : Buffer) : Option (Except Fault Nat × Buffer) :=
  if limits.maxProgramLength.toNat < program.size then
    some (.error (.tooManyInstructions program.size limits.maxProgramLength.toNat),
      { b with top := 0 })
  else loop policy program limits.maxSteps (limits.maxSteps.toNat + 1) 0 0 { b with top := 0 }

end Program

end GlyphHint.WordMachine
