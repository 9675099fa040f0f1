import GlyphHint.Proofs.Branch.Scan
import GlyphHint.Proofs.Machine.Action
import GlyphHint.Proofs.Machine.Locality
import GlyphHint.Proofs.Machine.Turn
import GlyphHint.Proofs.Structured.Block
set_option autoImplicit false

/-!
# The machine runs structured programs as written

The machine knows nothing of blocks: it moves a program counter and looks for the ends of arms byte
by byte.  On the text of a block the search finds the ELSE or EIF that the block was written with,
since it steps over whole blocks (`scan_block`).  So every charged instruction of an evaluation is
one turn of the machine, and by induction on the block its evaluation is a chain of turns
(`carriesOut_eval`), from which the outcome of a run follows.
-/

namespace GlyphHint.Structured

open Machine

variable {program : Program} {limit pc : Nat}

/-! ## The scan over a block -/

/-- The operation of a plain instruction always goes on behind it, and it ends no arm. -/
theorem Plain.straight (i : Plain) {op : Op} (hop : (Opcode.mk i.byte).op? = some op) :
    op.Straight ∧ op ≠ .endIf := by
  have hcontrol : ∀ b ∈ controlBytes, op.byte? ≠ some b := by
    intro b hmem hb
    have hbyte : i.byte = b := (Opcode.op?_eq_some_iff hb).mp hop
    exact i.plain (hbyte ▸ hmem)
  cases op with
  | elseArm => exact absurd rfl (hcontrol elseByte (by simp [controlBytes]))
  | endIf => exact absurd rfl (hcontrol endIfByte (by simp [controlBytes]))
  | ifNonzero => exact absurd rfl (hcontrol ifByte (by simp [controlBytes]))
  | jump => exact absurd rfl (hcontrol 0x1C (by simp [controlBytes]))
  | jumpWhen truth =>
    cases truth with
    | true => exact absurd rfl (hcontrol 0x78 (by simp [controlBytes]))
    | false => exact absurd rfl (hcontrol 0x79 (by simp [controlBytes]))
  | _ => exact ⟨trivial, by simp⟩

/-- The scan steps over a plain instruction. -/
theorem scan_plainInstruction (i : Plain) {stopAtElse : Bool} {nesting : Nat}
    (h : program.Holds pc i.bytes) :
    Branch.scan program stopAtElse pc nesting =
      Branch.scan program stopAtElse (pc + i.bytes.length) nesting := by
  have hif : (Opcode.mk i.byte).op? ≠ some .ifNonzero := fun hop => (i.straight hop).1
  have helse : (Opcode.mk i.byte).op? ≠ some .elseArm := fun hop => (i.straight hop).1
  have hend : (Opcode.mk i.byte).op? ≠ some .endIf := fun hop => (i.straight hop).2 rfl
  rw [Branch.scan_plain h.1 hif helse hend, i.complete.behind? h, Option.bind_some]
  congr 1
  simp only [Plain.bytes, List.length_cons]
  omega

/-- The scan steps over a whole block: the block closes every conditional that it opens, and an
ELSE in it belongs to one of these. -/
theorem scan_block (b : Block) {stopAtElse : Bool} {nesting : Nat}
    (h : program.Holds pc b.bytes) :
    Branch.scan program stopAtElse pc nesting =
      Branch.scan program stopAtElse (pc + b.size) nesting := by
  induction b generalizing pc nesting with
  | done => rfl
  | plain first rest ih =>
    obtain ⟨hfirst, hrest⟩ := Block.holds_plain.mp h
    rw [scan_plainInstruction first hfirst, ih hrest, Block.size_plain, Nat.add_assoc]
  | ifThen arm rest iharm ihrest =>
    obtain ⟨hif, harm, hend, hrest⟩ := Block.holds_ifThen.mp h
    rw [Branch.scan_ifNonzero hif (Opcode.op?_of_byte? rfl), iharm harm,
      Branch.scan_endIf_succ hend (Opcode.op?_of_byte? rfl), ihrest hrest, Block.size_ifThen]
    congr 1
    omega
  | ifElse yes no rest ihyes ihno ihrest =>
    obtain ⟨hif, hyes, helse, hno, hend, hrest⟩ := Block.holds_ifElse.mp h
    -- The ELSE lies inside of the conditional, so it ends no scan that started outside.
    have hinside : (stopAtElse && nesting + 1 == 0) = false := by simp
    rw [Branch.scan_ifNonzero hif (Opcode.op?_of_byte? rfl), ihyes hyes,
      Branch.scan_elseArm helse (Opcode.op?_of_byte? rfl), hinside, if_neg Bool.false_ne_true,
      ihno hno, Branch.scan_endIf_succ hend (Opcode.op?_of_byte? rfl), ihrest hrest,
      Block.size_ifElse]
    congr 1
    omega

/-- The only arm of a conditional ends at its EIF. -/
theorem matching?_ifThen {arm rest : Block} (stopAtElse : Bool)
    (h : program.Holds pc (Block.ifThen arm rest).bytes) :
    Branch.matching? program pc stopAtElse = some (pc + 1 + arm.size) := by
  obtain ⟨-, harm, hend, -⟩ := Block.holds_ifThen.mp h
  unfold Branch.matching?
  rw [scan_block arm harm, Branch.scan_endIf_zero hend (Opcode.op?_of_byte? rfl)]

/-- The first of two arms ends at its ELSE. -/
theorem matching?_ifElse {yes no rest : Block}
    (h : program.Holds pc (Block.ifElse yes no rest).bytes) :
    Branch.matching? program pc true = some (pc + 1 + yes.size) := by
  obtain ⟨-, hyes, helse, -⟩ := Block.holds_ifElse.mp h
  unfold Branch.matching?
  rw [scan_block yes hyes, Branch.scan_elseArm helse (Opcode.op?_of_byte? rfl)]
  rfl

/-- From the ELSE, the second of two arms ends at its EIF. -/
theorem matching?_else {yes no rest : Block}
    (h : program.Holds pc (Block.ifElse yes no rest).bytes) :
    Branch.matching? program (pc + 1 + yes.size) false =
      some (pc + 1 + yes.size + 1 + no.size) := by
  obtain ⟨-, -, -, hno, hend, -⟩ := Block.holds_ifElse.mp h
  unfold Branch.matching?
  rw [scan_block no hno, Branch.scan_endIf_zero hend (Opcode.op?_of_byte? rfl)]

/-! ## One charged instruction is one turn -/

/-- Executing an instruction is admitting it and then performing its operation. -/
theorem execute_eq_admission (pc : Nat) (b : UInt8) (stack : Stack) :
    Action.execute program pc b stack =
      match (Opcode.mk b).admission stack.depth with
      | .error cause => .error cause stack
      | .ok (_, op) => Action.perform program pc op stack := by
  unfold Action.execute
  rw [Action.bind_of_ok (Action.depth_ok stack)]
  cases (Opcode.mk b).admission stack.depth with
  | error cause => rfl
  | ok admitted => rfl

/-- A turn below the step limit executes the instruction under the program counter. -/
theorem turn_eq_execute {b : UInt8} {s : State} (hpc : 0 ≤ s.pc)
    (hbyte : program[s.pc.toNat]? = some b) (hlimit : s.steps + 1 < limit) :
    turn program limit s =
      match Action.execute program s.pc.toNat b s.stack with
      | .error cause stack => .failed (.stopped cause s.pc.toNat ⟨b⟩) stack
      | .ok next stack => .performed ⟨next, s.steps + 1, stack⟩ := by
  rw [turn_of_fetch hpc hbyte hlimit, execute_eq_admission]
  cases (Opcode.mk b).admission s.stack.depth with
  | error cause => rfl
  | ok admitted => rfl

/-! ## What the instructions of a block do in place -/

/-- With an end for its arm, an IF takes the condition off and goes behind that end or into the
arm. -/
theorem execute_if {e : Nat} (h : Branch.matching? program pc true = some e) :
    Action.execute program pc ifByte =
      Action.pop >>= fun condition =>
        pure (((if condition = 0 then e + 1 else pc + 1 : Nat)) : Int) := by
  have hop : (Opcode.mk ifByte).op? = some .ifNonzero := Opcode.op?_of_byte? rfl
  funext stack
  rw [execute_eq_admission]
  by_cases hempty : stack.depth < 1
  · rw [Opcode.admission_of_shallow hop hempty, Action.bind_of_error (Action.pop_refuses hempty)]
  · obtain ⟨mnemonic, hadmission⟩ := Opcode.admission_of_deep hop (Nat.not_lt.mp hempty)
    obtain ⟨condition, vs, hvalues⟩ := stack.exists_cons (Nat.not_lt.mp hempty)
    obtain ⟨t, hpop, -, -⟩ := Action.pop_gives hvalues
    rw [hadmission, Action.bind_of_ok hpop]
    simp only [Action.perform, Action.endOfArm, h]
    rw [Action.bind_of_ok (Action.peek_zero hvalues)]
    by_cases hzero : condition = 0
    · rw [if_pos hzero, if_pos hzero, pure_bind, Action.bind_of_ok hpop]
      rfl
    · rw [if_neg hzero, if_neg hzero, Action.bind_of_ok hpop]
      rfl

/-- An ELSE that control comes to goes behind the end of the arm after it. -/
theorem execute_else {e : Nat} (h : Branch.matching? program pc false = some e) :
    Action.execute program pc elseByte = pure () >>= fun _ => pure ((e + 1 : Nat) : Int) := by
  have hop : (Opcode.mk elseByte).op? = some .elseArm := Opcode.op?_of_byte? rfl
  funext stack
  obtain ⟨mnemonic, hadmission⟩ := Opcode.admission_of_deep hop (Nat.zero_le stack.depth)
  rw [execute_eq_admission, hadmission]
  simp only [Action.perform, Action.endOfArm, h]
  rfl

/-- An EIF goes on behind itself. -/
theorem execute_endIf :
    Action.execute program pc endIfByte = pure () >>= fun _ => pure ((pc + 1 : Nat) : Int) := by
  have hop : (Opcode.mk endIfByte).op? = some .endIf := Opcode.op?_of_byte? rfl
  funext stack
  obtain ⟨mnemonic, hadmission⟩ := Opcode.admission_of_deep hop (Nat.zero_le stack.depth)
  rw [execute_eq_admission, hadmission, pure_bind]
  rfl

/-- A plain instruction acts by its own bytes and goes on behind them. -/
theorem execute_plain (i : Plain) (h : program.Holds pc i.bytes) :
    Action.execute program pc i.byte =
      i.action >>= fun _ => pure ((pc + i.bytes.length : Nat) : Int) := by
  funext stack
  have haction : i.action stack = _ := execute_eq_admission 0 i.byte stack
  rw [execute_eq_admission]
  cases hadmission : (Opcode.mk i.byte).admission stack.depth with
  | error cause =>
    rw [hadmission] at haction
    rw [Action.bind_of_error haction]
  | ok admitted =>
    obtain ⟨mnemonic, op⟩ := admitted
    obtain ⟨hop, -⟩ := Opcode.op?_of_admission hadmission
    have hstraight : op.Straight := (i.straight hop).1
    have hself : Program.Holds i.bytes.toArray 0 i.bytes := Program.holds_toArray i.bytes
    have hlength : i.bytes.length = 1 + i.operands.length := Nat.add_comm _ _
    rw [hadmission] at haction
    simp only
    rw [Action.perform_eq_of_holds hop hstraight i.complete h hself, hlength,
      Action.bind_congr_left haction]
    rfl

/-! ## Evaluations that the machine carries out -/

/-- A turn of the machine at an instruction is the charged instruction of an evaluation. -/
theorem turn_eq_charged {α : Type} {b : UInt8} {x : Action α} {next : α → Nat}
    (hbyte : program[pc]? = some b)
    (hexecute : Action.execute program pc b = x >>= fun a => pure (next a : Int)) (p : Progress) :
    turn program limit ⟨pc, p.steps, p.stack⟩ =
      match charged limit pc b x p with
      | .ok a q => .performed ⟨next a, q.steps, q.stack⟩
      | .error fault q => .failed fault q.stack := by
  unfold charged
  by_cases hlimit : limit ≤ p.steps + 1
  · have hinside : (State.mk pc p.steps p.stack).Inside program :=
      ⟨Int.natCast_nonneg pc, (Array.getElem?_eq_some_iff.mp hbyte).1⟩
    rw [turn_of_limit hinside hlimit, if_pos hlimit]
  · rw [turn_eq_execute (Int.natCast_nonneg pc) hbyte (Nat.not_le.mp hlimit), if_neg hlimit]
    simp only [Int.toNat_natCast, hexecute]
    cases hrun : x p.stack with
    | error cause stack => rw [Action.bind_of_error hrun]
    | ok a stack => rw [Action.bind_of_ok hrun]; rfl

/-- From `pc` the machine carries out an evaluation: where it succeeds the machine comes to the
target with the same steps and stack, and where it fails the machine ends with the same fault and
stack. -/
def CarriesOut {α : Type} (program : Program) (limit pc : Nat) (x : Evaluation α)
    (target : α → Nat) : Prop :=
  ∀ p : Progress,
    match x p with
    | .ok a q => Reaches program limit ⟨pc, p.steps, p.stack⟩ ⟨target a, q.steps, q.stack⟩
    | .error fault q => Ends program limit ⟨pc, p.steps, p.stack⟩ (.error fault) q.stack

theorem CarriesOut.pure {α : Type} (a : α) :
    CarriesOut program limit pc (Pure.pure a) fun _ => pc :=
  fun p => .refl ⟨pc, p.steps, p.stack⟩

/-- Where one evaluation leaves the machine, the next one takes over. -/
theorem CarriesOut.bind {α β : Type} {x : Evaluation α} {f : α → Evaluation β} {middle : α → Nat}
    {target : β → Nat} (hx : CarriesOut program limit pc x middle)
    (hf : ∀ a, CarriesOut program limit (middle a) (f a) target) :
    CarriesOut program limit pc (x >>= f) target := by
  intro p
  have hfirst := hx p
  cases hrun : x p with
  | error fault q =>
    rw [hrun] at hfirst
    simp only [Bind.bind, EStateM.bind, hrun]
    exact hfirst
  | ok a q =>
    rw [hrun] at hfirst
    have hsecond := hf a q
    simp only [Bind.bind, EStateM.bind, hrun]
    cases hrun' : f a q with
    | error fault r =>
      rw [hrun'] at hsecond
      exact Ends.of_reaches hfirst hsecond
    | ok b r =>
      rw [hrun'] at hsecond
      exact Reaches.trans hfirst hsecond

/-- A charged instruction is carried out in one turn. -/
theorem CarriesOut.charged {α : Type} {b : UInt8} {x : Action α} {next : α → Nat}
    (hbyte : program[pc]? = some b)
    (hexecute : Action.execute program pc b = x >>= fun a => Pure.pure (next a : Int)) :
    CarriesOut program limit pc (Structured.charged limit pc b x) next := by
  intro p
  have hturn : turn program limit ⟨pc, p.steps, p.stack⟩ = _ := turn_eq_charged hbyte hexecute p
  cases hrun : Structured.charged limit pc b x p with
  | error fault q =>
    rw [hrun] at hturn
    exact .failed (.refl _) hturn
  | ok a q =>
    rw [hrun] at hturn
    exact .single hturn

/-- The machine carries out the evaluation of a block wherever the block lies in its program. -/
theorem carriesOut_eval (b : Block) (h : program.Holds pc b.bytes) :
    CarriesOut program limit pc (b.eval limit pc) fun _ => pc + b.size := by
  induction b generalizing pc with
  | done => exact .pure ()
  | plain first rest ih =>
    obtain ⟨hfirst, hrest⟩ := Block.holds_plain.mp h
    rw [Block.size_plain, ← Nat.add_assoc]
    exact .bind (.charged hfirst.1 (execute_plain first hfirst)) fun _ => ih hrest
  | ifThen arm rest iharm ihrest =>
    obtain ⟨hif, harm, hend, hrest⟩ := Block.holds_ifThen.mp h
    have hsize : pc + (Block.ifThen arm rest).size = pc + 1 + arm.size + 1 + rest.size := by
      rw [Block.size_ifThen]
      omega
    rw [hsize]
    refine .bind (.charged hif (execute_if (matching?_ifThen true h))) fun condition => ?_
    refine .bind ?_ fun _ => ihrest hrest
    by_cases hzero : condition = 0
    · rw [if_pos hzero, if_pos hzero]
      exact .pure ()
    · rw [if_neg hzero, if_neg hzero]
      exact .bind (iharm harm) fun _ => .charged hend execute_endIf
  | ifElse yes no rest ihyes ihno ihrest =>
    obtain ⟨hif, hyes, helse, hno, hend, hrest⟩ := Block.holds_ifElse.mp h
    have hsize : pc + (Block.ifElse yes no rest).size =
        pc + 1 + yes.size + 1 + no.size + 1 + rest.size := by
      rw [Block.size_ifElse]
      omega
    rw [hsize]
    refine .bind (.charged hif (execute_if (matching?_ifElse h))) fun condition => ?_
    refine .bind ?_ fun _ => ihrest hrest
    -- Both arms meet behind the EIF: the first one jumps there from its ELSE.
    by_cases hzero : condition = 0
    · rw [if_pos hzero, if_pos hzero]
      exact .bind (ihno hno) fun _ => .charged hend execute_endIf
    · rw [if_neg hzero, if_neg hzero]
      exact .bind (ihyes hyes) fun _ => .charged helse (execute_else (matching?_else h))

/-- An interpreter runs the text of a block to the outcome of evaluating the block: the same values
on the stack and the same number of steps or the same fault, with its cause and its offset. -/
theorem run_eq_outcome (it : Interpreter) (b : Block)
    (h : b.bytes.length ≤ it.limits.maxProgramLength) :
    (it.run b.program).1 = b.outcome it.limits.maxSteps it.stack.clear := by
  have hcarries : CarriesOut b.program it.limits.maxSteps 0 (b.eval it.limits.maxSteps 0) _ :=
    carriesOut_eval b (Program.holds_toArray b.bytes)
  have hcarried := hcarries ⟨0, it.stack.clear⟩
  unfold Block.outcome
  cases hrun : b.eval it.limits.maxSteps 0 ⟨0, it.stack.clear⟩ with
  | error fault p =>
    rw [hrun] at hcarried
    rw [it.run_of_ends b.program h hcarried]
  | ok _ p =>
    rw [hrun] at hcarried
    -- Behind its last byte the machine is outside of the program.
    have hbehind : ¬ (State.mk ((0 + b.size : Nat) : Int) p.steps p.stack).Inside b.program := by
      rintro ⟨-, hsize⟩
      simp [Block.program, Block.size] at hsize
    rw [it.run_of_ends b.program h (.finished hcarried (turn_of_outside hbehind))]

/-- A conditional in the first arm of another one, with IF, ELSE and EIF among the operand bytes of
both. -/
def lookalikes : Block :=
  .plain ⟨0xB1, [0x00, 0x01], by decide, rfl⟩ <|
  .ifElse
    (.ifElse (.plain ⟨0xB0, [0x58], by decide, rfl⟩ .done)
      (.plain ⟨0x40, [2, 0x1B, 0x59], by decide, ⟨2, [0x1B, 0x59], rfl, rfl⟩⟩ .done) .done)
    (.plain ⟨0xB0, [0x59], by decide, rfl⟩ .done) .done

theorem run_lookalikes :
    lookalikes.bytes.length ≤ (Interpreter.new ⟨32, 4, 16⟩).limits.maxProgramLength ∧
      ((Interpreter.new ⟨32, 4, 16⟩).run lookalikes.program).1 = ⟨.ok 6, [0x1B, 0x59]⟩ := by
  refine ⟨by decide, ?_⟩
  rw [run_eq_outcome (Interpreter.new ⟨32, 4, 16⟩) lookalikes (by decide)]
  rfl

end GlyphHint.Structured
