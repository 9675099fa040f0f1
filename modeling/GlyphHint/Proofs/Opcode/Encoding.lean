import GlyphHint.Machine.Step
set_option autoImplicit false

/-!
# Which byte encodes which operation

Every operation other than a push has exactly one byte (`Op.byte?`, `Opcode.op?_eq_some_iff`), so a
question about the operation of an opcode is a question about its byte and the other way round.  The
admission checks see an opcode only through its operation: an opcode with an operation is admitted
as soon as the stack is deep enough, and any other opcode is refused on every stack.
-/

namespace GlyphHint

/-- The byte of an operation; a push has several bytes or none. -/
def Op.byte? : Op → Option UInt8
  | .elseArm => some 0x1B
  | .endIf => some 0x59
  | .ifNonzero => some 0x58
  | .jump => some 0x1C
  | .jumpWhen true => some 0x78
  | .jumpWhen false => some 0x79
  | .dup => some 0x20
  | .pop => some 0x21
  | .clear => some 0x22
  | .swap => some 0x23
  | .depth => some 0x24
  | .copyIndexed => some 0x25
  | .moveIndexed => some 0x26
  | .push _ => none
  | .debug => some 0x4F
  | .unary .not => some 0x5C
  | .unary .abs => some 0x64
  | .unary .neg => some 0x65
  | .unary .floor => some 0x66
  | .unary .ceiling => some 0x67
  | .binary .lt => some 0x50
  | .binary .le => some 0x51
  | .binary .gt => some 0x52
  | .binary .ge => some 0x53
  | .binary .eq => some 0x54
  | .binary .ne => some 0x55
  | .binary .and => some 0x5A
  | .binary .or => some 0x5B
  | .binary .add => some 0x60
  | .binary .sub => some 0x61
  | .binary .mul => some 0x63
  | .divide => some 0x62

namespace Opcode

/-- Every row that the machine runs is the row of one byte, and unless its operation is a push that
is the byte of the operation. -/
theorem rows_byte? : (rows.all fun e =>
    match e.support with
    | .runs op => e.first == e.last && (op.byte? == none || op.byte? == some e.first)
    | .unimplemented => true) = true := by
  decide

/-- What an entry runs is the operation of the opcode. -/
theorem op?_of_entry? {o : Opcode} {entry : Entry} {op : Op}
    (hentry : o.entry? = some entry) (hruns : entry.support = .runs op) : o.op? = some op := by
  obtain ⟨first, last, mnemonic, support⟩ := entry
  cases hruns
  unfold op?
  rw [hentry]

/-- An opcode with an operation has a row that runs it. -/
theorem entry?_of_op? {o : Opcode} {op : Op} (h : o.op? = some op) :
    ∃ first last mnemonic, o.entry? = some ⟨first, last, mnemonic, .runs op⟩ := by
  unfold op? at h
  split at h
  · rename_i first last mnemonic found hentry
    cases h
    exact ⟨first, last, mnemonic, hentry⟩
  · cases h

/-- The table gives an operation other than a push to the byte of that operation only. -/
theorem byte?_of_op? {o : Opcode} {op : Op} (h : o.op? = some op) :
    op.byte? = none ∨ op.byte? = some o.byte := by
  obtain ⟨first, last, mnemonic, hentry⟩ := entry?_of_op? h
  have hrow := List.all_eq_true.mp rows_byte? _ (List.mem_of_find?_eq_some hentry)
  simp only [Bool.and_eq_true, Bool.or_eq_true, beq_iff_eq] at hrow
  obtain ⟨hone, hbyte⟩ := hrow
  -- A row of one byte covers an opcode only if it is the opcode's byte.
  have hcovers := List.find?_some hentry
  simp only [Entry.covers, Bool.and_eq_true, decide_eq_true_eq] at hcovers
  have hfirst : first = o.byte := by
    rw [← hone] at hcovers
    exact UInt8.le_antisymm hcovers.1 hcovers.2
  rw [← hfirst]
  exact hbyte

/-- The table gives the byte of an operation that operation. -/
theorem op?_of_byte? {op : Op} {b : UInt8} (h : op.byte? = some b) :
    (Opcode.mk b).op? = some op := by
  cases op with
  | push shape => cases h
  | jumpWhen truth => cases truth <;> cases h <;> decide +kernel
  | unary f => cases f <;> cases h <;> decide +kernel
  | binary f => cases f <;> cases h <;> decide +kernel
  | _ => cases h; decide +kernel

/-- An operation other than a push is the operation of its byte and of no other. -/
theorem op?_eq_some_iff {o : Opcode} {op : Op} {b : UInt8} (h : op.byte? = some b) :
    o.op? = some op ↔ o.byte = b := by
  constructor
  · intro hop
    rcases byte?_of_op? hop with hnone | hsome
    · simp [h] at hnone
    · exact (Option.some.inj (h.symm.trans hsome)).symm
  · intro hbyte
    obtain ⟨byte⟩ := o
    cases hbyte
    exact op?_of_byte? h

/-- An opcode has a push layout exactly when its operation is the push of that layout. -/
theorem pushShape?_eq_some_iff {o : Opcode} {shape : PushShape} :
    o.pushShape? = some shape ↔ o.op? = some (.push shape) := by
  unfold pushShape?
  constructor
  · intro h
    split at h
    · rename_i hop
      rw [hop, Option.some.inj h]
    · cases h
  · intro h
    rw [h]

/-- An opcode whose operation is no push has no push layout. -/
theorem pushShape?_eq_none {o : Opcode} {op : Op} (h : o.op? = some op)
    (hpush : ∀ shape, op ≠ .push shape) : o.pushShape? = none := by
  cases hshape : o.pushShape? with
  | none => rfl
  | some shape =>
    have hop := pushShape?_eq_some_iff.mp hshape
    exact absurd (Option.some.inj (h.symm.trans hop)) (hpush shape)

/-! ## Admission -/

variable {o : Opcode} {op : Op} {depth : Nat}

/-- An opcode that the machine runs is admitted on every stack that is deep enough. -/
theorem admission_of_deep (h : o.op? = some op) (hdeep : op.pops ≤ depth) :
    ∃ mnemonic, o.admission depth = .ok (mnemonic, op) := by
  obtain ⟨first, last, mnemonic, hentry⟩ := entry?_of_op? h
  refine ⟨mnemonic, ?_⟩
  unfold admission
  rw [hentry]
  exact if_neg (Nat.not_lt.mpr hdeep)

theorem admission_of_shallow (h : o.op? = some op) (hshallow : depth < op.pops) :
    o.admission depth = .error .stackUnderflow := by
  obtain ⟨first, last, mnemonic, hentry⟩ := entry?_of_op? h
  unfold admission
  rw [hentry]
  exact if_pos hshallow

/-- Whatever is admitted has an operation and finds its operands. -/
theorem op?_of_admission {mnemonic : String} (h : o.admission depth = .ok (mnemonic, op)) :
    o.op? = some op ∧ op.pops ≤ depth := by
  unfold admission at h
  unfold op?
  split at h
  · cases h
  · cases h
  · rename_i first last name found hentry
    split at h
    · cases h
    · rename_i hdeep
      cases h
      exact ⟨by rw [hentry], Nat.not_lt.mp hdeep⟩

/-- Whatever is admitted is admitted under its mnemonic. -/
theorem mnemonic?_of_admission {mnemonic : String} (h : o.admission depth = .ok (mnemonic, op)) :
    o.mnemonic? = some mnemonic := by
  unfold admission at h
  unfold mnemonic?
  split at h
  · cases h
  · cases h
  · rename_i hentry
    split at h
    · cases h
    · cases h
      rw [hentry]
      rfl

end Opcode

end GlyphHint
