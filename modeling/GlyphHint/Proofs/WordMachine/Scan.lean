import GlyphHint.Proofs.Branch.Scan
import GlyphHint.Proofs.WordMachine.Machine
set_option autoImplicit false

/-!
# The scan for the end of an arm, with words

With words the scan finds what it finds with numbers (`WordMachine.scan_exact`).  Its words stay
small for two reasons.  No push is longer than 512 bytes, so a scan that steps out of the program is
less than that far behind it.  And every conditional that the scan is in was opened by an IF at a
position of its own, so the nesting never exceeds the position.
-/

namespace GlyphHint

/-! ## The length of pushes -/

namespace Opcode

/-- No row of the table pushes more than eight values inline. -/
theorem rows_inline_le : (rows.all fun e =>
    match e.support with
    | .runs (.push ⟨_, .inline n⟩) => decide (n ≤ 8)
    | _ => true) = true := by
  decide

theorem inline_le_of_op? {o : Opcode} {width : Width} {n : Nat}
    (h : o.op? = some (.push ⟨width, .inline n⟩)) : n ≤ 8 := by
  obtain ⟨first, last, mnemonic, hentry⟩ := entry?_of_op? h
  have hrow := List.all_eq_true.mp rows_inline_le _ (List.mem_of_find?_eq_some hentry)
  exact of_decide_eq_true hrow

end Opcode

theorem Width.bytes_le (width : Width) : width.bytes ≤ 2 := by
  cases width <;> decide

theorem Width.bytes_pos (width : Width) : 0 < width.bytes := by
  cases width <;> decide

/-- The count of a push is a byte or less. -/
theorem Program.pushCount?_le {program : Program} {pc n : Nat} {o : Opcode} {shape : PushShape}
    (hop : o.op? = some (.push shape)) (hcount : program.pushCount? pc shape = some n) :
    n ≤ 255 := by
  obtain ⟨width, count⟩ := shape
  cases count with
  | inline m =>
    cases hcount
    have hle := Opcode.inline_le_of_op? hop
    omega
  | prefixed =>
    obtain ⟨b, -, rfl⟩ := Option.map_eq_some_iff.mp hcount
    exact Nat.le_of_lt_succ b.toNat_lt

/-- The values of a push take up 510 bytes or less. -/
theorem Width.bytes_mul_le (width : Width) {n : Nat} (h : n ≤ 255) : width.bytes * n ≤ 510 :=
  Nat.mul_le_mul width.bytes_le h

theorem PushShape.size_le (shape : PushShape) {n : Nat} (h : n ≤ 255) : shape.size n ≤ 512 := by
  have hvalues := shape.width.bytes_mul_le h
  unfold size headSize
  split <;> omega

theorem Width.toNat_bytes (width : Width) : (UInt64.ofNat width.bytes).toNat = width.bytes := by
  cases width <;> rfl

namespace WordMachine

variable {policy : Policy} {program : Program} {limits : Limits}
  (hadmits : policy.Admits limits program.size) (hsize : program.size ≤ 2 ^ 62)

include hadmits hsize

/-- The number of bytes of the values of a push is exact. -/
theorem valueBytes_exact (width : Width) {n : UInt64} (hn : n.toNat ≤ 255) :
    ∃ bytes, policy.mul .valueBytes (.ofNat width.bytes) n = some bytes ∧
      bytes.toNat = width.bytes * n.toNat := by
  have hle := width.bytes_mul_le hn
  have hrange : Quantity.valueBytes.InRange limits program.size
      ((UInt64.ofNat width.bytes).toNat * n.toNat : Nat) := by
    rw [width.toNat_bytes]
    exact ⟨by omega, by omega⟩
  obtain ⟨bytes, hmul, hbytes⟩ := hadmits.mul hsize hrange rfl
  rw [width.toNat_bytes] at hbytes
  exact ⟨bytes, hmul, hbytes⟩

/-- A position that is less than 512 bytes behind the program is exact. -/
theorem position_exact {pos bytes : UInt64} (h : pos.toNat + bytes.toNat < program.size + 512) :
    ∃ place, policy.add .scanned pos bytes = some place ∧
      place.toNat = pos.toNat + bytes.toNat :=
  hadmits.add hsize ⟨by omega, by omega⟩ rfl

theorem nextPosition_exact {pos : UInt64} {next : Nat} (hnext : pos.toNat + 1 = next)
    (h : next < program.size + 512) :
    ∃ place, policy.add .scanned pos 1 = some place ∧ place.toNat = next := by
  subst hnext
  exact position_exact hadmits hsize h

/-- The last byte of a push is found where its count is there. -/
theorem lastOfPush_exact {pos : UInt64} {b : UInt8} {shape : PushShape}
    (hbyte : program[pos.toNat]? = some b) (hop : (Opcode.mk b).op? = some (.push shape)) :
    match program.pushCount? pos.toNat shape with
    | none => lastOfPush policy program pos shape = some none
    | some n => ∃ last, lastOfPush policy program pos shape = some (some last) ∧
        last.toNat + 1 = pos.toNat + shape.size n := by
  have hinside := (Array.getElem?_eq_some_iff.mp hbyte).1
  obtain ⟨width, count⟩ := shape
  cases count with
  | inline n =>
    have hn : n ≤ 8 := Opcode.inline_le_of_op? hop
    have hword : (UInt64.ofNat n).toNat = n :=
      UInt64.toNat_ofNat_of_lt' (Nat.lt_of_le_of_lt hn (by decide))
    have hle := width.bytes_mul_le (n := n) (by omega)
    obtain ⟨bytes, hmul, hbytes⟩ := valueBytes_exact hadmits hsize width (n := .ofNat n)
      (by omega)
    rw [hword] at hbytes
    have hend : pos.toNat + bytes.toNat < program.size + 512 := by omega
    obtain ⟨last, hadd, hlast⟩ := position_exact hadmits hsize hend
    refine ⟨last, ?_, ?_⟩
    · simp only [lastOfPush, hmul, hadd, Option.bind_eq_bind, Option.bind_some]
      rfl
    · simp only [PushShape.size, PushShape.headSize]
      omega
  | prefixed =>
    have hnext : pos.toNat + 1 < program.size + 512 := by omega
    obtain ⟨place, hplace, hexact⟩ := nextPosition_exact hadmits hsize rfl hnext
    simp only [Program.pushCount?, lastOfPush, hplace, Option.bind_eq_bind, Option.bind_some,
      hexact]
    cases hcount : program[pos.toNat + 1]? with
    | none => rfl
    | some n =>
      have hn : n.toUInt64.toNat ≤ 255 := Nat.le_of_lt_succ n.toNat_lt
      have hle := width.bytes_mul_le hn
      have hinside' := (Array.getElem?_eq_some_iff.mp hcount).1
      obtain ⟨bytes, hmul, hbytes⟩ := valueBytes_exact hadmits hsize width hn
      have hend : place.toNat + bytes.toNat < program.size + 512 := by omega
      obtain ⟨last, hadd, hlast⟩ := position_exact hadmits hsize hend
      refine ⟨last, ?_, ?_⟩
      · simp only [hmul, hadd, Option.bind_some]
        rfl
      · simp only [UInt8.toNat_toUInt64] at hbytes
        simp only [PushShape.size, PushShape.headSize]
        omega

omit hadmits hsize in
theorem beq_zero_exact {w : UInt64} {n : Nat} (h : w.toNat = n) : (w == 0) = (n == 0) := by
  subst h
  rw [Bool.eq_iff_iff, beq_iff_eq, beq_iff_eq]
  exact UInt64.toNat_inj.symm

/-- Another conditional is counted exactly while there are fewer of them than bytes. -/
theorem opened_exact (nesting : UInt64) (h : nesting.toNat < program.size) :
    ∃ inner, policy.add .nesting nesting 1 = some inner ∧ inner.toNat = nesting.toNat + 1 :=
  hadmits.add hsize ⟨by omega, by rw [UInt64.toNat_one]; omega⟩ rfl

omit hsize in
/-- The end of an open conditional is counted exactly. -/
theorem closed_exact (nesting : UInt64) (hopen : 0 < nesting.toNat)
    (h : nesting.toNat ≤ program.size) :
    ∃ outer, policy.sub .nesting nesting 1 = some outer ∧ outer.toNat = nesting.toNat - 1 :=
  hadmits.sub ⟨by rw [UInt64.toNat_one]; omega, by omega⟩ (by rw [UInt64.toNat_one]; omega)

/-! ## One turn -/

section Turn

omit hadmits hsize

variable {stopAtElse : Bool} {turns : Nat} {pos place nesting : UInt64} {b : UInt8}
  (hadd : policy.add .scanned pos 1 = some place)

include hadd

theorem scan_behind_ifNonzero (hbyte : program[place.toNat]? = some b)
    (hop : (Opcode.mk b).op? = some .ifNonzero) {inner : UInt64}
    (hinner : policy.add .nesting nesting 1 = some inner) :
    scan policy program stopAtElse (turns + 1) pos nesting =
      scan policy program stopAtElse turns place inner := by
  simp only [scan, hadd, hbyte, hop, hinner, Option.bind_eq_bind, Option.bind_some]

theorem scan_behind_elseArm (hbyte : program[place.toNat]? = some b)
    (hop : (Opcode.mk b).op? = some .elseArm) :
    scan policy program stopAtElse (turns + 1) pos nesting =
      if stopAtElse && nesting == 0 then some (some place)
      else scan policy program stopAtElse turns place nesting := by
  simp only [scan, hadd, hbyte, hop, Option.bind_eq_bind, Option.bind_some]
  rfl

theorem scan_behind_lastEndIf (hbyte : program[place.toNat]? = some b)
    (hop : (Opcode.mk b).op? = some .endIf) :
    scan policy program stopAtElse (turns + 1) pos 0 = some (some place) := by
  simp only [scan, hadd, hbyte, hop, Option.bind_eq_bind, Option.bind_some, if_true]
  rfl

theorem scan_behind_endIf (hbyte : program[place.toNat]? = some b)
    (hop : (Opcode.mk b).op? = some .endIf) (hopen : nesting ≠ 0) {outer : UInt64}
    (houter : policy.sub .nesting nesting 1 = some outer) :
    scan policy program stopAtElse (turns + 1) pos nesting =
      scan policy program stopAtElse turns place outer := by
  simp only [scan, hadd, hbyte, hop, hopen, houter, Option.bind_eq_bind, Option.bind_some, if_false]

theorem scan_behind_cutPush (hbyte : program[place.toNat]? = some b) {shape : PushShape}
    (hop : (Opcode.mk b).op? = some (.push shape))
    (hlast : lastOfPush policy program place shape = some none) :
    scan policy program stopAtElse (turns + 1) pos nesting = some none := by
  simp only [scan, hadd, hbyte, hop, hlast, Option.bind_eq_bind, Option.bind_some]
  rfl

theorem scan_behind_push (hbyte : program[place.toNat]? = some b) {shape : PushShape}
    (hop : (Opcode.mk b).op? = some (.push shape)) {last : UInt64}
    (hlast : lastOfPush policy program place shape = some (some last)) :
    scan policy program stopAtElse (turns + 1) pos nesting =
      scan policy program stopAtElse turns last nesting := by
  simp only [scan, hadd, hbyte, hop, hlast, Option.bind_eq_bind, Option.bind_some]

theorem scan_behind_other (hbyte : program[place.toNat]? = some b)
    (hif : (Opcode.mk b).op? ≠ some .ifNonzero) (helse : (Opcode.mk b).op? ≠ some .elseArm)
    (hend : (Opcode.mk b).op? ≠ some .endIf)
    (hpush : ∀ shape, (Opcode.mk b).op? ≠ some (.push shape)) :
    scan policy program stopAtElse (turns + 1) pos nesting =
      scan policy program stopAtElse turns place nesting := by
  simp only [scan, hadd, hbyte, Option.bind_eq_bind, Option.bind_some]

theorem scan_behind_outside (houtside : program.size ≤ place.toNat) :
    scan policy program stopAtElse (turns + 1) pos nesting = some none := by
  have hmissing : program[place.toNat]? = none := Array.getElem?_eq_none houtside
  simp only [scan, hadd, hmissing, Option.bind_eq_bind, Option.bind_some]
  rfl

end Turn

/-! ## The whole scan -/

/-- Behind a position that is one before `next`, with that many conditionals open and with a turn
for each byte that is left, the scan with words finds what the scan with numbers finds from `next`
on.  A push may have taken it out of the program, and no more conditionals are open than bytes
passed. -/
def ScansAs (policy : Policy) (program : Program) (stopAtElse : Bool) (next opened : Nat) : Prop :=
  ∀ (turns : Nat) (pos nesting : UInt64), pos.toNat + 1 = next → nesting.toNat = opened →
    next < program.size + 512 → opened < next → program.size ≤ next + turns →
    ∃ found, scan policy program stopAtElse (turns + 1) pos nesting = some found ∧
      found.map UInt64.toNat = Branch.scan program stopAtElse next opened

section ScansAs

variable {stopAtElse : Bool} {next opened next' opened' : Nat}

/-- Where one turn ends the scan, it is enough that this turn finds the same. -/
theorem scansAs_of_end
    (hend : ∀ (turns : Nat) (pos place nesting : UInt64),
      policy.add .scanned pos 1 = some place → place.toNat = next → nesting.toNat = opened →
      ∃ found, scan policy program stopAtElse (turns + 1) pos nesting = some found ∧
        found.map UInt64.toNat = Branch.scan program stopAtElse next opened) :
    ScansAs policy program stopAtElse next opened := by
  intro turns pos nesting hnext hopened hpos _ _
  obtain ⟨place, hadd, hplace⟩ := nextPosition_exact hadmits hsize hnext hpos
  exact hend turns pos place nesting hadd hplace hopened

/-- Where one turn goes on, with words as with numbers, it is enough that the scan finds the same
from there. -/
theorem scansAs_of_turn (hinside : next < program.size)
    (hnumbers : Branch.scan program stopAtElse next opened =
      Branch.scan program stopAtElse next' opened')
    (hforward : next < next' ∧ next' ≤ next + 512 ∧ opened' ≤ opened + 1)
    (hwords : ∀ (turns : Nat) (pos place nesting : UInt64),
      policy.add .scanned pos 1 = some place → place.toNat = next → nesting.toNat = opened →
      opened < next → ∃ pos' nesting' : UInt64, pos'.toNat + 1 = next' ∧ nesting'.toNat = opened' ∧
        scan policy program stopAtElse (turns + 1) pos nesting =
          scan policy program stopAtElse turns pos' nesting')
    (hlater : ScansAs policy program stopAtElse next' opened') :
    ScansAs policy program stopAtElse next opened := by
  intro turns pos nesting hnext hopened hpos hnesting hturns
  obtain ⟨turns, rfl⟩ := Nat.exists_eq_add_one.mpr (show 0 < turns by omega)
  obtain ⟨place, hadd, hplace⟩ := nextPosition_exact hadmits hsize hnext hpos
  obtain ⟨pos', nesting', hnext', hopened', hscan⟩ :=
    hwords (turns + 1) pos place nesting hadd hplace hopened hnesting
  rw [hscan, hnumbers]
  exact hlater turns pos' nesting' hnext' hopened' (by omega) (by omega) (by omega)

/-- With words the scan finds what it finds with numbers. -/
theorem scan_exact (stopAtElse : Bool) (next opened : Nat) :
    ScansAs policy program stopAtElse next opened := by
  -- The cases are those of the scan: IF, ELSE at the end and on the way, EIF at the end and on the
  -- way, a push without its count and one with it, any other byte, and the end of the program.
  induction next, opened using Branch.scan.induct program stopAtElse with
  | case1 next opened hinside hop ih =>
    have hbyte := Array.getElem?_eq_getElem hinside
    apply scansAs_of_turn hadmits hsize hinside (Branch.scan_ifNonzero hbyte hop) (by omega) _ ih
    rintro turns pos place nesting hadd rfl rfl hnesting
    obtain ⟨inner, hinner, hexact⟩ :=
      opened_exact hadmits hsize nesting (Nat.lt_trans hnesting hinside)
    exact ⟨place, inner, rfl, hexact, scan_behind_ifNonzero hadd hbyte hop hinner⟩
  | case2 next opened hinside hop hstop =>
    have hbyte := Array.getElem?_eq_getElem hinside
    apply scansAs_of_end hadmits hsize
    rintro turns pos place nesting hadd rfl hopened
    rw [scan_behind_elseArm hadd hbyte hop, Branch.scan_elseArm hbyte hop,
      beq_zero_exact hopened, if_pos hstop, if_pos hstop]
    exact ⟨some place, rfl, rfl⟩
  | case3 next opened hinside hop hstop ih =>
    have hbyte := Array.getElem?_eq_getElem hinside
    have hnumbers := (Branch.scan_elseArm hbyte hop).trans (if_neg hstop)
    apply scansAs_of_turn hadmits hsize hinside hnumbers (by omega) _ ih
    rintro turns pos place nesting hadd rfl hopened -
    rw [scan_behind_elseArm hadd hbyte hop, beq_zero_exact hopened, if_neg hstop]
    exact ⟨place, nesting, rfl, hopened, rfl⟩
  | case4 next hinside hop =>
    have hbyte := Array.getElem?_eq_getElem hinside
    apply scansAs_of_end hadmits hsize
    rintro turns pos place nesting hadd rfl hopened
    obtain rfl : nesting = 0 := UInt64.toNat_inj.mp hopened
    rw [scan_behind_lastEndIf hadd hbyte hop, Branch.scan_endIf_zero hbyte hop]
    exact ⟨some place, rfl, rfl⟩
  | case5 next hinside hop outer ih =>
    have hbyte := Array.getElem?_eq_getElem hinside
    apply scansAs_of_turn hadmits hsize hinside (Branch.scan_endIf_succ hbyte hop) (by omega) _ ih
    rintro turns pos place nesting hadd rfl hopened hnesting
    obtain ⟨rest, hsub, hexact⟩ := closed_exact hadmits nesting (by omega) (by omega)
    have hopen : nesting ≠ 0 := by
      rintro rfl
      cases hopened
    exact ⟨place, rest, rfl, by omega, scan_behind_endIf hadd hbyte hop hopen hsub⟩
  | case6 next opened hinside shape hop hcount =>
    have hbyte := Array.getElem?_eq_getElem hinside
    apply scansAs_of_end hadmits hsize
    rintro turns pos place nesting hadd rfl -
    have hlast := lastOfPush_exact hadmits hsize hbyte hop
    rw [hcount] at hlast
    rw [scan_behind_cutPush hadd hbyte hop hlast, Branch.scan_push hbyte hop, hcount]
    exact ⟨none, rfl, rfl⟩
  | case7 next opened hinside shape hop n hcount hlength ih =>
    have hbyte := Array.getElem?_eq_getElem hinside
    have hle := shape.size_le (Program.pushCount?_le hop hcount)
    have hnumbers : Branch.scan program stopAtElse next opened =
        Branch.scan program stopAtElse (next + shape.size n) opened := by
      rw [Branch.scan_push hbyte hop, hcount, Option.bind_some]
    apply scansAs_of_turn hadmits hsize hinside hnumbers (by omega) _ ih
    rintro turns pos place nesting hadd rfl hopened -
    have hlast := lastOfPush_exact hadmits hsize hbyte hop
    rw [hcount] at hlast
    obtain ⟨last, hlast, hexact⟩ := hlast
    exact ⟨last, nesting, hexact, hopened, scan_behind_push hadd hbyte hop hlast⟩
  | case8 next opened hinside hif helse hend hpush ih =>
    have hbyte := Array.getElem?_eq_getElem hinside
    apply scansAs_of_turn hadmits hsize hinside
      (Branch.scan_single hbyte hif helse hend hpush) (by omega) _ ih
    rintro turns pos place nesting hadd rfl hopened -
    exact ⟨place, nesting, rfl, hopened, scan_behind_other hadd hbyte hif helse hend hpush⟩
  | case9 next opened houtside =>
    apply scansAs_of_end hadmits hsize
    rintro turns pos place nesting hadd rfl -
    rw [scan_behind_outside hadd (Nat.not_lt.mp houtside),
      Branch.scan_of_outside (Nat.not_lt.mp houtside)]
    exact ⟨none, rfl, rfl⟩

end ScansAs

/-- With words an arm that opens in the program ends where it ends with numbers. -/
theorem matching_exact (stopAtElse : Bool) {pc : UInt64} (h : pc.toNat < program.size) :
    ∃ found, scan policy program stopAtElse program.size pc 0 = some found ∧
      found.map UInt64.toNat = Branch.matching? program pc.toNat stopAtElse := by
  obtain ⟨turns, hturns⟩ := Nat.exists_eq_add_one.mpr (Nat.zero_lt_of_lt h)
  rw [hturns]
  exact scan_exact hadmits hsize stopAtElse (pc.toNat + 1) 0 turns pc 0 rfl rfl (by omega)
    (Nat.succ_pos _) (by omega)

end WordMachine

end GlyphHint
