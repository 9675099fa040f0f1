import GlyphHint.Proofs.Branch.Bracket
import GlyphHint.Proofs.WordMachine.Mirror
import GlyphHint.Proofs.WordMachine.Scan
set_option autoImplicit false

/-!
# One instruction, with words

From an offset in the program an instruction with words mirrors the instruction on integers
(`WordMachine.perform_mirrors`).  Each result on the way is exact because it is in its range, and it
is so because of the checks that the instruction makes anyway: an index is compared with the depth
before it is counted from 0, a push looks for its count before it counts its bytes, and only an
offset that was found in the program becomes a program counter.
-/

namespace GlyphHint.WordMachine

variable {policy : Policy} {program : Program} {limits : Limits} {s : Stack}

section Exact

variable (hadmits : policy.Admits limits program.size) (hsize : program.size ≤ 2 ^ 62)

include hadmits hsize

/-! ## Where control goes -/

/-- An offset in the program is the same number as a program counter. -/
theorem place_exact {offset : UInt64} (h : offset.toNat ≤ program.size) :
    ∃ counter, policy.toSigned .place offset = some counter ∧ counter.toInt = offset.toNat :=
  hadmits.toSigned hsize ⟨by omega, by omega⟩ rfl

/-- The program counter one byte on is exact. -/
theorem next_exact {counter : Int64} {pc : Nat} (hpc : counter.toInt = pc)
    (h : pc < program.size) :
    ∃ next, policy.addSigned .behind counter 1 = some next ∧ next.toInt = pc + 1 := by
  have hone : (1 : Int64).toInt = 1 := rfl
  rw [← hpc, ← hone]
  exact hadmits.addSigned hsize ⟨by omega, by omega⟩ rfl

/-- The target of a jump is exact. -/
theorem target_exact {counter : Int64} {pc : Nat} (hpc : counter.toInt = pc)
    (h : pc < program.size) (offset : Int32) :
    ∃ target, policy.addSigned .target counter offset.toInt64 = some target ∧
      target.toInt = pc + offset.toInt := by
  have hlow := offset.le_toInt
  have hhigh := offset.toInt_lt
  rw [← hpc, ← offset.toInt_toInt64]
  rw [← offset.toInt_toInt64] at hlow hhigh
  exact hadmits.addSigned hsize ⟨by omega, by omega⟩ rfl

/-- The program counter behind an instruction of one byte in the program is exact. -/
theorem behind_exact {offset : UInt64} (h : offset.toNat < program.size) :
    ∃ next, behind policy offset = some next ∧ next.toInt = offset.toNat + 1 := by
  obtain ⟨counter, hplace, hcounter⟩ := place_exact hadmits hsize (Nat.le_of_lt h)
  obtain ⟨next, hnext, hexact⟩ := next_exact hadmits hsize hcounter h
  refine ⟨next, ?_, hexact⟩
  simp only [behind, hplace, Option.bind_eq_bind, Option.bind_some, hnext]

/-- An offset in the program. -/
abbrev IsPlace (program : Program) (w : UInt64) (n : Nat) : Prop :=
  w.toNat = n ∧ n < program.size

theorem endOfArm_mirrors {pc : UInt64} (hpc : pc.toNat < program.size) (stopAtElse : Bool) :
    Mirrors (endOfArm policy program pc stopAtElse)
      (GlyphHint.Action.endOfArm program pc.toNat stopAtElse) (IsPlace program) s := by
  obtain ⟨found, hscan, hfound⟩ := matching_exact hadmits hsize stopAtElse hpc
  refine Mirrors.bind_some hscan ?_
  unfold GlyphHint.Action.endOfArm
  rw [← hfound]
  cases found with
  | none => exact Mirrors.stop _ _
  | some offset =>
    refine Mirrors.pure ⟨rfl, ?_⟩
    exact (Branch.endsArm_of_matching? hfound.symm).inside

/-! ## Indices -/

/-- A place on the stack. -/
abbrev IsDepth (w : UInt64) (n : Nat) : Prop :=
  w.toNat = n ∧ n + 1 < 2 ^ 64

omit hadmits hsize in
theorem eq_of_peek_ok {d : Nat} {v : Int32} {t : Stack} (h : GlyphHint.Action.peek d s = .ok v t) :
    t = s := by
  unfold GlyphHint.Action.peek at h
  split at h
  · cases h
    rfl
  · cases h

omit hsize in
/-- An index that names a value is exact, and so is the place that it names. -/
theorem popIndex_mirrors (hcapacity : s.capacity = limits.stackCapacity.toNat) :
    Mirrors (popIndex policy) GlyphHint.Action.popIndex IsDepth s := by
  refine Mirrors.bind peek_zero_mirrors fun x y t hxy hpeek => ?_
  subst hxy
  obtain rfl := eq_of_peek_ok hpeek
  refine Mirrors.bind depth_mirrors fun w n u hw hdepth => ?_
  cases hdepth
  by_cases hpos : 0 < x.toInt
  · have hword : ¬ x ≤ 0 := by
      rw [Int32.le_iff_toInt_le]
      exact Int.not_le.mpr hpos
    have hhigh := x.toInt_lt
    obtain ⟨index, hindex, hexact⟩ := hadmits.toUnsigned (q := .index) (a := x.toInt64)
      (by rw [x.toInt_toInt64]; exact ⟨hpos, by omega⟩) (by rw [x.toInt_toInt64]; omega)
    rw [x.toInt_toInt64] at hexact
    rw [if_neg hword]
    refine Mirrors.bind_some hindex ?_
    by_cases hlive : x.toInt < t.depth
    · have hbelow : ¬ w ≤ index := by
        rw [UInt64.le_iff_toNat_le, hw]
        omega
      rw [if_neg hbelow, if_pos ⟨hpos, hlive⟩]
      refine Mirrors.bind pop_mirrors fun _ _ u _ _ => ?_
      have hfull := t.depth_le_capacity
      obtain ⟨place, hplace, hexact'⟩ := hadmits.sub (q := .indexed) (a := index) (b := 1)
        ⟨by rw [UInt64.toNat_one]; omega, by rw [UInt64.toNat_one]; omega⟩
        (by rw [UInt64.toNat_one]; omega)
      rw [UInt64.toNat_one, hexact] at hexact'
      exact Mirrors.some hplace ⟨hexact', by omega⟩
    · have hbelow : w ≤ index := by
        rw [UInt64.le_iff_toNat_le, hw]
        omega
      rw [if_pos hbelow, if_neg fun h => hlive h.2]
      exact Mirrors.stop _ _
  · have hword : x ≤ 0 := Int32.le_iff_toInt_le.mpr (Int.not_lt.mp hpos)
    rw [if_pos hword, if_neg fun h => hpos h.1]
    exact Mirrors.stop _ _

/-! ## Pushes -/

/-- The count of a push and the offset of its values are exact. -/
theorem operands_exact {pc : UInt64} {shape : PushShape} {b : UInt8}
    (hbyte : program[pc.toNat]? = some b) (hop : (Opcode.mk b).op? = some (.push shape)) :
    match program.pushCount? pc.toNat shape with
    | none => operands policy program pc shape = stop .insufficientData
    | some n => ∃ count first, operands policy program pc shape = pure (count, first) ∧
        count.toNat = n ∧ first.toNat = pc.toNat + shape.headSize ∧ first.toNat ≤ program.size := by
  have hinside := (Array.getElem?_eq_some_iff.mp hbyte).1
  obtain ⟨width, count⟩ := shape
  have hone : (1 : UInt64).toNat = 1 := rfl
  have htwo : (2 : UInt64).toNat = 2 := rfl
  obtain ⟨first, hadd, hfirst⟩ := hadmits.add hsize (q := .operands) (a := pc) (b := 1)
    ⟨by omega, by omega⟩ rfl
  cases count with
  | inline n =>
    have hn : n ≤ 8 := Opcode.inline_le_of_op? hop
    refine ⟨.ofNat n, first, ?_, ?_, hfirst, by omega⟩
    · simp only [operands, hadd, some_bind]
    · exact UInt64.toNat_ofNat_of_lt' (Nat.lt_of_le_of_lt hn (by decide))
  | prefixed =>
    rw [hone] at hfirst
    simp only [Program.pushCount?, operands, hadd, some_bind, hfirst]
    cases hcount : program[pc.toNat + 1]? with
    | none => rfl
    | some n =>
      have hinside' := (Array.getElem?_eq_some_iff.mp hcount).1
      obtain ⟨values, hadd', hvalues⟩ := hadmits.add hsize (q := .operands) (a := pc) (b := 2)
        ⟨by omega, by omega⟩ rfl
      refine ⟨n.toUInt64, values, ?_, UInt8.toNat_toUInt64 n, hvalues, by omega⟩
      simp only [hadd', some_bind]

omit hadmits hsize in
/-- Values are put on top as the immediates of a push are that lie in the program. -/
theorem pushAll_mirrors {width : Width} {offset n : Nat}
    (hfits : offset + width.bytes * n ≤ program.size) :
    Mirrors (pushAll (program.immediates width offset n))
      (GlyphHint.Action.pushImmediates program width offset n) Eq s := by
  induction n generalizing offset s with
  | zero => exact Mirrors.pure rfl
  | succ n ih =>
    rw [Nat.mul_add, Nat.mul_one] at hfits
    have hfirst : offset + width.bytes ≤ program.size := by omega
    obtain ⟨v, hv⟩ := Option.isSome_iff_exists.mp (Program.immediate?_isSome hfirst)
    rw [Program.immediates_succ hv]
    unfold GlyphHint.Action.pushImmediates
    rw [hv]
    exact Mirrors.bind (push_mirrors v) fun _ _ t _ _ => ih (by omega)

/-- A push with words puts the immediates on top and goes on behind them, or is refused for the
same reason. -/
theorem performPush_mirrors {pc : UInt64} {shape : PushShape} {b : UInt8}
    (hbyte : program[pc.toNat]? = some b) (hop : (Opcode.mk b).op? = some (.push shape)) :
    Mirrors
      (pushImmediates policy program pc shape >>= fun last => liftM (policy.toSigned .place last))
      (GlyphHint.Action.perform program pc.toNat (.push shape)) IsInt s := by
  have hoperands := operands_exact hadmits hsize hbyte hop
  unfold pushImmediates
  cases hcount : program.pushCount? pc.toNat shape with
  | none =>
    rw [hcount] at hoperands
    simp only [GlyphHint.Action.perform, hcount, hoperands]
    exact fun b hb => ⟨b, rfl, hb⟩
  | some n =>
    rw [hcount] at hoperands
    obtain ⟨count, first, hoperands, rfl, hfirst, hinside⟩ := hoperands
    have hn := Program.pushCount?_le hop hcount
    have hle := shape.width.bytes_mul_le hn
    obtain ⟨bytes, hmul, hbytes⟩ := valueBytes_exact hadmits hsize shape.width hn
    obtain ⟨last, hadd, hlast⟩ := hadmits.add hsize (q := .pushEnd) (a := first) (b := bytes)
      ⟨by omega, by omega⟩ rfl
    have hend : last.toNat = pc.toNat + shape.size count.toNat := by
      rw [hlast, hbytes, hfirst, PushShape.size, Nat.add_assoc]
    simp only [GlyphHint.Action.perform, hcount, hoperands, pure_bind, bind_assoc]
    refine Mirrors.bind (needRoom_mirrors rfl) fun _ _ t _ _ => ?_
    refine Mirrors.bind_some hmul (Mirrors.bind_some hadd ?_)
    by_cases hfits : pc.toNat + shape.size count.toNat ≤ program.size
    · have horder : first ≤ last := by
        rw [UInt64.le_iff_toNat_le, hlast]
        exact Nat.le_add_right _ _
      have hvalues : (last.toNat - first.toNat) / shape.width.bytes = count.toNat := by
        rw [hlast, Nat.add_sub_cancel_left, hbytes]
        exact Nat.mul_div_cancel_left _ shape.width.bytes_pos
      rw [if_pos hfits, if_pos ⟨horder, hend ▸ hfits⟩, bind_assoc, hvalues, hfirst]
      refine Mirrors.bind (pushAll_mirrors (by omega)) fun _ _ u _ _ => ?_
      have hlast : last.toNat ≤ program.size := hend ▸ hfits
      obtain ⟨counter, hplace, hcounter⟩ := place_exact hadmits hsize hlast
      rw [pure_bind]
      refine Mirrors.some hplace ?_
      rw [IsInt, hcounter, hend]
      rfl
    · rw [if_neg hfits, if_neg fun h => hfits (hend ▸ h.2)]
      exact fun b hb => ⟨b, rfl, hb⟩

/-! ## Every instruction -/

section Instruction

variable {pc : UInt64} (hinside : pc.toNat < program.size)

include hinside

theorem goOn_mirrors {counter : Int64} (hcounter : counter.toInt = pc.toNat) (s : Stack) :
    Mirrors (liftM (policy.addSigned .behind counter 1) : Action Int64)
      (pure (pc.toNat + 1 : Int)) IsInt s := by
  obtain ⟨next, hadd, hnext⟩ := next_exact hadmits hsize hcounter hinside
  exact Mirrors.some hadd hnext

theorem goTo_mirrors {counter : Int64} (hcounter : counter.toInt = pc.toNat) (offset : Int32)
    (s : Stack) :
    Mirrors (liftM (policy.addSigned .target counter offset.toInt64) : Action Int64)
      (pure (pc.toNat + offset.toInt : Int)) IsInt s := by
  obtain ⟨target, htarget, hexact⟩ := target_exact hadmits hsize hcounter hinside offset
  exact Mirrors.some htarget hexact

theorem performIf_mirrors :
    Mirrors (perform policy program pc .ifNonzero)
      (GlyphHint.Action.perform program pc.toNat .ifNonzero) IsInt s := by
  obtain ⟨counter, hplace, hcounter⟩ := place_exact hadmits hsize (Nat.le_of_lt hinside)
  refine Mirrors.bind_some hplace ?_
  refine Mirrors.bind peek_zero_mirrors fun x y t hxy _ => ?_
  subst hxy
  by_cases hzero : x = 0
  · rw [if_pos hzero, if_pos hzero]
    refine Mirrors.bind (endOfArm_mirrors hadmits hsize hinside true) fun w n u hw _ => ?_
    obtain ⟨rfl, hinside'⟩ := hw
    obtain ⟨behind, hbehind, hexact⟩ := behind_exact hadmits hsize hinside'
    refine Mirrors.bind_some hbehind ?_
    exact Mirrors.bind pop_mirrors fun _ _ _ _ _ => Mirrors.pure hexact
  · rw [if_neg hzero, if_neg hzero]
    exact Mirrors.bind pop_mirrors fun _ _ u _ _ => goOn_mirrors hadmits hsize hinside hcounter u

theorem performJumpWhen_mirrors (truth : Bool) :
    Mirrors (perform policy program pc (.jumpWhen truth))
      (GlyphHint.Action.perform program pc.toNat (.jumpWhen truth)) IsInt s := by
  obtain ⟨counter, hplace, hcounter⟩ := place_exact hadmits hsize (Nat.le_of_lt hinside)
  refine Mirrors.bind_some hplace ?_
  refine Mirrors.bind pop_mirrors fun condition _ t hcondition _ => ?_
  refine Mirrors.bind pop_mirrors fun offset _ u hoffset _ => ?_
  subst hcondition hoffset
  by_cases htaken : (condition != 0) = truth
  · rw [if_pos htaken, if_pos htaken]
    exact goTo_mirrors hadmits hsize hinside hcounter offset u
  · rw [if_neg htaken, if_neg htaken]
    exact goOn_mirrors hadmits hsize hinside hcounter u

theorem performDepth_mirrors (hcapacity : s.capacity = limits.stackCapacity.toNat) :
    Mirrors (perform policy program pc .depth)
      (GlyphHint.Action.perform program pc.toNat .depth) IsInt s := by
  obtain ⟨counter, hplace, hcounter⟩ := place_exact hadmits hsize (Nat.le_of_lt hinside)
  refine Mirrors.bind_some hplace ?_
  refine Mirrors.bind depth_mirrors fun w n t hw hdepth => ?_
  cases hdepth
  have hfull := s.depth_le_capacity
  have hvalue := hadmits.toValue (q := .depth) (a := w) ⟨by omega, by omega⟩
  rw [hw] at hvalue
  refine Mirrors.bind_some hvalue ?_
  exact Mirrors.bind (push_mirrors _) fun _ _ u _ _ => goOn_mirrors hadmits hsize hinside hcounter u

theorem performDivide_mirrors :
    Mirrors (perform policy program pc .divide)
      (GlyphHint.Action.perform program pc.toNat .divide) IsInt s := by
  obtain ⟨counter, hplace, hcounter⟩ := place_exact hadmits hsize (Nat.le_of_lt hinside)
  refine Mirrors.bind_some hplace ?_
  refine Mirrors.bind peek_zero_mirrors fun b _ t hb _ => ?_
  refine Mirrors.bind (peek_mirrors rfl (by decide)) fun a _ u ha _ => ?_
  subst hb ha
  cases Fixed.div? a b with
  | none => exact Mirrors.stop _ _
  | some q =>
    refine Mirrors.bind pop_mirrors fun _ _ v _ _ => ?_
    refine Mirrors.bind (replaceTop_mirrors q) fun _ _ w _ _ => ?_
    exact goOn_mirrors hadmits hsize hinside hcounter w

end Instruction

/-- An instruction with words does what it does with integers: it passes control to the same place
or stops with the same cause, on a buffer that holds the same values. -/
theorem perform_mirrors (hcapacity : s.capacity = limits.stackCapacity.toNat) {pc : UInt64}
    {b : UInt8} {op : Op} (hbyte : program[pc.toNat]? = some b)
    (hop : (Opcode.mk b).op? = some op) :
    Mirrors (perform policy program pc op) (GlyphHint.Action.perform program pc.toNat op) IsInt
      s := by
  have hinside := (Array.getElem?_eq_some_iff.mp hbyte).1
  obtain ⟨counter, hplace, hcounter⟩ := place_exact hadmits hsize (Nat.le_of_lt hinside)
  have hon := goOn_mirrors hadmits hsize hinside hcounter
  cases op with
  | elseArm =>
    refine Mirrors.bind_some hplace ?_
    refine Mirrors.bind (endOfArm_mirrors hadmits hsize hinside false) fun w n t hw _ => ?_
    obtain ⟨rfl, hinside'⟩ := hw
    obtain ⟨behind, hbehind, hexact⟩ := behind_exact hadmits hsize hinside'
    exact Mirrors.some hbehind hexact
  | endIf => exact Mirrors.bind_some hplace (hon s)
  | debug => exact Mirrors.bind_some hplace (hon s)
  | ifNonzero => exact performIf_mirrors hadmits hsize hinside
  | jump =>
    refine Mirrors.bind_some hplace (Mirrors.bind pop_mirrors fun offset _ t hoffset _ => ?_)
    subst hoffset
    exact goTo_mirrors hadmits hsize hinside hcounter offset t
  | jumpWhen truth => exact performJumpWhen_mirrors hadmits hsize hinside truth
  | dup =>
    refine Mirrors.bind_some hplace (Mirrors.bind peek_zero_mirrors fun v _ t hv _ => ?_)
    subst hv
    exact Mirrors.bind (push_mirrors v) fun _ _ u _ _ => hon u
  | pop => exact Mirrors.bind_some hplace (Mirrors.bind pop_mirrors fun _ _ t _ _ => hon t)
  | clear => exact Mirrors.bind_some hplace (Mirrors.bind clear_mirrors fun _ _ t _ _ => hon t)
  | swap =>
    refine Mirrors.bind_some hplace (Mirrors.bind pop_mirrors fun b _ t hb _ => ?_)
    refine Mirrors.bind pop_mirrors fun a _ u ha _ => ?_
    subst hb ha
    refine Mirrors.bind (push_mirrors b) fun _ _ v _ _ => ?_
    exact Mirrors.bind (push_mirrors a) fun _ _ w _ _ => hon w
  | depth => exact performDepth_mirrors hadmits hsize hinside hcapacity
  | copyIndexed =>
    have hindex := popIndex_mirrors hadmits hcapacity
    refine Mirrors.bind_some hplace (Mirrors.bind hindex fun d _ t hd _ => ?_)
    refine Mirrors.bind (peek_mirrors hd.1 hd.2) fun v _ u hv _ => ?_
    subst hv
    exact Mirrors.bind (push_mirrors v) fun _ _ w _ _ => hon w
  | moveIndexed =>
    have hindex := popIndex_mirrors hadmits hcapacity
    refine Mirrors.bind_some hplace (Mirrors.bind hindex fun d _ t hd _ => ?_)
    exact Mirrors.bind (lift_mirrors hd.1 hd.2) fun _ _ u _ _ => hon u
  | push shape => exact Mirrors.bind_some hplace (performPush_mirrors hadmits hsize hbyte hop)
  | unary f =>
    refine Mirrors.bind_some hplace (Mirrors.bind peek_zero_mirrors fun a _ t ha _ => ?_)
    subst ha
    exact Mirrors.bind (replaceTop_mirrors _) fun _ _ u _ _ => hon u
  | binary f =>
    refine Mirrors.bind_some hplace (Mirrors.bind pop_mirrors fun b _ t hb _ => ?_)
    refine Mirrors.bind peek_zero_mirrors fun a _ u ha _ => ?_
    subst hb ha
    exact Mirrors.bind (replaceTop_mirrors _) fun _ _ v _ _ => hon v
  | divide => exact performDivide_mirrors hadmits hsize hinside

end Exact

end GlyphHint.WordMachine
