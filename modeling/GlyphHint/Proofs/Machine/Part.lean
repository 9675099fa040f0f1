import GlyphHint.Proofs.Machine.Locality
import GlyphHint.Proofs.Machine.Record
import GlyphHint.Proofs.Program.Part
set_option autoImplicit false

/-!
# Running in a part of a program

A program that is a part of another one does there what it does on its own, moved by the bytes in
front of it.  An instruction can do more in the whole than in the part only where it misses bytes in
the part (`Action.perform_part`), and so can a turn (`Machine.turn_part`).  Whatever a run comes to
in the part, the run of the whole comes to, once it has got to the start of the part
(`Machine.Reaches.movedBy`).
-/

namespace GlyphHint

/-- The cause is that the bytes behind the instruction do not hold what it looks for. -/
def Cause.missesBytes : Cause → Bool
  | .insufficientData | .unbalanced => true
  | _ => false

/-- The action with the program counter that it gives moved by `k`. -/
def Action.movedBy (k : Nat) (x : Action Int) : Action Int :=
  (· + (k : Int)) <$> x

/-- The fault `k` bytes further on, under limits greater by `k`. -/
def Fault.movedBy (k : Nat) : Fault → Fault
  | .tooManyInstructions length limit => .tooManyInstructions (length + k) (limit + k)
  | .tooManySteps limit => .tooManySteps (limit + k)
  | .stopped cause pc opcode => .stopped cause (pc + k) opcode

/-- The moment `k` bytes further on. -/
def Moment.movedBy (k : Nat) (m : Moment) : Moment where
  pc := m.pc + k
  mnemonic := m.mnemonic
  stack := m.stack

namespace Machine

/-- The state `k` bytes and `k` steps further on. -/
def State.movedBy (k : Nat) (s : State) : State where
  pc := s.pc + k
  steps := s.steps + k
  stack := s.stack

@[simp] theorem State.pc_movedBy (k : Nat) (s : State) : (s.movedBy k).pc = s.pc + k := rfl

@[simp] theorem State.steps_movedBy (k : Nat) (s : State) : (s.movedBy k).steps = s.steps + k := rfl

@[simp] theorem State.stack_movedBy (k : Nat) (s : State) : (s.movedBy k).stack = s.stack := rfl

/-- What a turn comes to `k` bytes and `k` steps further on. -/
def Turn.movedBy (k : Nat) : Turn → Turn
  | .finished => .finished
  | .failed fault stack => .failed (fault.movedBy k) stack
  | .performed next => .performed (next.movedBy k)

end Machine

/-! ## Instructions of a part -/

namespace Action

variable {p program : Program} {k pc : Nat}

theorem movedBy_apply (k : Nat) (x : Action Int) (s : Stack) :
    x.movedBy k s =
      match x s with
      | .ok next t => .ok (next + k) t
      | .error cause t => .error cause t := by
  simp only [movedBy, Functor.map, EStateM.map]
  cases x s <;> rfl

/-- The end of an arm is found in the whole, or else it is missed in the part. -/
theorem endOfArm_part (h : p.PartOf program k) (pc : Nat) (stopAtElse : Bool) :
    endOfArm program (k + pc) stopAtElse = (k + ·) <$> endOfArm p pc stopAtElse ∨
      (k + p.size < program.size ∧
        ∀ s, endOfArm p pc stopAtElse s = .error .unbalanced s) := by
  unfold endOfArm
  rcases h.matching? pc stopAtElse with hmatch | ⟨hmore, hnone⟩
  · left
    rw [hmatch]
    cases Branch.matching? p pc stopAtElse with
    | none => rfl
    | some e => rfl
  · right
    rw [hnone]
    exact ⟨hmore, fun _ => rfl⟩

/-- An ELSE goes behind the end of its arm. -/
theorem perform_elseArm_part (h : p.PartOf program k) (pc : Nat) (s : Stack) :
    perform program (k + pc) .elseArm s = movedBy k (perform p pc .elseArm) s ∨
      (k + p.size < program.size ∧ perform p pc .elseArm s = .error .unbalanced s) := by
  have hnext : ∀ e : Nat, ((k + e : Nat) : Int) + 1 = e + 1 + k := by omega
  rcases endOfArm_part h pc false with harm | ⟨hmore, hmissing⟩
  · left
    simp only [perform, movedBy, harm, map_bind, map_pure, bind_map_left, hnext]
  · exact Or.inr ⟨hmore, bind_of_error (hmissing s)⟩

/-- An IF looks for the end of its arm only to leave the arm out. -/
theorem perform_ifNonzero_part (h : p.PartOf program k) (pc : Nat) {s : Stack}
    (hdeep : 1 ≤ s.depth) :
    perform program (k + pc) .ifNonzero s = movedBy k (perform p pc .ifNonzero) s ∨
      (k + p.size < program.size ∧ perform p pc .ifNonzero s = .error .unbalanced s) := by
  have hnext : ∀ e : Nat, ((k + e : Nat) : Int) + 1 = e + 1 + k := by omega
  obtain ⟨condition, vs, htop⟩ := s.exists_cons hdeep
  simp only [perform, movedBy, map_bind, bind_of_ok (peek_zero htop)]
  by_cases hzero : condition = 0
  · simp only [hzero, if_true]
    rcases endOfArm_part h pc true with harm | ⟨hmore, hmissing⟩
    · left
      simp only [harm, map_bind, map_pure, bind_map_left, hnext]
    · exact Or.inr ⟨hmore, bind_of_error (hmissing s)⟩
  · left
    simp only [hzero, if_false, map_bind, map_pure, hnext]

theorem perform_jump_part : perform program (k + pc) .jump = movedBy k (perform p pc .jump) := by
  have hnext : ∀ offset : Int, ((k + pc : Nat) : Int) + offset = pc + offset + k := by omega
  simp only [perform, movedBy, map_bind, map_pure, hnext]

theorem perform_jumpWhen_part (truth : Bool) :
    perform program (k + pc) (.jumpWhen truth) = movedBy k (perform p pc (.jumpWhen truth)) := by
  have hnext : ∀ offset : Int, ((k + pc : Nat) : Int) + offset = pc + offset + k := by omega
  simp only [perform, movedBy, map_bind, map_pure, hnext, ← apply_ite (· + (k : Int))]

/-- Conditionals, jumps and pushes apart, an instruction goes on to the next byte. -/
theorem perform_straight_part {op : Op} (hstraight : op.Straight)
    (hpush : ∀ shape, op ≠ .push shape) :
    perform program (k + pc) op = movedBy k (perform p pc op) := by
  have hnext : ((k + pc : Nat) : Int) + 1 = pc + 1 + k := by omega
  calc perform program (k + pc) op
      = perform p pc op >>= fun _ => pure ((pc : Int) + 1 + k) := by
        rw [perform_eq_of_straight program p (k + pc) pc hstraight hpush, hnext]
    _ = movedBy k (perform p pc op >>= fun _ => pure ((pc : Int) + 1)) := by
        simp only [movedBy, map_bind, map_pure]
    _ = movedBy k (perform p pc op) := by
        rw [← perform_eq_of_straight p p pc pc hstraight hpush]

/-- Immediates that lie in the part are pushed in the whole. -/
theorem pushImmediates_part (h : p.PartOf program k) {width : Width} {offset n : Nat}
    (hfits : offset + width.bytes * n ≤ p.size) :
    pushImmediates program width (k + offset) n = pushImmediates p width offset n := by
  apply pushImmediates_congr
  intro i hi
  rw [Nat.add_assoc]
  exact h.getElem?_of_lt (by omega)

/-- A push wants room for its values before their bytes. -/
theorem perform_push_part (h : p.PartOf program k) (pc : Nat) (shape : PushShape) (s : Stack) :
    perform program (k + pc) (.push shape) s = movedBy k (perform p pc (.push shape)) s ∨
      (k + p.size < program.size ∧
        perform p pc (.push shape) s = .error .insufficientData s) := by
  have hfits := h.fits
  rcases h.pushCount? pc shape with hcount | ⟨hmore, hnone⟩
  · simp only [perform, hcount]
    cases p.pushCount? pc shape with
    | none => exact Or.inl rfl
    | some n =>
      simp only [movedBy, map_bind]
      by_cases hroom : s.depth + n ≤ s.capacity
      · simp only [bind_of_ok (needRoom_of_room hroom)]
        by_cases hvalues : pc + shape.size n ≤ p.size
        · left
          have hvalues' : k + pc + shape.size n ≤ program.size := by omega
          have hend : pc + shape.headSize + shape.width.bytes * n ≤ p.size := by
            rw [Nat.add_assoc]
            exact hvalues
          have hbytes := pushImmediates_part h hend
          have hnext : ((k + pc : Nat) : Int) + shape.size n = pc + shape.size n + k := by omega
          rw [← Nat.add_assoc] at hbytes
          simp only [hvalues, hvalues', if_true, hbytes, map_bind, map_pure, hnext]
        · rw [if_neg hvalues]
          rcases Nat.eq_or_lt_of_le hfits with hend | hmore
          · left
            rw [if_neg (by omega)]
            rfl
          · exact Or.inr ⟨hmore, rfl⟩
      · left
        have hfull := needRoom_refuses (Nat.not_le.mp hroom)
        rw [bind_of_error hfull, bind_of_error hfull]
  · right
    refine ⟨hmore, ?_⟩
    simp only [perform, hnone]
    rfl

/-- What an instruction of the part does in the whole is what it does in the part, moved, unless it
misses bytes in the part and the whole goes on behind it. -/
theorem perform_part (h : p.PartOf program k) (pc : Nat) (op : Op) {s : Stack}
    (hdeep : op.pops ≤ s.depth) :
    perform program (k + pc) op s = movedBy k (perform p pc op) s ∨
      (k + p.size < program.size ∧
        ∃ cause, cause.missesBytes = true ∧ perform p pc op s = .error cause s) := by
  cases op with
  | elseArm =>
    exact (perform_elseArm_part h pc s).imp_right fun ⟨hmore, hrun⟩ => ⟨hmore, _, rfl, hrun⟩
  | ifNonzero =>
    exact (perform_ifNonzero_part h pc hdeep).imp_right fun ⟨hmore, hrun⟩ => ⟨hmore, _, rfl, hrun⟩
  | push shape =>
    exact (perform_push_part h pc shape s).imp_right fun ⟨hmore, hrun⟩ => ⟨hmore, _, rfl, hrun⟩
  | jump => exact Or.inl (congrFun perform_jump_part s)
  | jumpWhen truth => exact Or.inl (congrFun (perform_jumpWhen_part truth) s)
  | _ =>
    left
    rw [perform_straight_part (by trivial) (by simp)]

end Action

/-! ## Turns in a part -/

namespace Machine

variable {p program : Program} {k limit : Nat} {s t : State}

namespace State.Inside

theorem toNat_movedBy (hinside : s.Inside p) : (s.movedBy k).pc.toNat = k + s.pc.toNat := by
  have hpc := hinside.1
  rw [pc_movedBy]
  omega

/-- Inside of the part is inside of the whole. -/
theorem movedBy (hinside : s.Inside p) (h : p.PartOf program k) :
    (s.movedBy k).Inside program := by
  have hfits := h.fits
  have hsize := hinside.2
  constructor
  · have hpc := hinside.1
    rw [pc_movedBy]
    omega
  · rw [hinside.toNat_movedBy]
    omega

/-- The whole holds the byte of the part. -/
theorem getElem?_movedBy (hinside : s.Inside p) (h : p.PartOf program k) :
    program[(s.movedBy k).pc.toNat]? = p[s.pc.toNat]? := by
  rw [hinside.toNat_movedBy, h.getElem?_of_lt hinside.2]

end State.Inside

/-- A turn in the part is the turn in the whole, moved, unless it misses bytes and the whole goes on
behind the part. -/
theorem turn_part (h : p.PartOf program k) (limit : Nat) (hinside : s.Inside p) :
    turn program (limit + k) (s.movedBy k) = (turn p limit s).movedBy k ∨
      (k + p.size < program.size ∧ ∃ cause opcode, cause.missesBytes = true ∧
        turn p limit s = .failed (.stopped cause s.pc.toNat opcode) s.stack) := by
  have hinside' := hinside.movedBy h
  rcases turn_cases p limit s with ⟨houtside, -⟩ | ⟨-, hlimit, hturn⟩ |
    ⟨-, hlimit, b, hbyte, hcase⟩
  · exact absurd hinside houtside
  · left
    have hlimit' : limit + k ≤ (s.movedBy k).steps + 1 := by
      rw [State.steps_movedBy]
      omega
    rw [hturn, turn_of_limit hinside' hlimit']
    rfl
  · have hbyte' := (hinside.getElem?_movedBy h).trans hbyte
    have hlimit' : (s.movedBy k).steps + 1 < limit + k := by
      rw [State.steps_movedBy]
      omega
    have hplace : (s.movedBy k).pc.toNat = k + s.pc.toNat := hinside.toNat_movedBy
    have hat : k + s.pc.toNat = s.pc.toNat + k := Nat.add_comm _ _
    rcases hcase with ⟨cause, hadmission, hturn⟩ | ⟨op, hop, hdeep, hturn⟩
    · left
      rw [hturn, turn_of_admission_error hinside'.1 hbyte' hlimit' hadmission, hplace, hat]
      rfl
    · have hturn' := turn_of_op hinside'.1 hbyte' hlimit' hop hdeep
      rw [hplace, State.steps_movedBy, State.stack_movedBy] at hturn'
      rcases Action.perform_part h s.pc.toNat op hdeep with hrun | ⟨hmore, cause, hcause, hrun⟩
      · left
        rw [hturn', hturn, Nat.add_right_comm, hrun, Action.movedBy_apply, hat]
        cases Action.perform p s.pc.toNat op s.stack with
        | ok next left => rfl
        | error cause left => rfl
      · right
        rw [hrun] at hturn
        exact ⟨hmore, cause, _, hcause, hturn⟩

/-- A turn that is performed in the part is performed in the whole. -/
theorem turn_part_of_performed (h : p.PartOf program k)
    (hturn : turn p limit s = .performed t) :
    turn program (limit + k) (s.movedBy k) = .performed (t.movedBy k) := by
  rcases turn_part h limit (inside_of_turn_performed hturn) with heq | ⟨-, cause, opcode, -, hfail⟩
  · rw [heq, hturn]
    rfl
  · cases hturn.symm.trans hfail

/-- What a run comes to in the part, it comes to in the whole. -/
theorem Reaches.movedBy (hreached : Reaches p limit s t) (h : p.PartOf program k) :
    Reaches program (limit + k) (s.movedBy k) (t.movedBy k) := by
  induction hreached with
  | refl => exact .refl _
  | tail _ hlast ih => exact ih.trans (.single (turn_part_of_performed h hlast))

/-! ## Recordings in a part -/

/-- A turn shows the same in the whole as in the part, moved. -/
theorem shown?_part (h : p.PartOf program k) (limit : Nat) (hinside : s.Inside p) :
    shown? program (limit + k) (s.movedBy k) = (shown? p limit s).map (Moment.movedBy k) := by
  rcases Nat.lt_or_ge (s.steps + 1) limit with hlimit | hlimit
  · obtain ⟨b, hbyte⟩ : ∃ b, p[s.pc.toNat]? = some b := ⟨_, Array.getElem?_eq_getElem hinside.2⟩
    have hbyte' := (hinside.getElem?_movedBy h).trans hbyte
    have hlimit' : (s.movedBy k).steps + 1 < limit + k := by
      rw [State.steps_movedBy]
      omega
    cases hadmission : (Opcode.mk b).admission s.stack.depth with
    | error cause =>
      rw [shown?_of_admission_error hbyte hadmission,
        shown?_of_admission_error hbyte' (s := s.movedBy k) hadmission]
      rfl
    | ok admitted =>
      rw [shown?_of_admission_ok hinside.1 hbyte hlimit hadmission,
        shown?_of_admission_ok (hinside.movedBy h).1 hbyte' hlimit' hadmission,
        hinside.toNat_movedBy, Nat.add_comm k]
      rfl
  · have hlimit' : limit + k ≤ (s.movedBy k).steps + 1 := by
      rw [State.steps_movedBy]
      omega
    rw [shown?_of_limit hlimit, shown?_of_limit hlimit']
    rfl

/-- All that is recorded of a run in the part is recorded first of the run in the whole, moved. -/
theorem record_part (h : p.PartOf program k) (limit : Nat) (s : State) :
    (record p limit s).seen.map (Moment.movedBy k) <+:
      (record program (limit + k) (s.movedBy k)).seen := by
  induction s using turn_induction p limit with
  | finished s hturn =>
    rw [record_of_finished hturn, shown?_of_outside (turn_finished hturn)]
    exact List.nil_prefix
  | failed s fault stack hturn =>
    have hfirst := shown?_prefix_record program (limit + k) (s.movedBy k)
    rw [shown?_part h limit (turn_failed hturn).1, Option.toList_map] at hfirst
    rw [record_of_failed hturn]
    exact hfirst
  | performed s next hturn ih =>
    rw [record_of_performed hturn, record_of_performed (turn_part_of_performed h hturn),
      shown?_part h limit (inside_of_turn_performed hturn)]
    simp only [Ending.map, List.map_append, Option.toList_map]
    exact (List.prefix_append_right_inj _).mpr ih

end Machine

end GlyphHint
