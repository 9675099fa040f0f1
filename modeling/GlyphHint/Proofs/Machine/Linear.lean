import GlyphHint.Proofs.Branch.Scan
import GlyphHint.Proofs.Machine.Trace
import GlyphHint.Proofs.Program.Boundary
import Mathlib.Data.List.Perm.Subperm
set_option autoImplicit false

/-!
# Programs without jumps run along their listing

In a program without jumps control only ever moves forward, from one boundary to another: the
machine steps over operands as the reader does, and so does the scan for the end of an arm.  The
offsets that a run fetches from are therefore boundaries in ascending order, and a run cannot get
past the push that cuts a listing short.

What a run fetches is read off its turns (`Machine.fetched`); it is what the recording of the run
shows, and the instruction that fails (`Interpreter.fetched_eq_record`).
-/

namespace GlyphHint

/-- No boundary of the program holds JMPR, JROT or JROF. -/
def Program.JumpFree (program : Program) : Prop :=
  ∀ pc ∈ program.boundaries, ∀ b ∈ program[pc]?, b ≠ 0x1C ∧ b ≠ 0x78 ∧ b ≠ 0x79

namespace Branch

variable {program : Program} {stopAtElse : Bool} {pc nesting e : Nat}

/-- A scan that starts at a boundary ends at one, with an instruction of one byte. -/
theorem scan_mem_boundaries (hlands : program.Lands pc)
    (h : scan program stopAtElse pc nesting = some e) :
    e ∈ program.boundaries ∧ pc ≤ e ∧ program.Lands (e + 1) := by
  induction hleft : program.size - pc using Nat.strongRecOn generalizing pc nesting with
  | ind left ih =>
    obtain ⟨b, q, hbyte, hbehind, hscan⟩ := scan_stride h
    have hsize : pc < program.size := (Array.getElem?_eq_some_iff.mp hbyte).1
    have hmem := hlands.mem_boundaries hsize
    have hnext := Program.lands_behind hmem hbyte hbehind
    have hlt := Program.lt_of_behind? hbehind
    rcases hscan with ⟨rfl, rfl⟩ | ⟨nesting', hscan⟩
    · exact ⟨hmem, Nat.le_refl _, hnext⟩
    · obtain ⟨he, hle, hland⟩ := ih (program.size - q) (by omega) hnext hscan rfl
      exact ⟨he, by omega, hland⟩

end Branch

namespace Machine

variable {program : Program} {limit : Nat} {s t : State}

/-- Without a jump control goes forward and lands. -/
theorem lands_of_goes {pc : Nat} {b : UInt8} {op : Op} {next : Int} (hfree : program.JumpFree)
    (hpc : pc ∈ program.boundaries) (hbyte : program[pc]? = some b)
    (hop : (Opcode.mk b).op? = some op) (hgoes : op.Goes program pc next) :
    ∃ q : Nat, next = q ∧ pc < q ∧ program.Lands q := by
  cases hgoes with
  | on hpush =>
    have hbehind : program.behind? pc ⟨b⟩ = some (pc + 1) := Program.behind?_of_op? hop hpush
    exact ⟨pc + 1, rfl, Nat.lt_succ_self pc, Program.lands_behind hpc hbyte hbehind⟩
  | @behindArm _ stopAtElse e harm hmatch =>
    have hpush : ∀ shape, op ≠ .push shape := by
      rintro shape rfl
      rcases harm with harm | harm <;> cases harm
    have hbehind : program.behind? pc ⟨b⟩ = some (pc + 1) := Program.behind?_of_op? hop hpush
    have hlands := Program.lands_behind hpc hbyte hbehind
    obtain ⟨-, hle, hland⟩ := Branch.scan_mem_boundaries hlands hmatch
    exact ⟨e + 1, rfl, by omega, hland⟩
  | @behindPush shape n hcount hfits =>
    have hshape := Opcode.pushShape?_eq_some_iff.mpr hop
    have hbehind : program.behind? pc ⟨b⟩ = some (pc + shape.size n) := by
      unfold Program.behind?
      rw [hshape]
      simp only [hcount, if_pos hfits]
    exact ⟨_, rfl, Program.lt_of_behind? hbehind, Program.lands_behind hpc hbyte hbehind⟩
  | away hjump target =>
    have hbytes := hfree pc hpc b hbyte
    rcases hjump with rfl | ⟨truth, rfl⟩
    · exact absurd ((Opcode.op?_eq_some_iff rfl).mp hop) hbytes.1
    · cases truth with
      | true => exact absurd ((Opcode.op?_eq_some_iff rfl).mp hop) hbytes.2.1
      | false => exact absurd ((Opcode.op?_eq_some_iff rfl).mp hop) hbytes.2.2

/-- The program counter is where control may land. -/
def OnTrack (program : Program) (s : State) : Prop :=
  ∃ q : Nat, s.pc = q ∧ program.Lands q

/-- In the program a state on track is at a boundary. -/
theorem OnTrack.mem_boundaries (h : OnTrack program s) (hsize : s.pc.toNat < program.size) :
    s.pc.toNat ∈ program.boundaries := by
  obtain ⟨q, hq, hlands⟩ := h
  rw [hq, Int.toNat_natCast] at hsize ⊢
  exact hlands.mem_boundaries hsize

/-- A performed turn keeps a run on track and moves it forward. -/
theorem OnTrack.performed (hfree : program.JumpFree) (h : OnTrack program s)
    (hturn : turn program limit s = .performed t) :
    s.pc.toNat < t.pc.toNat ∧ OnTrack program t := by
  obtain ⟨-, -, -, b, op, hbyte, hop, hdeep, hrun⟩ := turn_performed hturn
  have hmem := h.mem_boundaries (Array.getElem?_eq_some_iff.mp hbyte).1
  have hgoes := Op.goes_of_effect (Action.effect_of_perform_ok hdeep hrun).1
  obtain ⟨q, hq, hlt, hlands⟩ := lands_of_goes hfree hmem hbyte hop hgoes
  refine ⟨?_, q, hq, hlands⟩
  rw [hq, Int.toNat_natCast]
  exact hlt

theorem onTrack_start (program : Program) (stack : Stack) : OnTrack program (start stack) :=
  ⟨0, rfl, program.lands_zero⟩

/-- Every state that a run comes to is on track. -/
theorem Reaches.onTrack (hfree : program.JumpFree) (h : Reaches program limit s t)
    (hs : OnTrack program s) : OnTrack program t :=
  h.preserves hs fun _ _ hturn hu => (hu.performed hfree hturn).2

/-! ## The offsets that a run fetches from -/

/-- The offsets of the instructions fetched from a state on, in order: those performed, and the one
that the run stops at. -/
def fetched (program : Program) (limit : Nat) (s : State) : List Nat :=
  match _turned : turn program limit s with
  | .finished => []
  | .failed fault _ => fault.pc?.toList
  | .performed next => s.pc.toNat :: fetched program limit next
  termination_by limit - s.steps
  decreasing_by
    obtain ⟨-, hlimit, hsteps, -⟩ := turn_performed _turned
    omega

theorem fetched_of_finished (h : turn program limit s = .finished) :
    fetched program limit s = [] := by
  rw [fetched.eq_def]
  split
  · rfl
  · rename_i hturn
    cases h.symm.trans hturn
  · rename_i hturn
    cases h.symm.trans hturn

theorem fetched_of_failed {fault : Fault} {stack : Stack}
    (h : turn program limit s = .failed fault stack) :
    fetched program limit s = fault.pc?.toList := by
  rw [fetched.eq_def]
  split
  · rename_i hturn
    cases h.symm.trans hturn
  · rename_i hturn
    cases h.symm.trans hturn
    rfl
  · rename_i hturn
    cases h.symm.trans hturn

theorem fetched_of_performed (h : turn program limit s = .performed t) :
    fetched program limit s = s.pc.toNat :: fetched program limit t := by
  rw [fetched.eq_def]
  split
  · rename_i hturn
    cases h.symm.trans hturn
  · rename_i hturn
    cases h.symm.trans hturn
  · rename_i hturn
    cases h.symm.trans hturn
    rfl

/-- What is fetched is what lies under the program counter of the states that the run comes to with
a step to spare. -/
theorem mem_fetched_iff {pc : Nat} (s : State) :
    pc ∈ fetched program limit s ↔
      ∃ t, Reaches program limit s t ∧ t.Inside program ∧ t.steps + 1 < limit ∧
        t.pc.toNat = pc := by
  constructor
  · intro hpc
    induction s using turn_induction program limit with
    | finished s hturn =>
      rw [fetched_of_finished hturn] at hpc
      cases hpc
    | failed s fault stack hturn =>
      rw [fetched_of_failed hturn] at hpc
      rcases turn_failed hturn with ⟨hinside, ⟨-, rfl, -⟩ | ⟨hlimit, b, cause, -, rfl, -⟩⟩
      · cases hpc
      · exact ⟨s, .refl s, hinside, hlimit, (List.mem_singleton.mp hpc).symm⟩
    | performed s next hturn ih =>
      rw [fetched_of_performed hturn] at hpc
      rcases List.mem_cons.mp hpc with rfl | hpc
      · have hlimit := (turn_performed hturn).2.1
        exact ⟨s, .refl s, inside_of_turn_performed hturn, hlimit, rfl⟩
      · obtain ⟨t, hreached, hrest⟩ := ih hpc
        exact ⟨t, (Reaches.single hturn).trans hreached, hrest⟩
  · rintro ⟨t, hreached, hinside, hlimit, rfl⟩
    induction hreached using Relation.ReflTransGen.head_induction_on with
    | refl =>
      cases hturn : turn program limit t with
      | finished => exact absurd hinside (turn_finished hturn)
      | failed fault stack =>
        rw [fetched_of_failed hturn]
        rcases turn_failed hturn with ⟨-, ⟨hspent, -, -⟩ | ⟨-, b, cause, -, rfl, -⟩⟩
        · omega
        · exact List.mem_singleton.mpr rfl
      | performed next =>
        rw [fetched_of_performed hturn]
        exact List.mem_cons_self
    | head hturn _ ih =>
      rw [fetched_of_performed hturn]
      exact List.mem_cons_of_mem _ ih

/-- The offset of the instruction that a result stops at without its having been shown. -/
def unshown : Except Fault Nat → List Nat
  | .error (.stopped cause pc _) => if cause.beforeStart then [pc] else []
  | _ => []

/-- What is fetched is what the recording of the run shows, and behind that the instruction that
fails before it is shown. -/
theorem fetched_eq_record (program : Program) (limit : Nat) (s : State) :
    fetched program limit s =
      (record program limit s).seen.map Moment.pc ++ unshown (record program limit s).result := by
  induction s using turn_induction program limit with
  | finished s hturn =>
    rw [fetched_of_finished hturn, record_of_finished hturn,
      shown?_of_outside (turn_finished hturn)]
    rfl
  | failed s fault stack hturn =>
    rw [fetched_of_failed hturn, record_of_failed hturn]
    rcases turn_failed hturn with ⟨hinside, ⟨hlimit, rfl, -⟩ |
      ⟨hlimit, b, cause, hbyte, rfl, ⟨hadmission, -⟩ | ⟨op, hop, hdeep, hrun⟩⟩⟩
    · rw [shown?_of_limit hlimit]
      rfl
    · rw [shown?_of_admission_error hbyte hadmission]
      simp [unshown, beforeStart_of_admission_error hadmission, Fault.pc?]
    · obtain ⟨mnemonic, hadmission⟩ := Opcode.admission_of_deep hop hdeep
      rw [shown?_of_admission_ok hinside.1 hbyte hlimit hadmission]
      simp [unshown, beforeStart_of_perform_error hop hdeep hrun, Fault.pc?]
  | performed s next hturn ih =>
    obtain ⟨hpc, hlimit, -, b, op, hbyte, hop, hdeep, -⟩ := turn_performed hturn
    obtain ⟨mnemonic, hadmission⟩ := Opcode.admission_of_deep hop hdeep
    rw [fetched_of_performed hturn, record_of_performed hturn,
      shown?_of_admission_ok hpc hbyte hlimit hadmission, ih]
    rfl

/-- A fault that belongs to an instruction belongs to the one at the program counter. -/
theorem pc_of_turn_failed {fault : Fault} {stack : Stack} {pc : Nat}
    (h : turn program limit s = .failed fault stack) (hpc : fault.pc? = some pc) :
    pc = s.pc.toNat := by
  rcases turn_failed h with ⟨-, ⟨-, rfl, -⟩ | ⟨-, b, cause, -, rfl, -⟩⟩
  · cases hpc
  · exact (Option.some.inj hpc).symm

/-- A run that is on track fetches from boundaries. -/
theorem OnTrack.fetched_mem (hfree : program.JumpFree) (h : OnTrack program s) :
    ∀ pc ∈ fetched program limit s, pc ∈ program.boundaries := by
  intro pc hpc
  obtain ⟨t, hreached, hinside, -, rfl⟩ := (mem_fetched_iff s).mp hpc
  exact (hreached.onTrack hfree h).mem_boundaries hinside.2

/-! ## Runs that go forward -/

/-- Whatever is performed from the state on passes control forward. -/
def Ascends (program : Program) (limit : Nat) (s : State) : Prop :=
  ∀ u v, Reaches program limit s u → turn program limit u = .performed v → u.pc < v.pc

/-- A run that goes forward gets past at least one byte with every step. -/
theorem Ascends.steps_le_pc (h : Ascends program limit s) (hst : Reaches program limit s t) :
    s.pc + (t.steps - s.steps : Nat) ≤ t.pc := by
  induction hst with
  | refl => omega
  | @tail u v hreached hlast ih =>
    obtain ⟨-, -, hsteps, -⟩ := turn_performed hlast
    have hlt := h u v hreached hlast
    omega

/-- A run that goes forward fetches in ascending order. -/
theorem Ascends.fetched_ascending (h : Ascends program limit s) :
    (fetched program limit s).Pairwise (· < ·) := by
  induction s using turn_induction program limit with
  | finished s hturn =>
    rw [fetched_of_finished hturn]
    exact List.Pairwise.nil
  | failed s fault stack hturn =>
    rw [fetched_of_failed hturn]
    cases fault.pc? with
    | none => exact List.Pairwise.nil
    | some pc => exact List.pairwise_singleton _ pc
  | performed s next hturn ih =>
    obtain ⟨hpc, -⟩ := turn_performed hturn
    have hlt := h s next (.refl s) hturn
    have hnext : Ascends program limit next :=
      fun u v hu => h u v ((Reaches.single hturn).trans hu)
    rw [fetched_of_performed hturn]
    apply List.Pairwise.cons
    · -- Whatever is fetched later lies at the next offset or beyond.
      intro pc hpc'
      obtain ⟨t, hreached, -, -, rfl⟩ := (mem_fetched_iff next).mp hpc'
      have hle := hnext.steps_le_pc hreached
      omega
    · exact ih hnext

/-- A run that is on track goes forward. -/
theorem OnTrack.ascends (hfree : program.JumpFree) (h : OnTrack program s) :
    Ascends program limit s := by
  intro u v hreached hturn
  have hlt := ((hreached.onTrack hfree h).performed hfree hturn).1
  omega

end Machine

namespace Interpreter

open Machine

variable {it : Interpreter} {program : Program}

/-- The offsets that the run of a program fetches from, in order; a program that is too long is not
looked at. -/
def fetched (it : Interpreter) (program : Program) : List Nat :=
  if it.limits.maxProgramLength < program.size then []
  else Machine.fetched program it.limits.maxSteps (start it.stack)

/-- The offsets fetched from are those of the moments that the run records and of the instruction
that fails.  This one is among the moments if it fails after it has been shown, and else it stands
behind them. -/
theorem fetched_eq_record (it : Interpreter) (program : Program) :
    it.fetched program =
      (it.record program).seen.map Moment.pc ++ unshown (it.run program).1.result := by
  rw [it.run_eq_record program]
  unfold fetched
  rcases Nat.lt_or_ge it.limits.maxProgramLength program.size with hlong | hshort
  · rw [if_pos hlong, it.record_of_long program hlong]
    rfl
  · rw [if_neg (Nat.not_lt.mpr hshort), it.record_of_short program hshort]
    exact Machine.fetched_eq_record program it.limits.maxSteps (start it.stack)

/-- A run fetches from boundaries in ascending order. -/
theorem fetched_ascending (it : Interpreter) (hfree : program.JumpFree) :
    (∀ pc ∈ it.fetched program, pc ∈ program.boundaries) ∧
      (it.fetched program).Pairwise (· < ·) := by
  have hstart := onTrack_start program it.stack
  unfold fetched
  split
  · exact ⟨fun pc hpc => absurd hpc List.not_mem_nil, List.Pairwise.nil⟩
  · exact ⟨hstart.fetched_mem hfree, (hstart.ascends hfree).fetched_ascending⟩

/-- A run that fetches from ascending offsets fetches no more often than there are offsets to fetch
from. -/
theorem length_fetched_le {offsets : List Nat} (hmem : it.fetched program ⊆ offsets)
    (hascending : (it.fetched program).Pairwise (· < ·)) :
    (it.fetched program).length ≤ offsets.length := by
  have hnodup : (it.fetched program).Nodup := hascending.imp fun h => Nat.ne_of_lt h
  exact (hnodup.subperm hmem).length_le

/-- A run that fails at an instruction has come to it on track. -/
theorem exists_stoppedAt_onTrack (hfree : program.JumpFree) {fault : Fault} {pc : Nat}
    (h : (it.run program).1.result = .error fault) (hpc : fault.pc? = some pc) :
    ∃ s, OnTrack program s ∧ it.StoppedAt program fault s := by
  rcases Nat.lt_or_ge it.limits.maxProgramLength program.size with hlong | hshort
  · rw [it.run_of_long program hlong] at h
    cases h
    cases hpc
  · obtain ⟨s, hstopped, -⟩ := exists_stoppedAt hshort h
    exact ⟨s, hstopped.reached.onTrack hfree (onTrack_start program it.stack), hstopped⟩

/-- The offset of a fault is a boundary. -/
theorem pc_mem_boundaries (hfree : program.JumpFree) {fault : Fault} {pc : Nat}
    (h : (it.run program).1.result = .error fault) (hpc : fault.pc? = some pc) :
    pc ∈ program.boundaries := by
  obtain ⟨s, hs, hstopped⟩ := exists_stoppedAt_onTrack hfree h hpc
  rw [pc_of_turn_failed hstopped.failed hpc]
  exact hs.mem_boundaries hstopped.inside.2

/-- A push that lacks operands is the one that cuts the listing short. -/
theorem listing_of_insufficientData (hfree : program.JumpFree) {pc : Nat} {opcode : Opcode}
    (h : (it.run program).1.result = .error (.stopped .insufficientData pc opcode)) :
    program.listing = .error ⟨pc⟩ := by
  obtain ⟨s, hs, hstopped⟩ := exists_stoppedAt_onTrack hfree h rfl
  have hfails := (turn_failed_iff hstopped.inside).mp ⟨s.stack, hstopped.failed⟩
  cases hfails with
  | @stopped b _ hlimit hbyte hstops =>
    cases hstops with
    | refused hentry hruns hdeep hrefused =>
      have hmem := hs.mem_boundaries (Array.getElem?_eq_some_iff.mp hbyte).1
      apply Program.listing_of_cut hmem hbyte
      obtain ⟨shape, hshape, hmissing⟩ := hrefused
      unfold Program.behind?
      rw [hshape]
      rcases hmissing with hcount | ⟨n, hcount, -, hlong⟩
      · simp only [hcount]
      · simp only [hcount]
        exact if_neg (Nat.not_le.mpr hlong)

/-- A successful run has charged one step for each instruction fetched. -/
theorem steps_eq_length_fetched {steps : Nat} (h : (it.run program).1.result = .ok steps) :
    steps = (it.fetched program).length := by
  obtain ⟨hshort, -⟩ := it.exists_finished program h
  have hends := (it.ends_run program hshort).follows.2
  rw [h] at hends
  rw [it.fetched_eq_record program, h, it.record_of_short program hshort]
  simp only [unshown, List.append_nil, List.length_map]
  exact hends.1.symm

/-- A run succeeds only behind the last instruction of a complete listing. -/
theorem exists_listing_of_run_ok (hfree : program.JumpFree) {steps : Nat}
    (h : (it.run program).1.result = .ok steps) : ∃ instrs, program.listing = .ok instrs := by
  obtain ⟨-, s, hreached, hlast, -⟩ := it.exists_finished program h
  obtain ⟨q, hq, hlands⟩ := hreached.onTrack hfree (onTrack_start program it.stack)
  rcases hlands with hmem | ⟨-, hlisting⟩
  · have hinside : s.Inside program := by
      refine ⟨by omega, ?_⟩
      rw [hq, Int.toNat_natCast]
      exact Program.lt_size_of_mem_boundaries hmem
    exact absurd hinside (turn_finished hlast)
  · exact hlisting

/-- A run of a program without jumps agrees with the listing of the program.  It fetches from
boundaries in ascending order and fails at a boundary.  Where the listing is complete, it performs
no more instructions than are listed and no push lacks its operands; where the listing is cut short,
the run fails, and if a push lacks its operands, it is the one that the listing reports. -/
theorem run_agrees_with_listing (it : Interpreter) (program : Program) (hfree : program.JumpFree) :
    (∀ pc ∈ it.fetched program, pc ∈ program.boundaries) ∧
    (it.fetched program).Pairwise (· < ·) ∧
    (∀ fault pc, (it.run program).1.result = .error fault → fault.pc? = some pc →
      pc ∈ program.boundaries) ∧
    (∀ instrs, program.listing = .ok instrs →
      program.boundaries = instrs.toList.map (·.offset) ∧
      (it.fetched program).length ≤ instrs.size ∧
      (∀ steps, (it.run program).1.result = .ok steps → steps ≤ instrs.size) ∧
      ∀ pc opcode, (it.run program).1.result ≠ .error (.stopped .insufficientData pc opcode)) ∧
    ∀ t, program.listing = .error t →
      program.boundaries.getLast? = some t.offset ∧
      (∀ steps, (it.run program).1.result ≠ .ok steps) ∧
      ∀ pc opcode, (it.run program).1.result = .error (.stopped .insufficientData pc opcode) →
        pc = t.offset := by
  obtain ⟨hmem, hascending⟩ := it.fetched_ascending hfree
  refine ⟨hmem, hascending, fun fault pc h hpc => pc_mem_boundaries hfree h hpc, ?_, ?_⟩
  · intro instrs hlisting
    have hboundaries := Program.boundaries_of_listing hlisting
    have hle : (it.fetched program).length ≤ instrs.size := by
      have hle := length_fetched_le hmem hascending
      rw [hboundaries, List.length_map, Array.length_toList] at hle
      exact hle
    refine ⟨hboundaries, hle, ?_, ?_⟩
    · intro steps h
      rw [steps_eq_length_fetched h]
      exact hle
    · intro pc opcode h
      cases hlisting.symm.trans (listing_of_insufficientData hfree h)
  · intro t hlisting
    refine ⟨Program.getLast?_boundaries hlisting, ?_, ?_⟩
    · intro steps h
      obtain ⟨instrs, hcomplete⟩ := exists_listing_of_run_ok hfree h
      cases hlisting.symm.trans hcomplete
    · intro pc opcode h
      cases hlisting.symm.trans (listing_of_insufficientData hfree h)
      rfl

/-- Leaves out an arm with a push of the byte of a jump, and ends with a push that is cut short. -/
def skipsOperand : Program :=
  #[0xB0, 0, 0x58, 0xB0, 0x1C, 0x59, 0xB1, 7]

theorem run_agrees_with_listing_skipsOperand :
    skipsOperand.JumpFree ∧ skipsOperand.boundaries = [0, 2, 3, 5, 6] ∧
      skipsOperand.listing = .error ⟨6⟩ ∧
      (∀ pc ∈ (Interpreter.new ⟨8, 4, 9⟩).fetched skipsOperand, pc ∈ [0, 2, 3, 5, 6]) ∧
      ∀ steps, ((Interpreter.new ⟨8, 4, 9⟩).run skipsOperand).1.result ≠ .ok steps := by
  have hboundaries : skipsOperand.boundaries = [0, 2, 3, 5, 6] := by decide +kernel
  have hlisting : skipsOperand.listing = .error ⟨6⟩ := by decide +kernel
  have hfree : skipsOperand.JumpFree := by
    unfold Program.JumpFree
    rw [hboundaries]
    decide +kernel
  obtain ⟨hmem, -, -, -, hcut⟩ :=
    run_agrees_with_listing (Interpreter.new ⟨8, 4, 9⟩) skipsOperand hfree
  rw [hboundaries] at hmem
  exact ⟨hfree, hboundaries, hlisting, hmem, (hcut ⟨6⟩ hlisting).2.1⟩

end Interpreter

end GlyphHint
