import GlyphHint.Proofs.Branch.Scan
import GlyphHint.Proofs.Machine.Guard
import GlyphHint.Proofs.Program.Window
set_option autoImplicit false

/-!
# Ends of arms are matching brackets

An IF opens a bracket and an EIF closes one.  The scan for the end of an arm counts brackets while
it walks over the bytes of a program, and it steps over operands by itself.  Here the end of an arm
is said of a listing instead: the bytes between the start of the arm and its end have a listing, the
brackets of this listing balance and none of them closes too early, and no ELSE stands at nesting 0
where the arm might have ended at it (`Branch.EndsArm`).  The scan finds an offset exactly if it is
such an end (`Branch.matching?_eq_some_iff`).
-/

namespace GlyphHint

namespace Branch

/-- The number of conditionals that the instructions open, less the number that they close. -/
def nesting : List Instr → Int
  | [] => 0
  | i :: rest => i.opcode.weight + nesting rest

/-- With `m` conditionals open before them, the instructions close all that are open and never more
than that; and where an arm may end at an ELSE, none of them is an ELSE at nesting 0. -/
structure Balanced (stopAtElse : Bool) (m : Int) (instrs : List Instr) : Prop where
  closed : m + nesting instrs = 0
  nonneg : ∀ before, before <+: instrs → 0 ≤ m + nesting before
  noElse : stopAtElse = true → ∀ before i, before ++ [i] <+: instrs → i.opcode.byte = 0x1B →
    m + nesting before ≠ 0

/-- The arm that opens at `start` ends at `k`: an instruction that may end the arm stands there, and
the bytes between the two have a listing, which is balanced. -/
structure EndsArm (program : Program) (start : Nat) (stopAtElse : Bool) (k : Nat) : Prop where
  behind : start < k
  inside : k < program.size
  mark : ∃ b, program[k]? = some b ∧ Marks stopAtElse b
  arm : ∃ instrs, Program.listing (program.extract (start + 1) k) = .ok instrs ∧
    Balanced stopAtElse 0 instrs.toList

/-! ## Balanced instructions, one at a time -/

section Balanced

variable {stopAtElse : Bool} {m : Int} {i : Instr} {instrs : List Instr}

@[simp] theorem nesting_nil : nesting [] = 0 := rfl

@[simp] theorem nesting_cons : nesting (i :: instrs) = i.opcode.weight + nesting instrs := rfl

theorem Balanced.nonneg_start (h : Balanced stopAtElse m instrs) : 0 ≤ m := by
  simpa using h.nonneg [] List.nil_prefix

theorem balanced_nil : Balanced stopAtElse m [] ↔ m = 0 := by
  constructor
  · intro h
    simpa using h.closed
  · rintro rfl
    exact ⟨by simp, by simp, by simp⟩

theorem balanced_cons :
    Balanced stopAtElse m (i :: instrs) ↔
      0 ≤ m ∧ (stopAtElse = true → i.opcode.byte = 0x1B → m ≠ 0) ∧
        Balanced stopAtElse (m + i.opcode.weight) instrs := by
  have hassoc : ∀ before,
      m + i.opcode.weight + nesting before = m + nesting (i :: before) := by
    intro before
    rw [nesting_cons, Int.add_assoc]
  constructor
  · intro h
    refine ⟨h.nonneg_start, ?_, ?_, ?_, ?_⟩
    · intro hstop helse
      simpa using h.noElse hstop [] i (by simp) helse
    · rw [hassoc]
      exact h.closed
    · intro before hbefore
      rw [hassoc]
      exact h.nonneg _ (List.cons_prefix_cons.mpr ⟨rfl, hbefore⟩)
    · intro hstop before j hbefore helse
      rw [hassoc]
      exact h.noElse hstop _ j (List.cons_prefix_cons.mpr ⟨rfl, hbefore⟩) helse
  · rintro ⟨hnonneg, hfirst, hrest⟩
    refine ⟨?_, ?_, ?_⟩
    · rw [← hassoc]
      exact hrest.closed
    · rintro (_ | ⟨j, before⟩) hbefore
      · simpa using hnonneg
      · obtain ⟨rfl, hlater⟩ := List.cons_prefix_cons.mp hbefore
        rw [← hassoc]
        exact hrest.nonneg before hlater
    · rintro hstop (_ | ⟨j, before⟩) e hbefore helse
      · obtain ⟨rfl, -⟩ := List.cons_prefix_cons.mp hbefore
        simpa using hfirst hstop helse
      · obtain ⟨rfl, hlater⟩ := List.cons_prefix_cons.mp hbefore
        rw [← hassoc]
        exact hrest.noElse hstop before e hlater helse

end Balanced

/-! ## The scan, one instruction at a time -/

section Scan

variable {program : Program} {stopAtElse : Bool} {pc m k : Nat} {b : UInt8}

/-- An opcode that the machine does not run is one byte to the scan. -/
theorem scan_of_no_op (hbyte : program[pc]? = some b) (hop : (Opcode.mk b).op? = none) :
    scan program stopAtElse pc m = scan program stopAtElse (pc + 1) m :=
  scan_single hbyte (by simp [hop]) (by simp [hop]) (by simp [hop]) (by simp [hop])

/-- Over balanced instructions in place the scan comes to the mark behind them. -/
theorem scan_of_balanced {instrs : List Instr} (hwell : ∀ i ∈ instrs, i.WellFormed)
    (hholds : program.Holds pc (instrs.flatMap Instr.written))
    (hbalanced : Balanced stopAtElse m instrs)
    (hbyte : program[pc + (instrs.flatMap Instr.written).length]? = some b)
    (hmark : Marks stopAtElse b) :
    scan program stopAtElse pc m = some (pc + (instrs.flatMap Instr.written).length) := by
  induction instrs generalizing pc m with
  | nil =>
    have hzero : m = 0 := Int.natCast_eq_zero.mp (balanced_nil.mp hbalanced)
    rw [List.flatMap_nil, List.length_nil, Nat.add_zero] at hbyte ⊢
    rw [scan_eq_stride hbyte, if_pos ⟨hzero, hmark⟩]
  | cons i rest ih =>
    obtain ⟨hi, hrest⟩ := List.forall_mem_cons.mp hwell
    obtain ⟨-, helse, hbalanced⟩ := balanced_cons.mp hbalanced
    rw [List.flatMap_cons, Program.holds_append] at hholds
    rw [List.flatMap_cons, List.length_append, ← Nat.add_assoc] at hbyte ⊢
    have hfirst : program[pc]? = some i.opcode.byte := by
      have hhead := hholds.1
      rw [i.written_eq_cons] at hhead
      exact hhead.1
    have hnonneg : 0 ≤ m + i.opcode.weight := hbalanced.nonneg_start
    -- An EIF where no conditional is open would take the nesting below 0.
    have hnot : ¬ (m = 0 ∧ Marks stopAtElse i.opcode.byte) := by
      rintro ⟨rfl, hend | ⟨hstop, hmarked⟩⟩
      · simp [Opcode.weight, hend] at hnonneg
      · exact helse hstop hmarked rfl
    rw [scan_eq_stride hfirst, if_neg hnot, Instr.WellFormed.behind? hi hholds.1, Option.bind_some]
    apply ih hrest hholds.2 _ hbyte
    rw [Int.toNat_of_nonneg hnonneg]
    exact hbalanced

/-- Where the scan goes on, no more conditionals are closed than are open. -/
theorem nonneg_of_not_ended (h : ¬ (m = 0 ∧ Marks stopAtElse b)) :
    0 ≤ m + (Opcode.mk b).weight := by
  unfold Opcode.weight
  split
  · omega
  · split
    · rename_i hend
      have hopen : m ≠ 0 := fun hzero => h ⟨hzero, Or.inl hend⟩
      omega
    · omega

/-- The instructions between the start of a scan and the offset that it finds are balanced. -/
theorem exists_balanced_of_scan (pc : Nat) (h : scan program stopAtElse pc m = some k)
    (offset : Nat) :
    ∃ instrs b, Listing.Chained offset instrs ∧
      program.Holds pc (instrs.flatMap Instr.written) ∧
      k = pc + (instrs.flatMap Instr.written).length ∧
      program[k]? = some b ∧ Marks stopAtElse b ∧ Balanced stopAtElse m instrs := by
  induction pc using Program.reading_induction program generalizing m offset with
  | outside pc hsize =>
    rw [scan_of_outside hsize] at h
    cases h
  | cut pc b hbyte hcut =>
    rw [scan_eq_stride hbyte, hcut] at h
    split at h
    · rename_i hended
      obtain ⟨rfl, hmark⟩ := hended
      cases h
      exact ⟨[], b, trivial, trivial, rfl, hbyte, hmark, balanced_nil.mpr rfl⟩
    · cases h
  | behind pc b q hbyte hbehind ih =>
    rw [scan_eq_stride hbyte, hbehind, Option.bind_some] at h
    split at h
    · rename_i hended
      obtain ⟨rfl, hmark⟩ := hended
      cases h
      exact ⟨[], b, trivial, trivial, rfl, hbyte, hmark, balanced_nil.mpr rfl⟩
    · rename_i hended
      obtain ⟨vs, hwell, hholds, hq⟩ := Program.exists_instr_of_behind? hbyte hbehind offset
      obtain ⟨rest, c, hchained, hrest, hk, hc, hmark, hbalanced⟩ :=
        ih h (offset + (Instr.mk offset ⟨b⟩ vs).written.length)
      rw [Int.toNat_of_nonneg (nonneg_of_not_ended hended)] at hbalanced
      refine ⟨⟨offset, ⟨b⟩, vs⟩ :: rest, c, ⟨rfl, hwell, hchained⟩, ?_, ?_, hc, hmark, ?_⟩
      · rw [List.flatMap_cons, Program.holds_append, ← hq]
        exact ⟨hholds, hrest⟩
      · rw [List.flatMap_cons, List.length_append, ← Nat.add_assoc, ← hq]
        exact hk
      · refine balanced_cons.mpr ⟨Int.natCast_nonneg m, ?_, hbalanced⟩
        rintro hstop helse hzero
        exact hended ⟨Int.natCast_eq_zero.mp hzero, Or.inr ⟨hstop, helse⟩⟩

end Scan

/-! ## The end of an arm -/

section Ends

variable {program : Program} {start k : Nat} {stopAtElse : Bool}

theorem endsArm_of_matching? (h : matching? program start stopAtElse = some k) :
    EndsArm program start stopAtElse k := by
  obtain ⟨instrs, b, hchained, hholds, hk, hbyte, hmark, hbalanced⟩ :=
    exists_balanced_of_scan (start + 1) h 0
  refine ⟨by omega, (Array.getElem?_eq_some_iff.mp hbyte).1, ⟨b, hbyte, hmark⟩,
    instrs.toArray, ?_, hbalanced⟩
  rw [Program.listing_eq_ok_iff, Listing.wellFormed_iff_chained]
  refine ⟨hchained, ?_⟩
  rw [hk, ← Array.toList_inj, Program.holds_iff_extract.mp hholds]
  rfl

theorem EndsArm.matching?_eq (h : EndsArm program start stopAtElse k) :
    matching? program start stopAtElse = some k := by
  obtain ⟨b, hbyte, hmark⟩ := h.mark
  obtain ⟨instrs, hlisting, hbalanced⟩ := h.arm
  have hbehind := h.behind
  have hinside := h.inside
  obtain ⟨hwell, hwritten⟩ := (Program.listing_eq_ok_iff _ instrs).mp hlisting
  have hlength : (instrs.toList.flatMap Instr.written).length = k - (start + 1) := by
    have hsize := congrArg Array.size hwritten
    rw [Array.size_extract, Listing.written, List.size_toArray] at hsize
    omega
  have hk : start + 1 + (instrs.toList.flatMap Instr.written).length = k := by omega
  have hholds : program.Holds (start + 1) (instrs.toList.flatMap Instr.written) := by
    rw [Program.holds_iff_extract, hk, ← hwritten, Listing.written]
  have heach : ∀ i ∈ instrs.toList, i.WellFormed :=
    fun i hi => hwell.each i (Array.mem_toList_iff.mp hi)
  have hfound := scan_of_balanced (m := 0) heach hholds hbalanced (by rw [hk]; exact hbyte) hmark
  rw [hk] at hfound
  exact hfound

/-- The scan finds an offset exactly if the arm ends there. -/
theorem matching?_eq_some_iff :
    matching? program start stopAtElse = some k ↔ EndsArm program start stopAtElse k :=
  ⟨endsArm_of_matching?, EndsArm.matching?_eq⟩

theorem matching?_eq_none_iff :
    matching? program start stopAtElse = none ↔ ∀ k, ¬ EndsArm program start stopAtElse k := by
  simp only [Option.eq_none_iff_forall_ne_some, ne_eq, matching?_eq_some_iff]

end Ends

/-! ## Arms without an end -/

/-- On this stack the machine looks for the end of the arm behind the byte: behind an ELSE, which
may not end at another one, and behind an IF that leaves its arm out. -/
def Seeks (b : UInt8) (stack : Stack) (stopAtElse : Bool) : Prop :=
  b = 0x1B ∧ stopAtElse = false ∨ b = 0x58 ∧ stopAtElse = true ∧ stack.peek? 0 = some 0

section Endless

variable {program : Program} {start : Nat} {stopAtElse : Bool}

/-- An instruction that looks for the end of its arm in vain fails at its own offset. -/
theorem turn_of_no_match {limit : Nat} {s : Machine.State} {b : UInt8} (hpc : 0 ≤ s.pc)
    (hbyte : program[s.pc.toNat]? = some b) (hlimit : s.steps + 1 < limit)
    (hseeks : Seeks b s.stack stopAtElse)
    (hnone : matching? program s.pc.toNat stopAtElse = none) :
    Machine.turn program limit s = .failed (.stopped .unbalanced s.pc.toNat ⟨b⟩) s.stack := by
  have hfails : ∀ op : Op, (Opcode.mk b).op? = some op → op.pops ≤ s.stack.depth →
      op.Refused program s.pc.toNat s.stack .unbalanced →
      Machine.turn program limit s = .failed (.stopped .unbalanced s.pc.toNat ⟨b⟩) s.stack := by
    intro op hop hdeep hrefused
    have heffect := (op.refused_iff_effect program s.pc.toNat hdeep .unbalanced).mp hrefused
    rw [Machine.turn_of_op hpc hbyte hlimit hop hdeep,
      Action.perform_of_effect_error hdeep heffect]
  rcases hseeks with ⟨rfl, rfl⟩ | ⟨rfl, rfl, htop⟩
  · exact hfails .elseArm ((Opcode.op?_eq_some_iff rfl).mpr rfl) (Nat.zero_le _) ⟨rfl, hnone⟩
  · have hdeep : 1 ≤ s.stack.depth := by
      rw [Stack.peek?_eq_topFirst] at htop
      rw [← Stack.length_topFirst]
      exact (List.getElem?_eq_some_iff.mp htop).1
    exact hfails .ifNonzero ((Opcode.op?_eq_some_iff rfl).mpr rfl) hdeep ⟨rfl, htop, hnone⟩

/-- The arm that opens at `start` has no end: the scan for it stops there as unbalanced, and an
instruction that looks for the end of this arm fails with its own offset. -/
structure Endless (program : Program) (start : Nat) (stopAtElse : Bool) : Prop where
  unmatched : matching? program start stopAtElse = none
  stops : ∀ stack,
    Action.endOfArm program start stopAtElse stack = .error .unbalanced stack
  fails : ∀ (limit : Nat) (s : Machine.State) (b : UInt8), s.pc = start →
    program[start]? = some b → s.steps + 1 < limit → Seeks b s.stack stopAtElse →
      Machine.turn program limit s = .failed (.stopped .unbalanced start ⟨b⟩) s.stack

theorem endless_of_unmatched (h : matching? program start stopAtElse = none) :
    Endless program start stopAtElse := by
  refine ⟨h, ?_, ?_⟩
  · intro stack
    unfold Action.endOfArm
    rw [h]
    rfl
  · intro limit s b hpc hbyte hlimit hseeks
    have hstart : s.pc.toNat = start := by rw [hpc, Int.toNat_natCast]
    rw [← hstart] at hbyte h ⊢
    exact turn_of_no_match (by omega) hbyte hlimit hseeks h

end Endless

/-! ## Main result -/

/-- The end of an arm is its matching bracket.  The scan finds an offset exactly if the bytes from
the start up to it have a balanced listing and an instruction that may end the arm stands there.  If
there is no such offset, it finds none, and the IF or ELSE that asked for it fails as unbalanced at
its own offset.  Bytes that the machine does not run are stepped over one at a time. -/
theorem arm_ends_at_matching_bracket (program : Program) (start : Nat) (stopAtElse : Bool) :
    (∀ k, matching? program start stopAtElse = some k ↔ EndsArm program start stopAtElse k) ∧
    ((∀ k, ¬ EndsArm program start stopAtElse k) →
      matching? program start stopAtElse = none ∧
      (∀ stack, Action.endOfArm program start stopAtElse stack = .error .unbalanced stack) ∧
      ∀ (limit : Nat) (s : Machine.State) (b : UInt8), s.pc = start → program[start]? = some b →
        s.steps + 1 < limit → Seeks b s.stack stopAtElse →
        Machine.turn program limit s = .failed (.stopped .unbalanced start ⟨b⟩) s.stack) ∧
    ∀ (pc m : Nat) (b : UInt8), program[pc]? = some b → (Opcode.mk b).op? = none →
      scan program stopAtElse pc m = scan program stopAtElse (pc + 1) m := by
  refine ⟨fun k => matching?_eq_some_iff, ?_, fun pc m b => scan_of_no_op⟩
  intro hnowhere
  have hendless := endless_of_unmatched (matching?_eq_none_iff.mpr hnowhere)
  exact ⟨hendless.unmatched, hendless.stops, hendless.fails⟩

/-- A conditional with an arm for each case.  The first arm has a byte that is no instruction, and a
conditional that holds an ELSE and pushes the byte of an EIF. -/
def lookalikeArms : Program :=
  #[0x58, 0x28, 0x58, 0xB0, 0x59, 0x1B, 0x59, 0x1B, 0x59]

/-- A conditional whose arm ends with a push that is cut short. -/
def shortArm : Program :=
  #[0x58, 0xB1, 0x59]

theorem arm_ends_at_matching_bracket_lookalikes :
    EndsArm lookalikeArms 0 true 7 ∧ EndsArm lookalikeArms 0 false 8 ∧
      scan lookalikeArms true 1 0 = scan lookalikeArms true 2 0 ∧
      (∀ k, ¬ EndsArm shortArm 0 true k) ∧
      Machine.turn shortArm 9 ⟨0, 0, ⟨1, #[0], 1, by decide, by decide⟩⟩ =
        .failed (.stopped .unbalanced 0 ⟨0x58⟩) ⟨1, #[0], 1, by decide, by decide⟩ := by
  have htrue : matching? lookalikeArms 0 true = some 7 := by decide +kernel
  have hfalse : matching? lookalikeArms 0 false = some 8 := by decide +kernel
  have hshort : matching? shortArm 0 true = none := by decide +kernel
  obtain ⟨hiff, -, hone⟩ := arm_ends_at_matching_bracket lookalikeArms 0 true
  obtain ⟨hiff', -, -⟩ := arm_ends_at_matching_bracket lookalikeArms 0 false
  obtain ⟨-, hunbalanced, -⟩ := arm_ends_at_matching_bracket shortArm 0 true
  have hnowhere : ∀ k, ¬ EndsArm shortArm 0 true k := matching?_eq_none_iff.mp hshort
  obtain ⟨-, -, hturn⟩ := hunbalanced hnowhere
  exact ⟨(hiff 7).mp htrue, (hiff' 8).mp hfalse, hone 1 0 0x28 rfl rfl, hnowhere,
    hturn 9 _ 0x58 rfl rfl (by decide) (Or.inr ⟨rfl, rfl, rfl⟩)⟩

end Branch

end GlyphHint
