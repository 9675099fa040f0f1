import GlyphHint.Proofs.Machine.Effect
import GlyphHint.Proofs.Program.Window
set_option autoImplicit false

/-!
# Pushes are performed as they are listed

The machine reads the operands of a push by their offsets, the reader takes them off a list of
bytes.  From any offset that holds the opcode of a push, operand bytes of another push included,
both find the same values and the same end (`Program.operands_of_holds`).  So what a push does
follows from the instruction that a listing from its offset on starts with (`Program.LeadsWith`), or
else from the truncation that this listing starts with; room on the stack is wanted before operand
bytes.
-/

namespace GlyphHint

/-! ## The first instruction of a program -/

namespace Program

variable {program : Program} {pc n : Nat} {b : UInt8} {i : Instr}

/-- The program starts with the instruction, in its first `n` bytes: these alone are listed as this
one instruction. -/
def LeadsWith (program : Program) (n : Nat) (i : Instr) : Prop :=
  n ≤ program.size ∧ Program.listing (program.take n) = .ok #[i]

theorem leadsWith_iff :
    program.LeadsWith n i ↔
      i.offset = 0 ∧ i.WellFormed ∧ program.Holds 0 i.written ∧ n = i.written.length := by
  have hholds : program.Holds 0 i.written ↔ program.toList.take i.written.length = i.written := by
    rw [holds_iff_extract, Nat.zero_add, ← Array.take_eq_extract, toList_take]
  have hwritten : Listing.written #[i] = program.take n ↔ program.toList.take n = i.written := by
    rw [← Array.toList_inj, toList_take, eq_comm]
    simp [Listing.written]
  rw [LeadsWith, listing_eq_ok_iff, Listing.wellFormed_iff_chained, hwritten, hholds]
  constructor
  · rintro ⟨hfits, ⟨hoffset, hwell, -⟩, hbytes⟩
    have hlength := congrArg List.length hbytes
    rw [List.length_take, Array.length_toList, Nat.min_eq_left hfits] at hlength
    rw [← hlength]
    exact ⟨hoffset, hwell, hbytes, rfl⟩
  · rintro ⟨hoffset, hwell, hbytes, rfl⟩
    have hlength : min i.written.length program.size = i.written.length := by
      rw [← Array.length_toList, ← List.length_take, hbytes]
    exact ⟨by omega, ⟨hoffset, hwell, trivial⟩, hbytes⟩

theorem holds_drop {bytes : List UInt8} :
    Program.Holds (program.drop pc) 0 bytes ↔ program.Holds pc bytes := by
  rw [holds_iff_isPrefix, holds_iff_isPrefix, toList_drop, List.drop_zero]

/-- What the bytes from an offset on start with is held there. -/
theorem leadsWith_drop_iff {vs : List Int32} :
    Program.LeadsWith (program.drop pc) n ⟨0, ⟨b⟩, vs⟩ ↔
      (Instr.mk 0 ⟨b⟩ vs).WellFormed ∧ program.Holds pc (Instr.mk 0 ⟨b⟩ vs).written ∧
        n = (Instr.mk 0 ⟨b⟩ vs).written.length := by
  rw [leadsWith_iff, holds_drop]
  simp

/-- The listing from an offset on breaks off at once if a push that is cut short starts there. -/
theorem listing_drop_eq_error_iff (hbyte : program[pc]? = some b) :
    Program.listing (program.drop pc) = .error ⟨0⟩ ↔ program.CutAt pc := by
  have hfirst : (program.drop pc)[0]? = some b := by
    rw [← Array.getElem?_toList, toList_drop, List.getElem?_drop, Nat.add_zero,
      Array.getElem?_toList, hbyte]
  have hnone : Program.listing ((program.drop pc).take 0) = .ok #[] := by
    have hempty : (program.drop pc).take 0 = #[] := by simp
    rw [hempty]
    exact listingFrom_of_outside (Nat.le_refl 0) #[]
  rw [listing_eq_error_iff, cutAt_iff_takeOperands hfirst, cutAt_iff_takeOperands hbyte,
    toList_drop, List.drop_drop]
  exact and_iff_right ⟨_, hnone⟩

/-- From an offset on a listing starts with an instruction or breaks off at once. -/
theorem leadsWith_or_error (hbyte : program[pc]? = some b) :
    (∃ n vs, Program.LeadsWith (program.drop pc) n ⟨0, ⟨b⟩, vs⟩) ∨
      Program.listing (program.drop pc) = .error ⟨0⟩ := by
  rw [listing_drop_eq_error_iff hbyte, cutAt_iff_behind? hbyte]
  cases hbehind : program.behind? pc ⟨b⟩ with
  | none => exact Or.inr rfl
  | some q =>
    obtain ⟨vs, hwell, hholds, -⟩ := exists_instr_of_behind? hbyte hbehind 0
    exact Or.inl ⟨_, vs, leadsWith_drop_iff.mpr ⟨hwell, hholds, rfl⟩⟩

/-- A complete listing from an offset on has the instruction that the bytes start with. -/
theorem leadsWith_of_listing (hbyte : program[pc]? = some b) {instrs : Array Instr}
    (h : Program.listing (program.drop pc) = .ok instrs) :
    ∃ n vs, Program.LeadsWith (program.drop pc) n ⟨0, ⟨b⟩, vs⟩ ∧
      instrs[0]? = some ⟨0, ⟨b⟩, vs⟩ := by
  obtain ⟨hwell, hwritten⟩ := (listing_eq_ok_iff _ instrs).mp h
  have hbytes : instrs.toList.flatMap Instr.written = program.toList.drop pc := by
    rw [← toList_drop, ← hwritten, Listing.written]
  have hchained := (Listing.wellFormed_iff_chained instrs).mp hwell
  rw [← Array.getElem?_toList]
  rw [drop_of_getElem? hbyte] at hbytes
  cases hinstrs : instrs.toList with
  | nil =>
    rw [hinstrs] at hbytes
    cases hbytes
  | cons i rest =>
    rw [hinstrs] at hbytes hchained
    rw [List.flatMap_cons, i.written_eq_cons, List.cons_append] at hbytes
    obtain ⟨hbyte', hrest⟩ := List.cons.inj hbytes
    obtain ⟨hoffset, hi, -⟩ := hchained
    obtain ⟨offset, ⟨byte⟩, vs⟩ := i
    cases hoffset
    cases hbyte'
    refine ⟨_, vs, leadsWith_drop_iff.mpr ⟨hi, ?_, rfl⟩, rfl⟩
    rw [Instr.written_eq_cons, holds_cons, holds_iff_isPrefix]
    exact ⟨hbyte, _, hrest⟩

/-! ## Operands in place -/

/-- The immediate that is written at an offset is read there. -/
theorem immediate?_of_holds {width : Width} {offset : Nat} {v : Int32} (hv : width.Holds v)
    (hholds : program.Holds offset (Instr.writtenValue width v)) :
    program.immediate? width offset = some v := by
  cases width with
  | byte =>
    obtain ⟨hbyte, -⟩ := hholds
    simp only [immediate?, hbyte, Option.map_some, Immediate.ofByte_lowByte hv]
  | word =>
    obtain ⟨hhigh, hlow, -⟩ := hholds
    simp [immediate?, hhigh, hlow, Immediate.ofWord_bytes hv]

/-- The immediates that are written from an offset on are read there. -/
theorem immediates_of_holds {width : Width} {offset : Nat} {vs : List Int32}
    (hvs : ∀ v ∈ vs, width.Holds v)
    (hholds : program.Holds offset (vs.flatMap (Instr.writtenValue width))) :
    program.immediates width offset vs.length = vs := by
  induction vs generalizing offset with
  | nil => rfl
  | cons v vs ih =>
    obtain ⟨hv, hvs⟩ := List.forall_mem_cons.mp hvs
    rw [List.flatMap_cons, holds_append, Instr.length_writtenValue] at hholds
    rw [List.length_cons, immediates_succ (immediate?_of_holds hv hholds.1), ih hvs hholds.2]

/-- A push in place has the number of values and the values that it is listed with. -/
theorem operands_of_holds {shape : PushShape} (hwell : i.WellFormed)
    (hshape : i.opcode.pushShape? = some shape) (hholds : program.Holds pc i.written) :
    program.pushCount? pc shape = some i.immediates.length ∧
      program.immediates shape.width (pc + shape.headSize) i.immediates.length = i.immediates := by
  obtain ⟨width, count⟩ := shape
  unfold Instr.WellFormed at hwell
  unfold Instr.written at hholds
  rw [hshape] at hwell hholds
  cases count with
  | inline n =>
    obtain ⟨hlength, hvs⟩ := hwell
    exact ⟨congrArg some hlength.symm, immediates_of_holds hvs hholds.2⟩
  | prefixed =>
    obtain ⟨hcount, hvs⟩ := hwell
    obtain ⟨-, hbyte, hvalues⟩ := hholds
    have htoNat : (UInt8.ofNat i.immediates.length).toNat = i.immediates.length :=
      UInt8.toNat_ofNat_of_lt' (Nat.lt_succ_of_le hcount)
    refine ⟨?_, immediates_of_holds hvs hvalues⟩
    simp only [pushCount?, hbyte, Option.map_some, htoNat]

end Program

/-! ## Performing a push -/

namespace Action

variable {program : Program} {pc : Nat} {shape : PushShape} {s : Stack}

/-- With its operands in place a push wants nothing but room. -/
theorem perform_push_of_holds {i : Instr} (hwell : i.WellFormed)
    (hshape : i.opcode.pushShape? = some shape) (hholds : program.Holds pc i.written) :
    (i.immediates.length ≤ s.capacity - s.depth →
      ∃ t, perform program pc (.push shape) s = .ok ((pc + i.written.length : Nat) : Int) t ∧
        t.toList = s.toList ++ i.immediates ∧ t.capacity = s.capacity) ∧
    (s.capacity - s.depth < i.immediates.length →
      perform program pc (.push shape) s = .error .stackOverflow s) := by
  have hdepth := s.depth_le_capacity
  obtain ⟨hcount, hvalues⟩ := Program.operands_of_holds hwell hshape hholds
  have hsize : shape.size i.immediates.length = i.written.length := by
    rw [Instr.length_written, Instr.size, hshape]
  have hfits : pc + i.written.length ≤ program.size := by
    apply hholds.le_size
    rw [i.written_eq_cons]
    exact List.cons_ne_nil _ _
  have hfollows := perform_push_follows program pc shape s
  simp only [Op.effect, hcount, hvalues, hsize, s.length_topFirst, hfits, if_true] at hfollows
  constructor
  · intro hroom
    rw [if_neg (by omega)] at hfollows
    obtain ⟨t, hrun, htop, hcapacity⟩ := hfollows
    refine ⟨t, hrun, ?_, hcapacity⟩
    rw [← Stack.reverse_topFirst, htop, List.reverse_append, List.reverse_reverse,
      Stack.reverse_topFirst]
  · intro hfull
    rw [if_pos (by omega)] at hfollows
    exact hfollows

/-- A push that is cut short is refused: for its room if it has a count that does not fit, and else
for its operands. -/
theorem perform_push_of_cutAt {b : UInt8} (hbyte : program[pc]? = some b)
    (hshape : (Opcode.mk b).pushShape? = some shape) (hcut : program.CutAt pc) :
    (program.pushCount? pc shape = none →
      perform program pc (.push shape) s = .error .insufficientData s) ∧
    ∀ n, program.pushCount? pc shape = some n →
      (n ≤ s.capacity - s.depth →
        perform program pc (.push shape) s = .error .insufficientData s) ∧
      (s.capacity - s.depth < n →
        perform program pc (.push shape) s = .error .stackOverflow s) := by
  have hdepth := s.depth_le_capacity
  have hrefused : ∀ {cause},
      (Op.push shape).effect program pc s.capacity s.topFirst = .error cause →
      perform program pc (.push shape) s = .error cause s :=
    perform_of_effect_error (Nat.zero_le _)
  constructor
  · intro hcount
    apply hrefused
    simp only [Op.effect, hcount]
  · intro n hcount
    have hlong : ¬ pc + shape.size n ≤ program.size := by
      obtain ⟨b', shape', hbyte', hshape', hcut⟩ := hcut
      cases hbyte.symm.trans hbyte'
      cases hshape.symm.trans hshape'
      rcases hcut with hmissing | ⟨n', hcount', hlong⟩
      · cases hcount.symm.trans hmissing
      · cases hcount.symm.trans hcount'
        exact Nat.not_le.mpr hlong
    constructor
    · intro hroom
      apply hrefused
      simp only [Op.effect, hcount, s.length_topFirst]
      rw [if_neg (by omega), if_neg hlong]
    · intro hfull
      apply hrefused
      simp only [Op.effect, hcount, s.length_topFirst]
      rw [if_pos (by omega)]

/-- What a push does is what is listed from its offset on.  If the bytes there start with an
instruction, its values are put on the stack if there is room for them, and control goes on behind
it; if they start with a truncation, the push is refused.  A refused push leaves the stack as it
was. -/
theorem push_follows_listing (program : Program) (pc : Nat) (b : UInt8) (shape : PushShape)
    (hbyte : program[pc]? = some b) (hop : (Opcode.mk b).op? = some (.push shape)) (s : Stack) :
    (∀ n vs, Program.LeadsWith (program.drop pc) n ⟨0, ⟨b⟩, vs⟩ →
      (vs.length ≤ s.capacity - s.depth →
        ∃ t, perform program pc (.push shape) s = .ok ((pc + n : Nat) : Int) t ∧
          t.toList = s.toList ++ vs ∧ t.capacity = s.capacity) ∧
      (s.capacity - s.depth < vs.length →
        perform program pc (.push shape) s = .error .stackOverflow s)) ∧
    (Program.listing (program.drop pc) = .error ⟨0⟩ →
      (program.pushCount? pc shape = none →
        perform program pc (.push shape) s = .error .insufficientData s) ∧
      ∀ n, program.pushCount? pc shape = some n →
        (n ≤ s.capacity - s.depth →
          perform program pc (.push shape) s = .error .insufficientData s) ∧
        (s.capacity - s.depth < n →
          perform program pc (.push shape) s = .error .stackOverflow s)) ∧
    ((∃ n vs, Program.LeadsWith (program.drop pc) n ⟨0, ⟨b⟩, vs⟩) ∨
      Program.listing (program.drop pc) = .error ⟨0⟩) ∧
    ∀ instrs, Program.listing (program.drop pc) = .ok instrs →
      ∃ n vs, Program.LeadsWith (program.drop pc) n ⟨0, ⟨b⟩, vs⟩ ∧
        instrs[0]? = some ⟨0, ⟨b⟩, vs⟩ := by
  have hshape := Opcode.pushShape?_eq_some_iff.mpr hop
  refine ⟨?_, ?_, Program.leadsWith_or_error hbyte, fun _ => Program.leadsWith_of_listing hbyte⟩
  · intro n vs hleads
    obtain ⟨hwell, hholds, rfl⟩ := Program.leadsWith_drop_iff.mp hleads
    exact perform_push_of_holds hwell hshape hholds
  · intro hcut
    exact perform_push_of_cutAt hbyte hshape ((Program.listing_drop_eq_error_iff hbyte).mp hcut)

/-- A push of two bytes, the first of which is the opcode of a push of one word. -/
def pushInPush : Program :=
  #[0x40, 2, 0xB8, 0xFF, 0xFE]

/-- One value with one free slot above it, which holds a value of an earlier run. -/
def oneFree : Stack where
  capacity := 2
  slots := #[5, 7]
  top := 1
  top_le_size := by decide
  size_le_capacity := by decide

/-- The push among the operands puts its word on the stack; both of the outer values do not fit. -/
theorem push_follows_listing_pushInPush :
    pushInPush[2]? = some 0xB8 ∧ (Opcode.mk 0xB8).op? = some (.push ⟨.word, .inline 1⟩) ∧
      Program.LeadsWith (pushInPush.drop 2) 3 ⟨0, ⟨0xB8⟩, [-2]⟩ ∧
      (∃ t, perform pushInPush 2 (.push ⟨.word, .inline 1⟩) oneFree = .ok 5 t ∧
        t.toList = [5, -2]) ∧
      Program.LeadsWith (pushInPush.drop 0) 4 ⟨0, ⟨0x40⟩, [0xB8, 0xFF]⟩ ∧
      perform pushInPush 0 (.push ⟨.byte, .prefixed⟩) oneFree = .error .stackOverflow oneFree := by
  have hword : Program.LeadsWith (pushInPush.drop 2) 3 ⟨0, ⟨0xB8⟩, [-2]⟩ :=
    ⟨by decide, by decide +kernel⟩
  have hbytes : Program.LeadsWith (pushInPush.drop 0) 4 ⟨0, ⟨0x40⟩, [0xB8, 0xFF]⟩ :=
    ⟨by decide, by decide +kernel⟩
  obtain ⟨hinner, -⟩ := push_follows_listing pushInPush 2 0xB8 _ rfl rfl oneFree
  obtain ⟨houter, -⟩ := push_follows_listing pushInPush 0 0x40 _ rfl rfl oneFree
  obtain ⟨t, hrun, hvalues, -⟩ := (hinner 3 [-2] hword).1 (by decide)
  exact ⟨rfl, rfl, hword, ⟨t, hrun, hvalues⟩, hbytes, (houter 4 _ hbytes).2 (by decide)⟩

end Action

end GlyphHint
