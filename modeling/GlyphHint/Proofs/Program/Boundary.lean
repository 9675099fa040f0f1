import GlyphHint.Instr.Listing
import GlyphHint.Proofs.Program.Layout
set_option autoImplicit false

/-!
# Boundaries

A boundary of a program is an offset at which its listing starts an instruction; the push that cuts
a listing short starts at one as well.  The reader takes bytes off a list and never looks at an
offset, while the machine computes the offset behind an instruction.  Both agree
(`Listing.takeOperands_place`), so behind an instruction that starts at a boundary lies the next
boundary or the end of a program with a complete listing (`Program.lands_behind`).
-/

namespace GlyphHint

namespace Program

variable {program : Program} {pc : Nat} {b : UInt8}

theorem drop_of_getElem? (h : program[pc]? = some b) :
    program.toList.drop pc = b :: program.toList.drop (pc + 1) := by
  obtain ⟨hsize, rfl⟩ := Array.getElem?_eq_some_iff.mp h
  exact List.drop_eq_getElem_cons (by simpa using hsize)

theorem drop_of_outside (h : program.size ≤ pc) : program.toList.drop pc = [] :=
  List.drop_eq_nil_of_le (by rw [Array.length_toList]; exact h)

end Program

namespace Listing

/-- The offsets at which the reader starts an instruction in the remaining bytes, the first of which
has the given offset. -/
def starts (offset : Nat) (bytes : List UInt8) : List Nat :=
  match bytes with
  | [] => []
  | byte :: rest =>
    offset ::
      match _taken : takeOperands ⟨byte⟩ rest with
      | none => []
      | some (immediates, tail) => starts (offset + (Instr.mk offset ⟨byte⟩ immediates).size) tail
  termination_by bytes.length
  decreasing_by
    have := length_of_takeOperands _taken
    simp only [List.length_cons]
    omega

section Equations

variable {offset : Nat} {byte : UInt8} {rest tail : List UInt8} {listed : Array Instr}
  {vs : List Int32}

theorem readFrom_cons_of_none (h : takeOperands ⟨byte⟩ rest = none) :
    readFrom offset (byte :: rest) listed = .error ⟨offset⟩ := by
  rw [readFrom.eq_def]
  simp only
  split
  · rfl
  · rename_i hsome
    cases h.symm.trans hsome

theorem readFrom_cons_of_some (h : takeOperands ⟨byte⟩ rest = some (vs, tail)) :
    readFrom offset (byte :: rest) listed =
      readFrom (offset + (Instr.mk offset ⟨byte⟩ vs).size) tail
        (listed.push ⟨offset, ⟨byte⟩, vs⟩) := by
  rw [readFrom.eq_def]
  simp only
  split
  · rename_i hnone
    cases h.symm.trans hnone
  · rename_i hsome
    cases h.symm.trans hsome
    rfl

theorem starts_cons_of_none (h : takeOperands ⟨byte⟩ rest = none) :
    starts offset (byte :: rest) = [offset] := by
  rw [starts.eq_def]
  simp only
  split
  · rfl
  · rename_i hsome
    cases h.symm.trans hsome

theorem starts_cons_of_some (h : takeOperands ⟨byte⟩ rest = some (vs, tail)) :
    starts offset (byte :: rest) =
      offset :: starts (offset + (Instr.mk offset ⟨byte⟩ vs).size) tail := by
  rw [starts.eq_def]
  simp only
  split
  · rename_i hnone
    cases h.symm.trans hnone
  · rename_i hsome
    cases h.symm.trans hsome
    rfl

end Equations

/-- Induction on bytes by the instructions that the reader takes off them. -/
theorem taking_induction {motive : List UInt8 → Prop} (nil : motive [])
    (cut : ∀ byte rest, takeOperands ⟨byte⟩ rest = none → motive (byte :: rest))
    (taken : ∀ byte rest vs tail, takeOperands ⟨byte⟩ rest = some (vs, tail) → motive tail →
      motive (byte :: rest))
    (bytes : List UInt8) : motive bytes := by
  induction hleft : bytes.length using Nat.strongRecOn generalizing bytes with
  | ind left ih =>
    cases bytes with
    | nil => exact nil
    | cons byte rest =>
      cases htaken : takeOperands ⟨byte⟩ rest with
      | none => exact cut byte rest htaken
      | some result =>
        have hshort := length_of_takeOperands htaken
        rw [List.length_cons] at hleft
        exact taken byte rest _ _ htaken (ih result.2.length (by omega) result.2 rfl)

/-! ## The reader and the machine on the end of an instruction -/

/-- One value takes as many bytes as it is wide. -/
theorem takeValues_succ (width : Width) (n : Nat) {bytes : List UInt8}
    (h : width.bytes ≤ bytes.length) :
    ∃ v, takeValues width (n + 1) bytes =
      (takeValues width n (bytes.drop width.bytes)).map fun (vs, tail) => (v :: vs, tail) := by
  match width, bytes, h with
  | .byte, b :: rest, _ => exact ⟨Immediate.ofByte b, rfl⟩
  | .word, hi :: lo :: rest, _ => exact ⟨Immediate.ofWord hi lo, rfl⟩

theorem takeValues_succ_of_short {width : Width} (n : Nat) {bytes : List UInt8}
    (h : bytes.length < width.bytes) : takeValues width (n + 1) bytes = none := by
  match width, bytes, h with
  | .byte, [], _ => rfl
  | .word, [], _ => rfl
  | .word, [hi], _ => rfl

/-- Values are taken off the bytes that their number and width call for, and off no fewer. -/
theorem takeValues_spec (width : Width) (n : Nat) (bytes : List UInt8) :
    match takeValues width n bytes with
    | some (vs, tail) =>
      vs.length = n ∧ width.bytes * n ≤ bytes.length ∧ tail = bytes.drop (width.bytes * n)
    | none => bytes.length < width.bytes * n := by
  induction n generalizing bytes with
  | zero => simp [takeValues]
  | succ n ih =>
    rw [Nat.mul_add, Nat.mul_one]
    by_cases hshort : bytes.length < width.bytes
    · rw [takeValues_succ_of_short n hshort]
      exact Nat.lt_of_lt_of_le hshort (Nat.le_add_left _ _)
    · obtain ⟨v, hsucc⟩ := takeValues_succ width n (Nat.not_lt.mp hshort)
      have hrest := ih (bytes.drop width.bytes)
      rw [hsucc]
      cases htaken : takeValues width n (bytes.drop width.bytes) with
      | none =>
        rw [htaken, List.length_drop] at hrest
        simp only [Option.map_none]
        omega
      | some taken =>
        rw [htaken, List.length_drop, List.drop_drop] at hrest
        obtain ⟨hlength, hfits, htail⟩ := hrest
        refine ⟨by rw [List.length_cons, hlength], by omega, ?_⟩
        rw [htail, Nat.add_comm]

section Place

variable {program : Program} {pc : Nat} {b : UInt8}

/-- The values of a push are taken up to the end of the push, if the program reaches that far. -/
theorem takeValues_place {shape : PushShape} {n : Nat}
    (hshape : (Opcode.mk b).pushShape? = some shape) (hcount : program.pushCount? pc shape = some n)
    (hhead : pc + shape.headSize ≤ program.size) :
    match takeValues shape.width n (program.toList.drop (pc + shape.headSize)) with
    | some (vs, tail) =>
      program.behind? pc ⟨b⟩ = some (pc + (Instr.mk pc ⟨b⟩ vs).size) ∧
        tail = program.toList.drop (pc + (Instr.mk pc ⟨b⟩ vs).size)
    | none => program.behind? pc ⟨b⟩ = none := by
  have hend : pc + shape.headSize + shape.width.bytes * n = pc + shape.size n := Nat.add_assoc _ _ _
  have hspec := takeValues_spec shape.width n (program.toList.drop (pc + shape.headSize))
  unfold Program.behind? Instr.size
  simp only [hshape, hcount]
  cases htaken : takeValues shape.width n (program.toList.drop (pc + shape.headSize)) with
  | none =>
    rw [htaken, List.length_drop, Array.length_toList] at hspec
    exact if_neg (by omega)
  | some taken =>
    rw [htaken, List.length_drop, Array.length_toList, List.drop_drop, hend] at hspec
    obtain ⟨hlength, hfits, htail⟩ := hspec
    simp only [hlength]
    exact ⟨if_pos (by omega), htail⟩

/-- The reader finds an instruction to end where the machine does. -/
theorem takeOperands_place (hbyte : program[pc]? = some b) :
    match takeOperands ⟨b⟩ (program.toList.drop (pc + 1)) with
    | some (vs, tail) =>
      program.behind? pc ⟨b⟩ = some (pc + (Instr.mk pc ⟨b⟩ vs).size) ∧
        tail = program.toList.drop (pc + (Instr.mk pc ⟨b⟩ vs).size)
    | none => program.behind? pc ⟨b⟩ = none := by
  have hinside : pc < program.size := (Array.getElem?_eq_some_iff.mp hbyte).1
  unfold takeOperands
  cases hshape : (Opcode.mk b).pushShape? with
  | none =>
    have hone : ∀ vs, (Instr.mk pc ⟨b⟩ vs).size = 1 := by
      intro vs
      simp only [Instr.size, hshape]
    simp only [hone]
    exact ⟨Program.behind?_of_no_push hshape, trivial⟩
  | some shape =>
    obtain ⟨width, count⟩ := shape
    cases count with
    | inline n => exact takeValues_place hshape rfl hinside
    | prefixed =>
      by_cases hcount : pc + 1 < program.size
      · have hfound : program[pc + 1]? = some program[pc + 1] := Array.getElem?_eq_getElem hcount
        simp only [Program.drop_of_getElem? hfound]
        apply takeValues_place hshape _ hcount
        simp only [Program.pushCount?, hfound, Option.map_some]
      · have hmissing : program[pc + 1]? = none := Array.getElem?_eq_none (Nat.not_lt.mp hcount)
        simp only [Program.drop_of_outside (Nat.not_lt.mp hcount)]
        unfold Program.behind?
        simp only [hshape, Program.pushCount?, hmissing, Option.map_none]

end Place

end Listing

/-! ## The reader at an offset of a program -/

namespace Program

variable {program : Program} {pc q : Nat} {b : UInt8}

/-- Lists the instructions of a program from an offset on. -/
def listingFrom (program : Program) (pc : Nat) (listed : Array Instr) :
    Except Truncation (Array Instr) :=
  Listing.readFrom pc (program.toList.drop pc) listed

/-- The offsets at which the reader starts an instruction from an offset on. -/
def startsFrom (program : Program) (pc : Nat) : List Nat :=
  Listing.starts pc (program.toList.drop pc)

/-- The offsets at which the listing of a program starts an instruction, the offset of a push that
cuts the listing short among them. -/
def boundaries (program : Program) : List Nat :=
  Listing.starts 0 program.toList

theorem listingFrom_of_outside (h : program.size ≤ pc) (listed : Array Instr) :
    program.listingFrom pc listed = .ok listed := by
  unfold listingFrom
  rw [drop_of_outside h, Listing.readFrom.eq_def]

theorem startsFrom_of_outside (h : program.size ≤ pc) : program.startsFrom pc = [] := by
  unfold startsFrom
  rw [drop_of_outside h, Listing.starts.eq_def]

/-- A push that is cut short ends the listing. -/
theorem listingFrom_of_cut (hbyte : program[pc]? = some b) (h : program.behind? pc ⟨b⟩ = none)
    (listed : Array Instr) :
    program.listingFrom pc listed = .error ⟨pc⟩ ∧ program.startsFrom pc = [pc] := by
  have hplace := Listing.takeOperands_place hbyte
  unfold listingFrom startsFrom
  rw [drop_of_getElem? hbyte]
  cases htaken : Listing.takeOperands ⟨b⟩ (program.toList.drop (pc + 1)) with
  | none => exact ⟨Listing.readFrom_cons_of_none htaken, Listing.starts_cons_of_none htaken⟩
  | some taken =>
    rw [htaken, h] at hplace
    cases hplace.1

/-- Any other instruction is listed with its offset, and the reader goes on behind it. -/
theorem listingFrom_of_behind (hbyte : program[pc]? = some b)
    (h : program.behind? pc ⟨b⟩ = some q) (listed : Array Instr) :
    (∃ instr : Instr, instr.offset = pc ∧
      program.listingFrom pc listed = program.listingFrom q (listed.push instr)) ∧
    program.startsFrom pc = pc :: program.startsFrom q := by
  have hplace := Listing.takeOperands_place hbyte
  unfold listingFrom startsFrom
  rw [drop_of_getElem? hbyte]
  cases htaken : Listing.takeOperands ⟨b⟩ (program.toList.drop (pc + 1)) with
  | none =>
    rw [htaken, h] at hplace
    cases hplace
  | some taken =>
    obtain ⟨vs, tail⟩ := taken
    rw [htaken, h] at hplace
    obtain ⟨hend, htail⟩ := hplace
    have hq : q = pc + (Instr.mk pc ⟨b⟩ vs).size := Option.some.inj hend
    rw [hq, ← htail]
    exact ⟨⟨_, rfl, Listing.readFrom_cons_of_some htaken⟩, Listing.starts_cons_of_some htaken⟩

/-! ## Boundaries -/

/-- What holds outside of a program, at a push that is cut short and, if it holds behind an
instruction, at the instruction holds everywhere. -/
theorem reading_induction {P : Nat → Prop} (program : Program)
    (outside : ∀ pc, program.size ≤ pc → P pc)
    (cut : ∀ pc b, program[pc]? = some b → program.behind? pc ⟨b⟩ = none → P pc)
    (behind : ∀ pc b q, program[pc]? = some b → program.behind? pc ⟨b⟩ = some q → P q → P pc)
    (pc : Nat) : P pc := by
  induction hleft : program.size - pc using Nat.strongRecOn generalizing pc with
  | ind left ih =>
    by_cases hsize : pc < program.size
    · have hbyte : program[pc]? = some program[pc] := Array.getElem?_eq_getElem hsize
      cases hbehind : program.behind? pc ⟨program[pc]⟩ with
      | none => exact cut pc _ hbyte hbehind
      | some q =>
        have hlt := lt_of_behind? hbehind
        exact behind pc _ q hbyte hbehind (ih (program.size - q) (by omega) q rfl)
    · exact outside pc (Nat.not_lt.mp hsize)

/-- The reader starts an instruction wherever it comes to a byte. -/
theorem mem_startsFrom_self (h : pc < program.size) : pc ∈ program.startsFrom pc := by
  have hbyte : program[pc]? = some program[pc] := Array.getElem?_eq_getElem h
  cases hbehind : program.behind? pc ⟨program[pc]⟩ with
  | none => simp [(listingFrom_of_cut hbyte hbehind #[]).2]
  | some q => simp [(listingFrom_of_behind hbyte hbehind #[]).2]

theorem lt_size_of_mem_startsFrom (pc : Nat) : ∀ x ∈ program.startsFrom pc, x < program.size := by
  induction pc using reading_induction program with
  | outside pc h => simp [startsFrom_of_outside h]
  | cut pc b hbyte h =>
    rw [(listingFrom_of_cut hbyte h #[]).2]
    intro x hx
    rw [List.mem_singleton.mp hx]
    exact (Array.getElem?_eq_some_iff.mp hbyte).1
  | behind pc b q hbyte h ih =>
    rw [(listingFrom_of_behind hbyte h #[]).2]
    intro x hx
    rcases List.mem_cons.mp hx with rfl | hx
    · exact (Array.getElem?_eq_some_iff.mp hbyte).1
    · exact ih x hx

/-- Behind an instruction that the reader starts it starts the next one, or it has come to the end
of the program and the listing is complete. -/
theorem behind_mem_startsFrom (pc : Nat) (listed : Array Instr) :
    ∀ x ∈ program.startsFrom pc, ∀ b q, program[x]? = some b → program.behind? x ⟨b⟩ = some q →
      q ∈ program.startsFrom pc ∨
        (q = program.size ∧ ∃ instrs, program.listingFrom pc listed = .ok instrs) := by
  induction pc using reading_induction program generalizing listed with
  | outside pc h => simp [startsFrom_of_outside h]
  | cut pc b hbyte h =>
    rw [(listingFrom_of_cut hbyte h listed).2]
    intro x hx b' q hbyte' hbehind
    rw [List.mem_singleton.mp hx, hbyte] at hbyte'
    rw [List.mem_singleton.mp hx, ← Option.some.inj hbyte', h] at hbehind
    cases hbehind
  | behind pc b q hbyte h ih =>
    obtain ⟨⟨instr, -, hlisting⟩, hstarts⟩ := listingFrom_of_behind hbyte h listed
    rw [hstarts, hlisting]
    intro x hx b' q' hbyte' hbehind
    rcases List.mem_cons.mp hx with rfl | hx
    · rw [hbyte] at hbyte'
      cases Option.some.inj hbyte'
      cases Option.some.inj (h.symm.trans hbehind)
      rcases Nat.lt_or_eq_of_le (behind?_le_size hbyte h) with hlt | hend
      · exact Or.inl (List.mem_cons_of_mem _ (mem_startsFrom_self hlt))
      · exact Or.inr ⟨hend, _, listingFrom_of_outside (Nat.le_of_eq hend.symm) _⟩
    · rcases ih (listed.push instr) x hx b' q' hbyte' hbehind with hmem | hend
      · exact Or.inl (List.mem_cons_of_mem _ hmem)
      · exact Or.inr hend

/-- An instruction that the reader starts and that has no end cuts the listing short. -/
theorem cut_of_mem_startsFrom (pc : Nat) (listed : Array Instr) :
    ∀ x ∈ program.startsFrom pc, ∀ b, program[x]? = some b → program.behind? x ⟨b⟩ = none →
      program.listingFrom pc listed = .error ⟨x⟩ := by
  induction pc using reading_induction program generalizing listed with
  | outside pc h => simp [startsFrom_of_outside h]
  | cut pc b hbyte h =>
    rw [(listingFrom_of_cut hbyte h listed).2, (listingFrom_of_cut hbyte h listed).1]
    intro x hx _ _ _
    rw [List.mem_singleton.mp hx]
  | behind pc b q hbyte h ih =>
    obtain ⟨⟨instr, -, hlisting⟩, hstarts⟩ := listingFrom_of_behind hbyte h listed
    rw [hstarts, hlisting]
    intro x hx b' hbyte' hbehind
    rcases List.mem_cons.mp hx with rfl | hx
    · rw [hbyte] at hbyte'
      rw [← Option.some.inj hbyte', h] at hbehind
      cases hbehind
    · exact ih (listed.push instr) x hx b' hbyte' hbehind

/-- A complete listing has the instructions that the reader has started. -/
theorem offsets_of_listingFrom (pc : Nat) {listed instrs : Array Instr}
    (h : program.listingFrom pc listed = .ok instrs) :
    instrs.toList.map (·.offset) = listed.toList.map (·.offset) ++ program.startsFrom pc := by
  induction pc using reading_induction program generalizing listed with
  | outside pc hsize =>
    rw [listingFrom_of_outside hsize] at h
    rw [startsFrom_of_outside hsize, List.append_nil, Except.ok.inj h]
  | cut pc b hbyte hcut =>
    rw [(listingFrom_of_cut hbyte hcut listed).1] at h
    cases h
  | behind pc b q hbyte hbehind ih =>
    obtain ⟨⟨instr, hoffset, hlisting⟩, hstarts⟩ := listingFrom_of_behind hbyte hbehind listed
    rw [hlisting] at h
    rw [ih h, hstarts, Array.toList_push, List.map_append, List.map_singleton, hoffset,
      List.append_assoc, List.singleton_append]

/-- A listing that is cut short is cut by the last instruction that the reader has started. -/
theorem getLast?_of_listingFrom (pc : Nat) {listed : Array Instr} {t : Truncation}
    (h : program.listingFrom pc listed = .error t) :
    (program.startsFrom pc).getLast? = some t.offset := by
  induction pc using reading_induction program generalizing listed with
  | outside pc hsize =>
    rw [listingFrom_of_outside hsize] at h
    cases h
  | cut pc b hbyte hcut =>
    rw [(listingFrom_of_cut hbyte hcut listed).1] at h
    cases h
    rw [(listingFrom_of_cut hbyte hcut listed).2]
    rfl
  | behind pc b q hbyte hbehind ih =>
    obtain ⟨⟨instr, -, hlisting⟩, hstarts⟩ := listingFrom_of_behind hbyte hbehind listed
    rw [hlisting] at h
    rw [hstarts, List.getLast?_cons, ih h]
    rfl

/-- Control may come to the offset without having left the instructions: it is a boundary, or the
end of a program with a complete listing. -/
def Lands (program : Program) (q : Nat) : Prop :=
  q ∈ program.boundaries ∨ (q = program.size ∧ ∃ instrs, program.listing = .ok instrs)

theorem lands_zero (program : Program) : program.Lands 0 := by
  by_cases hsize : 0 < program.size
  · exact Or.inl (mem_startsFrom_self hsize)
  · have hend : program.size ≤ 0 := Nat.not_lt.mp hsize
    exact Or.inr ⟨(Nat.le_zero.mp hend).symm, _, listingFrom_of_outside hend #[]⟩

/-- In the program control lands on boundaries only. -/
theorem Lands.mem_boundaries (h : program.Lands q) (hsize : q < program.size) :
    q ∈ program.boundaries := by
  rcases h with hmem | ⟨hend, -⟩
  · exact hmem
  · omega

theorem lt_size_of_mem_boundaries (h : pc ∈ program.boundaries) : pc < program.size :=
  lt_size_of_mem_startsFrom 0 pc h

/-- Control lands behind an instruction that starts at a boundary. -/
theorem lands_behind (h : pc ∈ program.boundaries) (hbyte : program[pc]? = some b)
    (hbehind : program.behind? pc ⟨b⟩ = some q) : program.Lands q :=
  behind_mem_startsFrom 0 #[] pc h b q hbyte hbehind

/-- An instruction at a boundary that has no end is the one that cuts the listing short. -/
theorem listing_of_cut (h : pc ∈ program.boundaries) (hbyte : program[pc]? = some b)
    (hcut : program.behind? pc ⟨b⟩ = none) : program.listing = .error ⟨pc⟩ :=
  cut_of_mem_startsFrom 0 #[] pc h b hbyte hcut

/-- The boundaries of a program with a complete listing are the offsets listed. -/
theorem boundaries_of_listing {instrs : Array Instr} (h : program.listing = .ok instrs) :
    program.boundaries = instrs.toList.map (·.offset) :=
  (offsets_of_listingFrom 0 h).symm

/-- The last boundary of a program without a listing is the offset reported. -/
theorem getLast?_boundaries {t : Truncation} (h : program.listing = .error t) :
    program.boundaries.getLast? = some t.offset :=
  getLast?_of_listingFrom 0 h

end Program

end GlyphHint
