import GlyphHint.Proofs.Program.Boundary
import Mathlib.Data.List.Basic
set_option autoImplicit false

/-!
# Listings and their written form

Listing a program and writing its instructions back are inverse to each other.  An instruction is
well formed if it has the values that its opcode asks for and each of them fits its width, and a
listing if its instructions are and each of them starts where those before it end.

Any bytes split into the written form of well-formed instructions and a rest that is empty or starts
with a push that is cut short (`Listing.exists_split`), and the reader follows every such split
(`Listing.readFrom_written`).  So a program is listed as the one well-formed listing that it is the
written form of, if there is one, and else the push that is cut short is reported
(`Program.listing_exact`).
-/

namespace GlyphHint

/-! ## Values and their bytes -/

/-- The values that one immediate of a width can have. -/
def Width.Holds (width : Width) (v : Int32) : Prop :=
  match width with
  | .byte => 0 ≤ v.toInt ∧ v.toInt ≤ 255
  | .word => -32768 ≤ v.toInt ∧ v.toInt ≤ 32767

namespace Immediate

theorem toInt_ofByte (b : UInt8) : (ofByte b).toInt = b.toNat := by
  have hlt : b.toNat < 256 := b.toNat_lt
  have hcond : (ofByte b).toInt =
      if 2 * b.toUInt32.toNat < 2 ^ 32 then (b.toUInt32.toNat : Int)
      else b.toUInt32.toNat - (2 ^ 32 : Nat) :=
    BitVec.toInt_eq_toNat_cond b.toUInt32.toBitVec
  rw [hcond, UInt8.toNat_toUInt32, if_pos (by omega)]

/-- The two bytes of a word read as a two's complement number. -/
theorem toInt_ofWord (hi lo : UInt8) :
    (ofWord hi lo).toInt =
      if hi.toNat < 128 then (hi.toNat * 256 + lo.toNat : Int)
      else hi.toNat * 256 + lo.toNat - 65536 := by
  have hhi : hi.toNat < 256 := hi.toNat_lt
  have hlo : lo.toNat < 256 := lo.toNat_lt
  have hword : (hi.toUInt16 <<< 8 ||| lo.toUInt16).toNat = hi.toNat * 256 + lo.toNat := by
    have hshift : (8 : UInt16).toNat % 16 = 8 := rfl
    rw [UInt16.toNat_or, UInt16.toNat_shiftLeft, UInt8.toNat_toUInt16, UInt8.toNat_toUInt16, hshift,
      Nat.mod_eq_of_lt (by rw [Nat.shiftLeft_eq]; omega),
      ← Nat.shiftLeft_add_eq_or_of_lt (by omega), Nat.shiftLeft_eq]
  have hcond : (ofWord hi lo).toInt =
      if 2 * (hi.toUInt16 <<< 8 ||| lo.toUInt16).toNat < 2 ^ 16 then
        ((hi.toUInt16 <<< 8 ||| lo.toUInt16).toNat : Int)
      else (hi.toUInt16 <<< 8 ||| lo.toUInt16).toNat - (2 ^ 16 : Nat) :=
    (Int16.toInt_toInt32 _).trans (BitVec.toInt_eq_toNat_cond _)
  rw [hcond, hword]
  by_cases hpos : hi.toNat < 128
  · rw [if_pos (by omega), if_pos hpos]
    omega
  · rw [if_neg (by omega), if_neg hpos]
    omega

theorem holds_ofByte (b : UInt8) : Width.byte.Holds (ofByte b) := by
  have hlt : b.toNat < 256 := b.toNat_lt
  unfold Width.Holds
  rw [toInt_ofByte]
  omega

theorem holds_ofWord (hi lo : UInt8) : Width.word.Holds (ofWord hi lo) := by
  have hhi : hi.toNat < 256 := hi.toNat_lt
  have hlo : lo.toNat < 256 := lo.toNat_lt
  unfold Width.Holds
  rw [toInt_ofWord]
  constructor <;> split <;> omega

/-- The unsigned word of a value is the value modulo `2 ^ 32`. -/
theorem toNat_toUInt32 (v : Int32) : (v.toUInt32.toNat : Int) = v.toInt % 4294967296 := by
  have hlt : v.toUInt32.toNat < 4294967296 := v.toUInt32.toNat_lt
  have hcond : v.toInt =
      if 2 * v.toUInt32.toNat < 2 ^ 32 then (v.toUInt32.toNat : Int)
      else v.toUInt32.toNat - (2 ^ 32 : Nat) :=
    BitVec.toInt_eq_toNat_cond v.toBitVec
  rw [hcond]
  split <;> omega

theorem toNat_lowByte (v : Int32) : (v.toUInt32.toUInt8.toNat : Int) = v.toInt % 256 := by
  have hword := toNat_toUInt32 v
  rw [UInt32.toNat_toUInt8]
  omega

theorem toNat_highByte (v : Int32) :
    ((v.toUInt32 >>> 8).toUInt8.toNat : Int) = v.toInt / 256 % 256 := by
  have hword := toNat_toUInt32 v
  have hshift : (8 : UInt32).toNat % 32 = 8 := rfl
  rw [UInt32.toNat_toUInt8, UInt32.toNat_shiftRight, hshift, Nat.shiftRight_eq_div_pow]
  omega

/-- A value that fits a byte is read back from the byte that is written. -/
theorem ofByte_lowByte {v : Int32} (h : Width.byte.Holds v) : ofByte v.toUInt32.toUInt8 = v := by
  obtain ⟨hlo, hhi⟩ := h
  rw [← Int32.toInt_inj, toInt_ofByte, toNat_lowByte]
  omega

/-- A value that fits a word is read back from the two bytes that are written. -/
theorem ofWord_bytes {v : Int32} (h : Width.word.Holds v) :
    ofWord (v.toUInt32 >>> 8).toUInt8 v.toUInt32.toUInt8 = v := by
  obtain ⟨hlo, hhi⟩ := h
  have hlow := toNat_lowByte v
  have hhigh := toNat_highByte v
  rw [← Int32.toInt_inj, toInt_ofWord]
  split <;> omega

theorem lowByte_ofByte (b : UInt8) : (ofByte b).toUInt32.toUInt8 = b := by
  have hlt : b.toNat < 256 := b.toNat_lt
  have hlow := toNat_lowByte (ofByte b)
  rw [toInt_ofByte] at hlow
  rw [← UInt8.toNat_inj]
  omega

theorem bytes_ofWord (hi lo : UInt8) :
    (ofWord hi lo).toUInt32.toUInt8 = lo ∧ ((ofWord hi lo).toUInt32 >>> 8).toUInt8 = hi := by
  have hhi : hi.toNat < 256 := hi.toNat_lt
  have hlo : lo.toNat < 256 := lo.toNat_lt
  have hlow := toNat_lowByte (ofWord hi lo)
  have hhigh := toNat_highByte (ofWord hi lo)
  rw [toInt_ofWord] at hlow hhigh
  rw [← UInt8.toNat_inj, ← UInt8.toNat_inj]
  split at hlow <;> omega

end Immediate

namespace Instr

theorem length_writtenValue (width : Width) (v : Int32) :
    (writtenValue width v).length = width.bytes := by
  cases width <;> rfl

theorem length_writtenValues (width : Width) (vs : List Int32) :
    (vs.flatMap (writtenValue width)).length = width.bytes * vs.length := by
  induction vs with
  | nil => rfl
  | cons v vs ih =>
    rw [List.flatMap_cons, List.length_append, ih, length_writtenValue, List.length_cons,
      Nat.mul_add, Nat.mul_one, Nat.add_comm]

end Instr

namespace Listing

open Instr

variable {width : Width}

/-- Written values are taken off the front of any bytes. -/
theorem takeValues_written {vs : List Int32} (rest : List UInt8) (h : ∀ v ∈ vs, width.Holds v) :
    takeValues width vs.length (vs.flatMap (writtenValue width) ++ rest) = some (vs, rest) := by
  induction vs with
  | nil => rfl
  | cons v vs ih =>
    obtain ⟨hv, hvs⟩ := List.forall_mem_cons.mp h
    rw [List.flatMap_cons, List.append_assoc, List.length_cons]
    cases width with
    | byte =>
      simp only [writtenValue, List.cons_append, List.nil_append, takeValues, ih hvs,
        Option.map_some, Immediate.ofByte_lowByte hv]
    | word =>
      simp only [writtenValue, List.cons_append, List.nil_append, takeValues, ih hvs,
        Option.map_some, Immediate.ofWord_bytes hv]

/-- The first value taken is read from the bytes that write it. -/
theorem takeValues_succ_written {n : Nat} {bytes tail : List UInt8} {vs : List Int32}
    (h : takeValues width (n + 1) bytes = some (vs, tail)) :
    ∃ v us rest, vs = v :: us ∧ bytes = writtenValue width v ++ rest ∧ width.Holds v ∧
      takeValues width n rest = some (us, tail) := by
  unfold takeValues at h
  split at h
  · rename_i b rest
    obtain ⟨⟨us, tail'⟩, htaken, heq⟩ := Option.map_eq_some_iff.mp h
    obtain ⟨rfl, rfl⟩ := Prod.mk.inj heq
    refine ⟨Immediate.ofByte b, us, rest, rfl, ?_, Immediate.holds_ofByte b, htaken⟩
    rw [writtenValue, Immediate.lowByte_ofByte]
    rfl
  · rename_i hi lo rest
    obtain ⟨⟨us, tail'⟩, htaken, heq⟩ := Option.map_eq_some_iff.mp h
    obtain ⟨rfl, rfl⟩ := Prod.mk.inj heq
    refine ⟨Immediate.ofWord hi lo, us, rest, rfl, ?_, Immediate.holds_ofWord hi lo, htaken⟩
    obtain ⟨hlow, hhigh⟩ := Immediate.bytes_ofWord hi lo
    rw [writtenValue, hlow, hhigh]
    rfl
  · cases h

/-- Values are taken off the bytes that write them, and each fits its width. -/
theorem written_of_takeValues {n : Nat} {bytes tail : List UInt8} {vs : List Int32}
    (h : takeValues width n bytes = some (vs, tail)) :
    bytes = vs.flatMap (writtenValue width) ++ tail ∧ vs.length = n ∧ ∀ v ∈ vs, width.Holds v := by
  induction n generalizing bytes vs with
  | zero =>
    cases h
    exact ⟨rfl, rfl, by simp⟩
  | succ n ih =>
    obtain ⟨v, us, rest, rfl, rfl, hv, htaken⟩ := takeValues_succ_written h
    obtain ⟨rfl, hlength, hvs⟩ := ih htaken
    refine ⟨?_, by rw [List.length_cons, hlength], List.forall_mem_cons.mpr ⟨hv, hvs⟩⟩
    rw [List.flatMap_cons, List.append_assoc]

end Listing

/-! ## Instructions and their bytes -/

namespace Instr

/-- An instruction has the values that its opcode asks for: none unless it is a push, as many as an
inline push fixes or as a count byte can tell for a push, and each in the range of its width. -/
def WellFormed (i : Instr) : Prop :=
  match i.opcode.pushShape? with
  | none => i.immediates = []
  | some ⟨width, .inline n⟩ => i.immediates.length = n ∧ ∀ v ∈ i.immediates, width.Holds v
  | some ⟨width, .prefixed⟩ => i.immediates.length ≤ 255 ∧ ∀ v ∈ i.immediates, width.Holds v

variable {i : Instr}

/-- The written form starts with the opcode. -/
theorem written_eq_cons (i : Instr) : i.written = i.opcode.byte :: i.written.tail := by
  unfold written
  split <;> rfl

theorem length_written (i : Instr) : i.written.length = i.size := by
  unfold written size
  cases i.opcode.pushShape? with
  | none => rfl
  | some shape =>
    obtain ⟨width, count⟩ := shape
    cases count with
    | inline n =>
      simp only [List.length_cons, length_writtenValues, PushShape.size, PushShape.headSize]
      omega
    | prefixed =>
      simp only [List.length_cons, length_writtenValues, PushShape.size, PushShape.headSize]
      omega

/-- The operands that are written are taken off the front of any bytes. -/
theorem WellFormed.takeOperands (h : i.WellFormed) (rest : List UInt8) :
    Listing.takeOperands i.opcode (i.written.tail ++ rest) = some (i.immediates, rest) := by
  unfold WellFormed at h
  unfold Listing.takeOperands written
  cases hshape : i.opcode.pushShape? with
  | none =>
    simp only [hshape] at h
    simp only [h, List.tail_cons, List.nil_append]
  | some shape =>
    obtain ⟨width, count⟩ := shape
    cases count with
    | inline n =>
      simp only [hshape] at h
      obtain ⟨rfl, hholds⟩ := h
      exact Listing.takeValues_written rest hholds
    | prefixed =>
      simp only [hshape] at h
      obtain ⟨hcount, hholds⟩ := h
      have hbyte : (UInt8.ofNat i.immediates.length).toNat = i.immediates.length :=
        UInt8.toNat_ofNat_of_lt' (Nat.lt_succ_of_le hcount)
      simp only [List.tail_cons, List.cons_append, hbyte]
      exact Listing.takeValues_written rest hholds

/-- Operands are taken off the bytes that write them, and they suit the opcode. -/
theorem written_of_takeOperands {opcode : Opcode} {bytes tail : List UInt8} {vs : List Int32}
    (h : Listing.takeOperands opcode bytes = some (vs, tail)) (offset : Nat) :
    (Instr.mk offset opcode vs).WellFormed ∧
      bytes = (Instr.mk offset opcode vs).written.tail ++ tail := by
  unfold Listing.takeOperands at h
  unfold WellFormed written
  cases hshape : opcode.pushShape? with
  | none =>
    simp only [hshape] at h
    cases h
    exact ⟨rfl, rfl⟩
  | some shape =>
    obtain ⟨width, count⟩ := shape
    cases count with
    | inline n =>
      simp only [hshape] at h
      obtain ⟨hbytes, hlength, hholds⟩ := Listing.written_of_takeValues h
      exact ⟨⟨hlength, hholds⟩, hbytes⟩
    | prefixed =>
      simp only [hshape] at h
      split at h
      · cases h
      · rename_i count rest
        obtain ⟨hbytes, hlength, hholds⟩ := Listing.written_of_takeValues h
        refine ⟨⟨?_, hholds⟩, ?_⟩
        · have hlt : count.toNat < 256 := count.toNat_lt
          simp only [hlength]
          omega
        · simp only [List.tail_cons, List.cons_append, hlength, UInt8.ofNat_toNat, hbytes]

end Instr

/-! ## Listings and their bytes -/

namespace Listing

/-- The bytes of the instructions of a listing, in order. -/
def written (instrs : Array Instr) : Program :=
  (instrs.toList.flatMap Instr.written).toArray

/-- The instructions of a listing are well formed, and each starts behind the bytes of those before
it. -/
structure WellFormed (instrs : Array Instr) : Prop where
  each : ∀ i ∈ instrs, i.WellFormed
  placed : ∀ k (h : k < instrs.size), instrs[k].offset = (written (instrs.take k)).size

/-- Well-formed instructions follow each other, the first of them at the given offset. -/
def Chained (offset : Nat) : List Instr → Prop
  | [] => True
  | i :: rest => i.offset = offset ∧ i.WellFormed ∧ Chained (offset + i.written.length) rest

theorem chained_iff (offset : Nat) (instrs : List Instr) :
    Chained offset instrs ↔
      (∀ i ∈ instrs, i.WellFormed) ∧
        ∀ k (h : k < instrs.length),
          instrs[k].offset = offset + ((instrs.take k).flatMap Instr.written).length := by
  induction instrs generalizing offset with
  | nil => simp [Chained]
  | cons i rest ih =>
    rw [Chained, ih, List.forall_mem_cons]
    constructor
    · rintro ⟨hoffset, hi, hrest, hplaced⟩
      refine ⟨⟨hi, hrest⟩, ?_⟩
      intro k hk
      cases k with
      | zero => simpa using hoffset
      | succ k =>
        have hplace := hplaced k (by simpa using hk)
        rw [List.getElem_cons_succ, hplace, List.take_succ_cons, List.flatMap_cons,
          List.length_append, Nat.add_assoc]
    · rintro ⟨⟨hi, hrest⟩, hplaced⟩
      refine ⟨by simpa using hplaced 0 (Nat.zero_lt_succ _), hi, hrest, ?_⟩
      intro k hk
      have hplace := hplaced (k + 1) (Nat.succ_lt_succ hk)
      rw [List.getElem_cons_succ, List.take_succ_cons, List.flatMap_cons, List.length_append,
        ← Nat.add_assoc] at hplace
      exact hplace

theorem wellFormed_iff_chained (instrs : Array Instr) :
    WellFormed instrs ↔ Chained 0 instrs.toList := by
  have hwritten : ∀ k, (written (instrs.take k)).size =
      ((instrs.toList.take k).flatMap Instr.written).length := by
    intro k
    simp [written]
  rw [chained_iff]
  constructor
  · intro h
    refine ⟨fun i hi => h.each i (Array.mem_toList_iff.mp hi), ?_⟩
    intro k hk
    rw [Nat.zero_add, ← hwritten]
    exact h.placed k hk
  · rintro ⟨heach, hplaced⟩
    refine ⟨fun i hi => heach i (Array.mem_toList_iff.mpr hi), ?_⟩
    intro k hk
    have hplace := hplaced k hk
    rw [Nat.zero_add, ← hwritten] at hplace
    exact hplace

theorem readFrom_nil (offset : Nat) (listed : Array Instr) :
    readFrom offset [] listed = .ok listed := by
  rw [readFrom.eq_def]

/-- The reader lists instructions that are written in front of any bytes and goes on behind them. -/
theorem readFrom_written {offset : Nat} {instrs : List Instr} (h : Chained offset instrs)
    (rest : List UInt8) (listed : Array Instr) :
    readFrom offset (instrs.flatMap Instr.written ++ rest) listed =
      readFrom (offset + (instrs.flatMap Instr.written).length) rest
        (listed ++ instrs.toArray) := by
  induction instrs generalizing offset listed with
  | nil => simp
  | cons i tail ih =>
    obtain ⟨rfl, hi, htail⟩ := h
    have htaken := hi.takeOperands (tail.flatMap Instr.written ++ rest)
    have hlisted : listed ++ (i :: tail).toArray = listed.push i ++ tail.toArray := by simp
    rw [List.flatMap_cons, List.append_assoc, i.written_eq_cons, List.cons_append,
      readFrom_cons_of_some htaken, ← Instr.length_written, ih htail, ← i.written_eq_cons,
      List.length_append, Nat.add_assoc, hlisted]

/-- All bytes split into written instructions and a rest that is empty or starts with a push that is
cut short. -/
theorem exists_split (offset : Nat) (bytes : List UInt8) :
    ∃ instrs rest, Chained offset instrs ∧ bytes = instrs.flatMap Instr.written ++ rest ∧
      (rest = [] ∨ ∃ byte operands, rest = byte :: operands ∧
        takeOperands ⟨byte⟩ operands = none) := by
  induction bytes using taking_induction generalizing offset with
  | nil => exact ⟨[], [], trivial, rfl, Or.inl rfl⟩
  | cut byte operands htaken =>
    exact ⟨[], byte :: operands, trivial, rfl, Or.inr ⟨byte, operands, rfl, htaken⟩⟩
  | taken byte operands vs tail htaken ih =>
    obtain ⟨hwell, hoperands⟩ := Instr.written_of_takeOperands htaken offset
    obtain ⟨instrs, rest, hchained, rfl, hend⟩ :=
      ih (offset + (Instr.mk offset ⟨byte⟩ vs).written.length)
    refine ⟨⟨offset, ⟨byte⟩, vs⟩ :: instrs, rest, ⟨rfl, hwell, hchained⟩, ?_, hend⟩
    rw [List.flatMap_cons, Instr.written_eq_cons, List.append_assoc, List.cons_append, ← hoperands]

end Listing

namespace Program

open Listing

variable {program : Program} {o : Nat} {b : UInt8}

/-- A push starts at an offset, and its count byte or the bytes of its values run past the end of
the program. -/
def CutAt (program : Program) (o : Nat) : Prop :=
  ∃ b shape, program[o]? = some b ∧ (Opcode.mk b).pushShape? = some shape ∧
    (program.pushCount? o shape = none ∨
      ∃ n, program.pushCount? o shape = some n ∧ program.size < o + shape.size n)

/-- The instructions that are cut short are those that have no end. -/
theorem cutAt_iff_behind? (hbyte : program[o]? = some b) :
    program.CutAt o ↔ program.behind? o ⟨b⟩ = none := by
  unfold behind?
  constructor
  · rintro ⟨b', shape, hbyte', hshape, hcut⟩
    cases hbyte.symm.trans hbyte'
    rw [hshape]
    rcases hcut with hcount | ⟨n, hcount, hlong⟩
    · simp only [hcount]
    · simp only [hcount]
      exact if_neg (Nat.not_le.mpr hlong)
  · intro h
    cases hshape : (Opcode.mk b).pushShape? with
    | none => simp [hshape] at h
    | some shape =>
      refine ⟨b, shape, hbyte, hshape, ?_⟩
      simp only [hshape] at h
      split at h
      · rename_i hcount
        exact Or.inl hcount
      · rename_i n hcount
        split at h
        · cases h
        · rename_i hlong
          exact Or.inr ⟨n, hcount, Nat.not_le.mp hlong⟩

/-- The reader misses operands exactly where a push is cut short. -/
theorem cutAt_iff_takeOperands (hbyte : program[o]? = some b) :
    program.CutAt o ↔ takeOperands ⟨b⟩ (program.toList.drop (o + 1)) = none := by
  rw [cutAt_iff_behind? hbyte]
  have hplace := takeOperands_place hbyte
  cases htaken : takeOperands ⟨b⟩ (program.toList.drop (o + 1)) with
  | none =>
    rw [htaken] at hplace
    simp only [hplace]
  | some taken =>
    rw [htaken] at hplace
    simp only [hplace.1, reduceCtorEq]

theorem toList_take (program : Program) (o : Nat) :
    (program.take o).toList = program.toList.take o := by
  rw [Array.take_eq_extract, Array.toList_extract, List.extract_eq_take_drop, List.drop_zero,
    Nat.sub_zero]

/-- A well-formed listing is the listing of its bytes. -/
theorem listing_written {instrs : Array Instr} (h : Listing.WellFormed instrs) :
    (Listing.written instrs).listing = .ok instrs := by
  have hchained := (wellFormed_iff_chained instrs).mp h
  have hread := readFrom_written hchained [] #[]
  rw [List.append_nil, readFrom_nil, Array.empty_append, Array.toArray_toList] at hread
  exact hread

/-- Every program is the written form of a listing, or it starts with one and goes on with a push
that is cut short, which the reader reports. -/
theorem listing_cases (program : Program) :
    ∃ instrs, Listing.WellFormed instrs ∧
      (Listing.written instrs = program ∧ program.listing = .ok instrs ∨
        ∃ o, Listing.written instrs = program.take o ∧ program.CutAt o ∧
          program.listing = .error ⟨o⟩) := by
  obtain ⟨instrs, rest, hchained, hbytes, hend⟩ := exists_split 0 program.toList
  have hwell : Listing.WellFormed instrs.toArray := (wellFormed_iff_chained _).mpr hchained
  refine ⟨instrs.toArray, hwell, ?_⟩
  rcases hend with rfl | ⟨b, operands, rfl, hcut⟩
  · left
    have hwritten : Listing.written instrs.toArray = program := by
      rw [List.append_nil] at hbytes
      rw [Listing.written, ← hbytes]
    refine ⟨hwritten, ?_⟩
    have hlisted := listing_written hwell
    rw [hwritten] at hlisted
    exact hlisted
  · right
    have hdrop : program.toList.drop (instrs.flatMap Instr.written).length = b :: operands := by
      rw [hbytes, List.drop_left]
    have hbyte : program[(instrs.flatMap Instr.written).length]? = some b := by
      rw [← Array.getElem?_toList, ← List.head?_drop, hdrop]
      rfl
    have hoperands :
        program.toList.drop ((instrs.flatMap Instr.written).length + 1) = operands := by
      rw [← List.drop_drop, hdrop]
      rfl
    refine ⟨(instrs.flatMap Instr.written).length, ?_, ?_, ?_⟩
    · rw [← Array.toList_inj, Listing.written, toList_take, hbytes, List.take_left]
    · rw [cutAt_iff_takeOperands hbyte, hoperands]
      exact hcut
    · have hread := readFrom_written hchained (b :: operands) #[]
      rw [← hbytes, readFrom_cons_of_none hcut, Nat.zero_add] at hread
      exact hread

/-- A program is listed as the instructions that it is the written form of. -/
theorem listing_eq_ok_iff (program : Program) (instrs : Array Instr) :
    program.listing = .ok instrs ↔
      Listing.WellFormed instrs ∧ Listing.written instrs = program := by
  constructor
  · intro h
    obtain ⟨found, hwell, ⟨hwritten, hlisting⟩ | ⟨o, -, -, hlisting⟩⟩ := program.listing_cases
    · cases hlisting.symm.trans h
      exact ⟨hwell, hwritten⟩
    · cases hlisting.symm.trans h
  · rintro ⟨hwell, rfl⟩
    exact listing_written hwell

/-- A program has no listing if it starts with the written form of one and goes on with a push that
is cut short, and the offset of that push is reported. -/
theorem listing_eq_error_iff (program : Program) (o : Nat) :
    program.listing = .error ⟨o⟩ ↔
      (∃ before, Program.listing (program.take o) = .ok before) ∧ program.CutAt o := by
  constructor
  · intro h
    obtain ⟨found, hwell, ⟨-, hlisting⟩ | ⟨o', hwritten, hcut, hlisting⟩⟩ := program.listing_cases
    · cases hlisting.symm.trans h
    · cases hlisting.symm.trans h
      refine ⟨⟨found, ?_⟩, hcut⟩
      rw [← hwritten]
      exact listing_written hwell
  · rintro ⟨⟨before, hbefore⟩, hcut⟩
    obtain ⟨hwell, hwritten⟩ := (listing_eq_ok_iff _ before).mp hbefore
    have ⟨b, _, hbyte, _⟩ := hcut
    have hinside : o < program.size := (Array.getElem?_eq_some_iff.mp hbyte).1
    have hbytes : program.toList =
        before.toList.flatMap Instr.written ++ b :: program.toList.drop (o + 1) := by
      have htake : before.toList.flatMap Instr.written = program.toList.take o := by
        rw [← toList_take, ← hwritten, Listing.written]
      rw [htake, ← drop_of_getElem? hbyte, List.take_append_drop]
    have hlength : (before.toList.flatMap Instr.written).length = o := by
      have hsize := congrArg (·.toList.length) hwritten
      simp only [Listing.written, toList_take, List.length_take, Array.length_toList] at hsize
      omega
    have hmissing := (cutAt_iff_takeOperands hbyte).mp hcut
    have hread := readFrom_written ((wellFormed_iff_chained before).mp hwell)
      (b :: program.toList.drop (o + 1)) #[]
    rw [← hbytes, readFrom_cons_of_none hmissing, hlength, Nat.zero_add] at hread
    exact hread

/-- Listing a program is exact and loses nothing.  A program is listed as the well-formed listing
whose bytes it has; every well-formed listing is the one of its bytes; programs with one listing are
equal; and a truncation is reported at an offset exactly if the bytes before it have a listing and a
push that runs past the end of the program starts there. -/
theorem listing_exact (program : Program) :
    (∀ instrs, program.listing = .ok instrs ↔
      Listing.WellFormed instrs ∧ Listing.written instrs = program) ∧
    (∀ instrs, Listing.WellFormed instrs → (Listing.written instrs).listing = .ok instrs) ∧
    (∀ other instrs, program.listing = .ok instrs → Program.listing other = .ok instrs →
      other = program) ∧
    ∀ o, program.listing = .error ⟨o⟩ ↔
      (∃ before, Program.listing (program.take o) = .ok before) ∧ program.CutAt o := by
  refine ⟨program.listing_eq_ok_iff, fun instrs => listing_written, ?_,
    program.listing_eq_error_iff⟩
  intro other instrs h hother
  rw [← ((program.listing_eq_ok_iff instrs).mp h).2]
  exact ((listing_eq_ok_iff other instrs).mp hother).2.symm

/-- Pushes two bytes and, behind a jump, one negative word, and ends with a byte that is no
instruction. -/
def mixedPushes : Program :=
  #[0xB1, 10, 0x58, 0x1C, 0x41, 1, 0xFF, 0xFE, 0x28]

/-- The instructions of `mixedPushes`. -/
def mixedInstrs : Array Instr :=
  #[⟨0, ⟨0xB1⟩, [10, 88]⟩, ⟨3, ⟨0x1C⟩, []⟩, ⟨4, ⟨0x41⟩, [-2]⟩, ⟨8, ⟨0x28⟩, []⟩]

theorem listing_exact_mixedPushes :
    mixedPushes.listing = .ok mixedInstrs ∧ Listing.WellFormed mixedInstrs ∧
      Listing.written mixedInstrs = mixedPushes ∧
      (Listing.written mixedInstrs).listing = .ok mixedInstrs ∧
      Program.listing (mixedPushes.push 0xB9) = .error ⟨9⟩ ∧
      (∃ before, Program.listing ((mixedPushes.push 0xB9).take 9) = .ok before) ∧
      CutAt (mixedPushes.push 0xB9) 9 := by
  have hlisting : mixedPushes.listing = .ok mixedInstrs := by decide +kernel
  have hcut : Program.listing (mixedPushes.push 0xB9) = .error ⟨9⟩ := by decide +kernel
  obtain ⟨hiff, hback, -, -⟩ := listing_exact mixedPushes
  obtain ⟨hwell, hwritten⟩ := (hiff mixedInstrs).mp hlisting
  obtain ⟨-, -, -, herror⟩ := listing_exact (mixedPushes.push 0xB9)
  obtain ⟨hbefore, hpush⟩ := (herror 9).mp hcut
  exact ⟨hlisting, hwell, hwritten, hback mixedInstrs hwell, hcut, hbefore, hpush⟩

end Program

end GlyphHint
