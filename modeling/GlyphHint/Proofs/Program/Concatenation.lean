import GlyphHint.Proofs.Program.Window
set_option autoImplicit false

/-!
# Listings of programs put together

The reader carries an offset along but decides nothing by it, so bytes are listed alike wherever
they lie, with the offsets moved by as much as the bytes (`Listing.readFrom_goesOn`).  Behind a
program with a complete listing the reader therefore goes on as if it had just started there
(`Program.listing_append`).  A program that is cut short has a complete listing up to the push that
cuts it, and whatever is put behind it, the reader comes as far as this push.
-/

namespace GlyphHint

/-- The same instruction `k` bytes further on. -/
def Instr.movedBy (k : Nat) (i : Instr) : Instr :=
  { i with offset := i.offset + k }

namespace Listing

/-- What a listing comes to if it starts with these instructions in `k` bytes and goes on behind
them like the given one. -/
def goesOn (before : Array Instr) (k : Nat) :
    Except Truncation (Array Instr) → Except Truncation (Array Instr)
  | .ok instrs => .ok (before ++ instrs.map (Instr.movedBy k))
  | .error t => .error ⟨t.offset + k⟩

/-- Bytes are listed alike from every offset on. -/
theorem readFrom_goesOn (before : Array Instr) (k offset : Nat) (bytes : List UInt8)
    (listed : Array Instr) :
    readFrom (offset + k) bytes (before ++ listed.map (Instr.movedBy k)) =
      goesOn before k (readFrom offset bytes listed) := by
  induction bytes using taking_induction generalizing offset listed with
  | nil => rw [readFrom_nil, readFrom_nil, goesOn]
  | cut byte rest htaken =>
    rw [readFrom_cons_of_none htaken, readFrom_cons_of_none htaken, goesOn]
  | taken byte rest vs tail htaken ih =>
    -- The size of an instruction does not depend on where it is.
    have hsize : (Instr.mk (offset + k) ⟨byte⟩ vs).size = (Instr.mk offset ⟨byte⟩ vs).size := rfl
    have hlisted : (before ++ listed.map (Instr.movedBy k)).push ⟨offset + k, ⟨byte⟩, vs⟩ =
        before ++ (listed.push ⟨offset, ⟨byte⟩, vs⟩).map (Instr.movedBy k) := by
      rw [Array.map_push, Array.append_push]
      rfl
    rw [readFrom_cons_of_some htaken, readFrom_cons_of_some htaken, hsize, hlisted,
      Nat.add_right_comm]
    exact ih _ _

end Listing

namespace Program

open Listing

variable {p : Program} {before : Array Instr} {o : Nat}

/-- Behind a program with a complete listing the reader goes on as at the start of what follows. -/
theorem listing_append (h : p.listing = .ok before) (q : Program) :
    (p ++ q).listing = goesOn before p.size q.listing := by
  obtain ⟨hwell, hwritten⟩ := (listing_eq_ok_iff p before).mp h
  have hchained := (wellFormed_iff_chained before).mp hwell
  have hbytes : before.toList.flatMap Instr.written = p.toList := by
    rw [← hwritten, Listing.written]
  have hread := readFrom_written hchained q.toList #[]
  have hmoved := readFrom_goesOn before p.size 0 q.toList #[]
  rw [hbytes, ← Array.toList_append, Array.empty_append, Array.toArray_toList,
    Array.length_toList] at hread
  rw [Array.map_empty, Array.append_empty] at hmoved
  exact hread.trans hmoved

/-- The instructions listed of a program start in it. -/
theorem offset_lt_of_listing (h : p.listing = .ok before) : ∀ i ∈ before, i.offset < p.size := by
  intro i hi
  apply lt_size_of_mem_boundaries
  rw [boundaries_of_listing h]
  exact List.mem_map_of_mem (Array.mem_toList_iff.mpr hi)

/-- Where a listing goes on at an offset, the instructions before the offset are those that it
starts with. -/
theorem filter_goesOn (hbefore : ∀ i ∈ before, i.offset < o) (after : Array Instr) :
    (before ++ after.map (Instr.movedBy o)).filter (fun i => i.offset < o) = before := by
  have hall : before.filter (fun i => i.offset < o) = before := by
    apply Array.filter_eq_self.mpr
    intro i hi
    exact decide_eq_true (hbefore i hi)
  have hnone : (after.map (Instr.movedBy o)).filter (fun i => i.offset < o) = #[] := by
    apply Array.filter_eq_empty_iff.mpr
    intro i hi hlt
    obtain ⟨j, -, rfl⟩ := Array.mem_map.mp hi
    have hplace : (j.movedBy o).offset = j.offset + o := rfl
    have hlt' := of_decide_eq_true hlt
    omega
  rw [Array.filter_append (by rw [Array.size_append]), hall, hnone, Array.append_empty]

/-- A push that cuts a listing short starts in the program. -/
theorem lt_size_of_listing_error (h : p.listing = .error ⟨o⟩) : o < p.size := by
  obtain ⟨-, b, -, hbyte, -⟩ := (listing_eq_error_iff p o).mp h
  exact (Array.getElem?_eq_some_iff.mp hbyte).1

/-- A program that is cut short is listed up to the push that cuts it, whatever is put behind it. -/
theorem listing_append_of_error (h : p.listing = .error ⟨o⟩) (q : Program) :
    ∃ before, Program.listing (p.take o) = .ok before ∧
      (p ++ q).listing = goesOn before o (Program.listing (p.drop o ++ q)) := by
  obtain ⟨⟨before, hbefore⟩, -⟩ := (listing_eq_error_iff p o).mp h
  have hinside := lt_size_of_listing_error h
  have hsize : (p.take o).size = o := by
    rw [Array.take_eq_extract, Array.size_extract]
    omega
  have hsplit : p ++ q = p.take o ++ (p.drop o ++ q) := by
    rw [← Array.toList_inj, Array.toList_append, Array.toList_append, Array.toList_append,
      toList_take, toList_drop, ← List.append_assoc, List.take_append_drop]
  refine ⟨before, hbefore, ?_⟩
  rw [hsplit, listing_append hbefore, hsize]

/-- Listing programs put together is listing one after the other.  Behind a program with a complete
listing the other one is listed as on its own, moved by the bytes in front of it, and a push that
cuts it short is reported moved by as much.  A program that is cut short at an offset is listed up
to there whatever follows: the instructions before the offset are those of the bytes before it, or
a push is reported that starts at the offset or behind it. -/
theorem listing_composes (p q : Program) :
    (∀ before, p.listing = .ok before →
      (∀ after, q.listing = .ok after →
        (p ++ q).listing = .ok (before ++ after.map (Instr.movedBy p.size))) ∧
      ∀ o, q.listing = .error ⟨o⟩ → (p ++ q).listing = .error ⟨o + p.size⟩) ∧
    ∀ o, p.listing = .error ⟨o⟩ →
      ∃ before, Program.listing (p.take o) = .ok before ∧
        ((∃ instrs, (p ++ q).listing = .ok instrs ∧ before.toList <+: instrs.toList ∧
            instrs.filter (fun i => i.offset < o) = before) ∨
          ∃ o', (p ++ q).listing = .error ⟨o'⟩ ∧ o ≤ o') := by
  constructor
  · intro before hbefore
    rw [listing_append hbefore q]
    constructor
    · intro after hafter
      rw [hafter, goesOn]
    · intro o hcut
      rw [hcut, goesOn]
  · intro o hcut
    obtain ⟨before, hbefore, hlisting⟩ := listing_append_of_error hcut q
    refine ⟨before, hbefore, ?_⟩
    rw [hlisting]
    cases Program.listing (p.drop o ++ q) with
    | ok after =>
      left
      refine ⟨before ++ after.map (Instr.movedBy o), rfl, ?_, ?_⟩
      · rw [Array.toList_append]
        exact List.prefix_append _ _
      · apply filter_goesOn
        intro i hi
        have hlt := offset_lt_of_listing hbefore i hi
        rw [Array.take_eq_extract, Array.size_extract] at hlt
        omega
    | error t =>
      right
      exact ⟨t.offset + o, rfl, Nat.le_add_left o t.offset⟩

/-- Pushes the byte of another push. -/
def pushesPush : Program :=
  #[0xB0, 0xB1]

/-- Pushes two values, of which the program holds one. -/
def halfPush : Program :=
  #[0x4F, 0xB1, 7]

/-- A half push is cut short at the end of a program, and takes its other value from a program
behind it. -/
theorem listing_composes_halfPush :
    pushesPush.listing = .ok #[⟨0, ⟨0xB0⟩, [0xB1]⟩] ∧
      (pushesPush ++ pushesPush).listing = .ok #[⟨0, ⟨0xB0⟩, [0xB1]⟩, ⟨2, ⟨0xB0⟩, [0xB1]⟩] ∧
      halfPush.listing = .error ⟨1⟩ ∧ (pushesPush ++ halfPush).listing = .error ⟨3⟩ ∧
      ∃ before, Program.listing (halfPush.take 1) = .ok before ∧
        ∃ instrs, (halfPush ++ #[0xB0]).listing = .ok instrs ∧
          before.toList <+: instrs.toList ∧ instrs.filter (fun i => i.offset < 1) = before := by
  have hwhole : pushesPush.listing = .ok #[⟨0, ⟨0xB0⟩, [0xB1]⟩] := by decide +kernel
  have hhalf : halfPush.listing = .error ⟨1⟩ := by decide +kernel
  have htwice := (listing_composes pushesPush pushesPush).1 _ hwhole
  have hbehind := (listing_composes pushesPush halfPush).1 _ hwhole
  have hmoved : (Instr.mk 0 ⟨0xB0⟩ [0xB1]).movedBy pushesPush.size = ⟨2, ⟨0xB0⟩, [0xB1]⟩ := rfl
  refine ⟨hwhole, (htwice.1 _ hwhole).trans ?_, hhalf, hbehind.2 1 hhalf, ?_⟩
  · simp [hmoved]
  obtain ⟨before, hbefore, hinstrs | ⟨o', herror, -⟩⟩ :=
    (listing_composes halfPush #[0xB0]).2 1 hhalf
  · exact ⟨before, hbefore, hinstrs⟩
  · have hcomplete : (halfPush ++ #[0xB0]).listing.isOk = true := by decide +kernel
    rw [herror] at hcomplete
    cases hcomplete

end Program

end GlyphHint
