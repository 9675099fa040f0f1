import GlyphHint.Proofs.Machine.Effect
import GlyphHint.Proofs.Machine.Turn
import GlyphHint.Proofs.Stack.Rotation
set_option autoImplicit false

/-!
# Indexed access

The instructions `CINDEX` and `MINDEX` find their value by an index that lies on top and counts the
values below it from 1.  An index that counts no further than there are values names one of them
(`Names`), and both instructions then succeed on every stack, full ones too: the index gives its
slot up before the value needs one.
-/

namespace GlyphHint

/-! ## Indices -/

/-- The index names the value `v` between others: as many values lie above it as the index counts,
less one. -/
structure Names (x : Int32) (values below : List Int32) (v : Int32) (above : List Int32) :
    Prop where
  split : values = below ++ v :: above
  counted : (above.length + 1 : Int) = x.toInt

theorem exists_names {x : Int32} {values : List Int32} (hpos : 0 < x.toInt)
    (hle : x.toInt ≤ values.length) : ∃ below v above, Names x values below v above := by
  have hplace : values.length - x.toInt.toNat < values.length := by omega
  refine ⟨values.take (values.length - x.toInt.toNat), values[values.length - x.toInt.toNat],
    values.drop (values.length - x.toInt.toNat + 1), ?_, ?_⟩
  · rw [← List.drop_eq_getElem_cons hplace, List.take_append_drop]
  · rw [List.length_drop]
    omega

namespace Names

variable {x v : Int32} {values below above : List Int32}

/-- The place of the named value, counted from the top and from 0. -/
theorem place_eq (h : Names x values below v above) : x.toInt.toNat - 1 = above.reverse.length := by
  have hcounted := h.counted
  rw [List.length_reverse]
  omega

theorem pos (h : Names x values below v above) : 0 < x.toInt := by
  have hcounted := h.counted
  omega

theorem reverse_eq (h : Names x values below v above) :
    values.reverse = above.reverse ++ v :: below.reverse := by
  rw [h.split]
  simp

theorem getElem? (h : Names x values below v above) :
    values.reverse[x.toInt.toNat - 1]? = some v := by
  rw [h.reverse_eq, h.place_eq, List.getElem?_append_right (Nat.le_refl _), Nat.sub_self]
  rfl

theorem eraseIdx (h : Names x values below v above) :
    values.reverse.eraseIdx (x.toInt.toNat - 1) = (below ++ above).reverse := by
  rw [h.reverse_eq, h.place_eq, List.eraseIdx_append_of_length_le (Nat.le_refl _), Nat.sub_self,
    List.eraseIdx_cons_zero, List.reverse_append]

/-- An indexed copy puts the named value in the place of the index. -/
theorem effect_copyIndexed (h : Names x values below v above) (program : Program)
    (pc capacity : Nat) :
    Op.effect program pc capacity .copyIndexed (x :: values.reverse) =
      .ok (pc + 1, (values ++ [v]).reverse) := by
  simp only [Op.effect, h.getElem?, h.pos, if_true, List.reverse_append]
  rfl

/-- An indexed move takes the named value out from between the others. -/
theorem effect_moveIndexed (h : Names x values below v above) (program : Program)
    (pc capacity : Nat) :
    Op.effect program pc capacity .moveIndexed (x :: values.reverse) =
      .ok (pc + 1, (below ++ above ++ [v]).reverse) := by
  simp only [Op.effect, h.getElem?, h.pos, if_true, h.eraseIdx, List.reverse_append]
  rfl

end Names

namespace Machine

variable {program : Program} {limit : Nat} {s : State}

/-- An instruction with an effect on the values is performed and has it. -/
theorem turn_of_effect {op : Op} {b : UInt8} {next : Int} {vs : List Int32} (hpc : 0 ≤ s.pc)
    (hbyte : program[s.pc.toNat]? = some b) (hlimit : s.steps + 1 < limit)
    (hop : (Opcode.mk b).op? = some op) (hdeep : op.pops ≤ s.stack.depth)
    (heffect : op.effect program s.pc.toNat s.stack.capacity s.stack.topFirst =
      .ok (next, vs.reverse)) :
    ∃ t : Stack, turn program limit s = .performed ⟨next, s.steps + 1, t⟩ ∧
      t.capacity = s.stack.capacity ∧ t.toList = vs := by
  have hfollows := Action.perform_follows program s.pc.toNat op s.stack hdeep
  rw [heffect] at hfollows
  obtain ⟨t, hrun, hvalues, hcapacity⟩ := hfollows
  refine ⟨t, ?_, hcapacity, ?_⟩
  · rw [turn_of_op hpc hbyte hlimit hop hdeep, hrun]
  · rw [← t.reverse_topFirst, hvalues, List.reverse_reverse]

/-- Indexed access is exact.  With an index on top that counts no further than there are values
below it, the turn of `CINDEX` puts the named value in the place of the index, and that of `MINDEX`
takes it out from between the others, which keep their order, and puts it on top; neither can fail.
And the operation behind the second, lifting a value from a place below the top, rotates the values
from that place up: done once for each of them it gives the stack back, slots included, and done
fewer times it rotates them by as many places. -/
theorem indexed_access_exact :
    (∀ (program : Program) (limit : Nat) (s : State) (values : List Int32) (x : Int32),
      0 ≤ s.pc → s.steps + 1 < limit → s.stack.toList = values ++ [x] →
        0 < x.toInt → x.toInt ≤ values.length →
      ∃ below v above, Names x values below v above ∧
        (program[s.pc.toNat]? = some 0x25 →
          ∃ t : Stack, turn program limit s = .performed ⟨s.pc + 1, s.steps + 1, t⟩ ∧
            t.capacity = s.stack.capacity ∧ t.toList = values ++ [v]) ∧
        (program[s.pc.toNat]? = some 0x26 →
          ∃ t : Stack, turn program limit s = .performed ⟨s.pc + 1, s.steps + 1, t⟩ ∧
            t.capacity = s.stack.capacity ∧ t.toList = below ++ above ++ [v] ∧
            t.toList.Perm values ∧
            t.toList.take (values.length - x.toInt.toNat) =
              values.take (values.length - x.toInt.toNat))) ∧
    ∀ (s : Stack) (d : Nat), d < s.depth →
      Stack.liftTimes? d (d + 1) s = some s ∧
      ∀ n, 0 < n → n ≤ d → ∃ t, Stack.liftTimes? d n s = some t ∧ t.capacity = s.capacity ∧
        t.toList = s.toList.take (s.depth - (d + 1)) ++
          (s.toList.drop (s.depth - (d + 1))).rotate n := by
  constructor
  · intro program limit s values x hpc hlimit hstack hpos hle
    obtain ⟨below, v, above, hnames⟩ := exists_names hpos hle
    have htop : s.stack.topFirst = x :: values.reverse := by
      rw [Stack.topFirst, hstack, List.reverse_append]
      rfl
    have hdeep : 1 ≤ s.stack.depth := by
      rw [s.stack.depth_of_topFirst htop]
      exact Nat.le_add_left _ _
    have hnext : (s.pc.toNat : Int) + 1 = s.pc + 1 := by rw [Int.toNat_of_nonneg hpc]
    refine ⟨below, v, above, hnames, ?_, ?_⟩
    · intro hbyte
      have hop : (Opcode.mk 0x25).op? = some .copyIndexed := Opcode.op?_of_byte? rfl
      refine turn_of_effect hpc hbyte hlimit hop hdeep ?_
      rw [htop, hnames.effect_copyIndexed, hnext]
    · intro hbyte
      have hop : (Opcode.mk 0x26).op? = some .moveIndexed := Opcode.op?_of_byte? rfl
      obtain ⟨t, hturn, hcapacity, hvalues⟩ := turn_of_effect hpc hbyte hlimit hop hdeep
        (by rw [htop, hnames.effect_moveIndexed, hnext])
      have hbelow : values.length - x.toInt.toNat = below.length := by
        have hcounted := hnames.counted
        rw [hnames.split, List.length_append, List.length_cons]
        omega
      refine ⟨t, hturn, hcapacity, hvalues, ?_, ?_⟩
      · rw [hvalues, hnames.split, List.append_assoc]
        exact List.Perm.append_left below (List.perm_append_singleton v above)
      · rw [hvalues, hbelow, hnames.split, List.append_assoc, List.take_left, List.take_left]
  · intro s d live
    refine ⟨Stack.liftTimes?_restores live, ?_⟩
    intro n _ _
    obtain ⟨t, ht, hcapacity, -, hvalues⟩ := Stack.liftTimes?_rotates live n
    exact ⟨t, ht, hcapacity, hvalues⟩

/-- A full stack with the index of its bottom value on top. -/
def bottomNamed : Stack where
  capacity := 3
  slots := #[7, 8, 2]
  top := 3
  top_le_size := by decide
  size_le_capacity := by decide

/-- The bottom value of a full stack is copied and moved, and the two uppermost values of it are
exchanged by one lift and exchanged back by a second. -/
theorem indexed_access_exact_bottomNamed :
    (∃ t : Stack, turn #[0x25] 2 ⟨0, 0, bottomNamed⟩ = .performed ⟨1, 1, t⟩ ∧
      t.toList = [7, 8, 7]) ∧
    (∃ t : Stack, turn #[0x26] 2 ⟨0, 0, bottomNamed⟩ = .performed ⟨1, 1, t⟩ ∧
      t.toList = [8, 7]) ∧
    Stack.liftTimes? 1 2 bottomNamed = some bottomNamed ∧
    ∃ t, Stack.liftTimes? 1 1 bottomNamed = some t ∧ t.toList = [7, 2, 8] := by
  have hnamed : ∀ below v above, Names 2 [7, 8] below v above →
      below = [] ∧ v = 7 ∧ above = [8] := by
    intro below v above h
    have hlength : above.length = 1 := by
      have hcounted : (above.length + 1 : Int) = 2 := h.counted
      omega
    have hsplit : ([] : List Int32) ++ 7 :: [8] = below ++ v :: above := h.split
    obtain ⟨rfl, hrest⟩ := List.append_inj' hsplit (by simp [hlength])
    obtain ⟨rfl, rfl⟩ := List.cons.inj hrest
    exact ⟨rfl, rfl, rfl⟩
  have hturn := fun program => indexed_access_exact.1 program 2 ⟨0, 0, bottomNamed⟩ [7, 8] 2
    (by decide) (by decide) (by decide) (by decide) (by decide)
  have hlift := indexed_access_exact.2 bottomNamed 1 (by decide)
  refine ⟨?_, ?_, hlift.1, ?_⟩
  · obtain ⟨below, v, above, h, hcopy, -⟩ := hturn #[0x25]
    obtain ⟨rfl, rfl, rfl⟩ := hnamed _ _ _ h
    obtain ⟨t, ht, -, hvalues⟩ := hcopy rfl
    exact ⟨t, ht, hvalues⟩
  · obtain ⟨below, v, above, h, -, hmove⟩ := hturn #[0x26]
    obtain ⟨rfl, rfl, rfl⟩ := hnamed _ _ _ h
    obtain ⟨t, ht, -, hvalues, -⟩ := hmove rfl
    exact ⟨t, ht, hvalues⟩
  · obtain ⟨t, ht, -, hvalues⟩ := hlift.2 1 (by decide) (by decide)
    exact ⟨t, ht, hvalues⟩

end Machine

end GlyphHint
