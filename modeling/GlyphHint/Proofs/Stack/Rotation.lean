import GlyphHint.Stack
import Mathlib.Data.List.Rotate
set_option autoImplicit false

/-!
# Lifting as rotation

Lifting a value rotates the values from it up to the top by one place and leaves the ones below it
alone (`toList_lift_rotate`).  So lifting from one place again and again goes through the rotations
of these values, and comes back to the very stack it started on, stale slots included
(`liftTimes?_rotates`, `liftTimes?_restores`).
-/

namespace GlyphHint.Stack

variable {s t : Stack} {d : Nat}

/-- What is left in the slots above the live ones. -/
def stale (s : Stack) : List Int32 :=
  s.slots.toList.drop s.top

/-- A stack is its capacity, its live values and its stale slots. -/
theorem eq_of_views (hcapacity : s.capacity = t.capacity) (hlive : s.toList = t.toList)
    (hstale : s.stale = t.stale) : s = t := by
  have htop : s.top = t.top := by
    have hlength := congrArg List.length hlive
    rw [length_toList, length_toList] at hlength
    exact hlength
  have hslots : s.slots = t.slots := by
    apply Array.toList_inj.mp
    have hsplit : ∀ u : Stack, u.slots.toList = u.toList ++ u.stale :=
      fun u => (List.take_append_drop u.top u.slots.toList).symm
    rw [hsplit s, hsplit t, hlive, hstale]
  cases s
  cases t
  cases hcapacity
  cases htop
  cases hslots
  rfl

/-- Lifting moves live values only. -/
theorem stale_lift (live : d < s.top) : (s.lift d).stale = s.stale := by
  have hle := s.top_le_size
  apply List.ext_getElem?
  intro k
  have hslot := getElem?_carryUp s.slots (s.top - 1 - d) d (s.top + k) (by omega)
  rw [if_neg (by omega), if_neg (by omega), if_neg (by omega)] at hslot
  simp only [stale, lift, List.getElem?_drop, Array.getElem?_toList]
  exact hslot

/-- Lifting takes a value from between others and puts it on top. -/
theorem toList_lift_of_split {below above : List Int32} {v : Int32}
    (h : s.toList = below ++ v :: above) (hd : above.length = d) :
    (s.lift d).toList = below ++ above ++ [v] := by
  have hdepth : s.depth = below.length + (d + 1) := by
    rw [← length_toList, h, List.length_append, List.length_cons, hd]
  have live : d < s.top := by
    rw [depth] at hdepth
    omega
  have hplace : s.depth - 1 - d = below.length := by omega
  have hvalue : s.peek d live = v := by
    have hpeek := s.peek?_eq_getElem? d
    rw [peek?, dif_pos live, h, List.reverse_append, List.reverse_cons, List.append_assoc,
      List.getElem?_append_right (by rw [List.length_reverse, hd]), List.length_reverse, hd,
      Nat.sub_self] at hpeek
    exact Option.some.inj hpeek
  rw [toList_lift s d live, hvalue, hplace, h, List.eraseIdx_append_of_length_le (Nat.le_refl _),
    Nat.sub_self, List.eraseIdx_cons_zero]

/-! ## Rotation -/

/-- The values below the `n` uppermost ones. -/
def below (s : Stack) (n : Nat) : List Int32 :=
  s.toList.take (s.depth - n)

/-- The `n` uppermost values, bottom to top. -/
def upper (s : Stack) (n : Nat) : List Int32 :=
  s.toList.drop (s.depth - n)

theorem below_append_upper (s : Stack) (n : Nat) : s.below n ++ s.upper n = s.toList :=
  List.take_append_drop _ _

theorem length_upper {n : Nat} (h : n ≤ s.depth) : (s.upper n).length = n := by
  rw [upper, List.length_drop, length_toList]
  omega

/-- Lifting rotates the values from the lifted one up to the top by one place. -/
theorem toList_lift_rotate (live : d < s.depth) :
    (s.lift d).toList = s.below (d + 1) ++ (s.upper (d + 1)).rotate 1 := by
  have hlength := length_upper (show d + 1 ≤ s.depth from live)
  cases hupper : s.upper (d + 1) with
  | nil =>
    rw [hupper] at hlength
    cases hlength
  | cons v above =>
    rw [hupper, List.length_cons, Nat.add_right_cancel_iff] at hlength
    have hsplit : s.toList = s.below (d + 1) ++ v :: above := by
      rw [← hupper, below_append_upper]
    rw [toList_lift_of_split hsplit hlength, List.rotate_cons_succ, List.rotate_zero,
      List.append_assoc]

theorem depth_lift (s : Stack) (d : Nat) : (s.lift d).depth = s.depth :=
  rfl

theorem below_lift (live : d < s.depth) : (s.lift d).below (d + 1) = s.below (d + 1) := by
  have hlength : (s.below (d + 1)).length = s.depth - (d + 1) := by
    rw [below, List.length_take, length_toList]
    omega
  rw [below, depth_lift, toList_lift_rotate live, ← hlength, List.take_left]

theorem upper_lift (live : d < s.depth) :
    (s.lift d).upper (d + 1) = (s.upper (d + 1)).rotate 1 := by
  have hsplit := (s.lift d).below_append_upper (d + 1)
  rw [below_lift live, toList_lift_rotate live] at hsplit
  exact List.append_cancel_left hsplit

/-- Moves the value `d` places below the top onto the top `n` times, as long as there is one. -/
def liftTimes? (d : Nat) : Nat → Stack → Option Stack
  | 0, s => some s
  | n + 1, s => (s.lift? d).bind (liftTimes? d n)

/-- Lifting from one place repeatedly rotates the values from there up to the top by as many places
as it is done. -/
theorem liftTimes?_rotates (live : d < s.depth) (n : Nat) :
    ∃ t, liftTimes? d n s = some t ∧ t.capacity = s.capacity ∧ t.stale = s.stale ∧
      t.toList = s.below (d + 1) ++ (s.upper (d + 1)).rotate n := by
  induction n generalizing s with
  | zero => exact ⟨s, rfl, rfl, rfl, by rw [List.rotate_zero, below_append_upper]⟩
  | succ n ih =>
    have hfirst : s.lift? d = some (s.lift d) := if_pos live
    obtain ⟨t, ht, hcapacity, hstale, hvalues⟩ := ih (s := s.lift d) live
    refine ⟨t, ?_, hcapacity, hstale.trans (stale_lift live), ?_⟩
    · rw [liftTimes?, hfirst, Option.bind_some, ht]
    · rw [hvalues, below_lift live, upper_lift live, List.rotate_rotate, Nat.add_comm 1 n]

/-- Lifting from one place as often as there are values from there up to the top gives the stack
back. -/
theorem liftTimes?_restores (live : d < s.depth) : liftTimes? d (d + 1) s = some s := by
  obtain ⟨t, ht, hcapacity, hstale, hvalues⟩ := liftTimes?_rotates live (d + 1)
  have hfull : (s.upper (d + 1)).rotate (d + 1) = s.upper (d + 1) := by
    rw [← congrArg (List.rotate _) (length_upper (show d + 1 ≤ s.depth from live)),
      List.rotate_length]
  rw [hfull, below_append_upper] at hvalues
  rw [ht, eq_of_views hcapacity hvalues hstale]

end GlyphHint.Stack
