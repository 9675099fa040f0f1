set_option autoImplicit false

/-!
# The evaluation stack

A stack of signed 32-bit words with a fixed capacity.  The words lie in a buffer that is kept when
values are dropped: only the first `top` slots are live, the slots above them hold whatever was
there before.  The buffer grows up to the capacity as slots are first written.

`Stack.toList` is the view that matters: the live values from bottom to top.  Every operation reads
and writes live slots only, so the view determines all answers.  An operation that needs a value or
a free slot takes the proof that there is one; the forms ending in `?` check for themselves.
-/

namespace GlyphHint

/-- A bounded stack over a buffer of slots. -/
structure Stack where
  /-- the greatest number of live values -/
  capacity : Nat
  /-- the slots written so far, live or stale -/
  slots : Array Int32
  /-- the number of live values -/
  top : Nat
  top_le_size : top ≤ slots.size
  size_le_capacity : slots.size ≤ capacity

namespace Stack

/-- The stack without values. -/
def empty (capacity : Nat) : Stack where
  capacity := capacity
  slots := #[]
  top := 0
  top_le_size := Nat.le_refl 0
  size_le_capacity := Nat.zero_le capacity

instance : Inhabited Stack := ⟨empty 0⟩

/-- The live values, bottom to top. -/
def toList (s : Stack) : List Int32 :=
  s.slots.toList.take s.top

/-- The number of live values. -/
def depth (s : Stack) : Nat :=
  s.top

/-- No value is live. -/
def isEmpty (s : Stack) : Bool :=
  s.top == 0

/-- There are free slots for `n` more values. -/
def hasRoom (s : Stack) (n : Nat) : Bool :=
  n ≤ s.capacity - s.top

/-- Drops all values. -/
def clear (s : Stack) : Stack where
  capacity := s.capacity
  slots := s.slots
  top := 0
  top_le_size := Nat.zero_le _
  size_le_capacity := s.size_le_capacity

/-- Puts a value on top of a stack that is not full. -/
@[inline] def push (s : Stack) (v : Int32) (room : s.top < s.capacity) : Stack :=
  if stale : s.top < s.slots.size then
    { capacity := s.capacity
      slots := s.slots.set s.top v stale
      top := s.top + 1
      top_le_size := by simpa using Nat.succ_le_of_lt stale
      size_le_capacity := by simpa using s.size_le_capacity }
  else
    { capacity := s.capacity
      slots := s.slots.push v
      top := s.top + 1
      top_le_size := by simpa using s.top_le_size
      size_le_capacity := by
        have := s.top_le_size
        simp only [Array.size_push]
        omega }

/-- Drops the top value; the empty stack stays as it is. -/
@[inline] def pop (s : Stack) : Stack where
  capacity := s.capacity
  slots := s.slots
  top := s.top - 1
  top_le_size := Nat.le_trans (Nat.sub_le _ _) s.top_le_size
  size_le_capacity := s.size_le_capacity

/-- The value `d` places below the top, the top itself being at place 0. -/
@[inline] def peek (s : Stack) (d : Nat) (live : d < s.top) : Int32 :=
  have written : s.top - 1 - d < s.slots.size := by have := s.top_le_size; omega
  s.slots[s.top - 1 - d]

/-- Overwrites the value `d` places below the top. -/
@[inline] def replace (s : Stack) (d : Nat) (v : Int32) (live : d < s.top) : Stack where
  capacity := s.capacity
  slots := s.slots.set (s.top - 1 - d) v (by have := s.top_le_size; omega)
  top := s.top
  top_le_size := by simpa using s.top_le_size
  size_le_capacity := by simpa using s.size_le_capacity

/-- Exchanges neighbouring slots from index `i` on, `n` times: the value of slot `i` moves up by
`n` places and the values it passes move down by one. -/
def carryUp (slots : Array Int32) (i : Nat) : Nat → Array Int32
  | 0 => slots
  | n + 1 => carryUp (slots.swapIfInBounds i (i + 1)) (i + 1) n

@[simp] theorem size_carryUp (slots : Array Int32) (i n : Nat) :
    (carryUp slots i n).size = slots.size := by
  induction n generalizing slots i with
  | zero => rfl
  | succ n ih => simp [carryUp, ih]

/-- Moves the value `d` places below the top onto the top and closes the gap. -/
@[inline] def lift (s : Stack) (d : Nat) : Stack where
  capacity := s.capacity
  slots := carryUp s.slots (s.top - 1 - d) d
  top := s.top
  top_le_size := by simpa using s.top_le_size
  size_le_capacity := by simpa using s.size_le_capacity

/-! ## Checked forms -/

/-- Puts a value on top unless the stack is full. -/
def push? (s : Stack) (v : Int32) : Option Stack :=
  if room : s.top < s.capacity then some (s.push v room) else none

/-- Takes the top value off, if there is one. -/
def pop? (s : Stack) : Option (Int32 × Stack) :=
  if live : 0 < s.top then some (s.peek 0 live, s.pop) else none

/-- The value `d` places below the top, if there is one. -/
def peek? (s : Stack) (d : Nat) : Option Int32 :=
  if live : d < s.top then some (s.peek d live) else none

/-- Overwrites the value `d` places below the top, if there is one, and gives the old value. -/
def replace? (s : Stack) (d : Nat) (v : Int32) : Option (Int32 × Stack) :=
  if live : d < s.top then some (s.peek d live, s.replace d v live) else none

/-- Moves the value `d` places below the top onto the top, if there is one. -/
def lift? (s : Stack) (d : Nat) : Option Stack :=
  if d < s.top then some (s.lift d) else none

/-! ## The view -/

@[simp] theorem toList_empty (capacity : Nat) : (empty capacity).toList = [] := rfl

@[simp] theorem toList_clear (s : Stack) : s.clear.toList = [] := rfl

@[simp] theorem length_toList (s : Stack) : s.toList.length = s.depth := by
  have := s.top_le_size
  simp [toList, depth, this]

theorem depth_le_capacity (s : Stack) : s.depth ≤ s.capacity :=
  Nat.le_trans s.top_le_size s.size_le_capacity

theorem hasRoom_iff (s : Stack) (n : Nat) : s.hasRoom n = true ↔ s.depth + n ≤ s.capacity := by
  have := s.depth_le_capacity
  simp only [hasRoom, depth, decide_eq_true_eq] at *
  omega

@[simp] theorem capacity_clear (s : Stack) : s.clear.capacity = s.capacity := rfl

@[simp] theorem capacity_pop (s : Stack) : s.pop.capacity = s.capacity := rfl

@[simp] theorem capacity_lift (s : Stack) (d : Nat) : (s.lift d).capacity = s.capacity := rfl

@[simp] theorem capacity_replace (s : Stack) (d : Nat) (v : Int32) (live : d < s.top) :
    (s.replace d v live).capacity = s.capacity := rfl

@[simp] theorem capacity_push (s : Stack) (v : Int32) (room : s.top < s.capacity) :
    (s.push v room).capacity = s.capacity := by
  unfold push
  split <;> rfl

@[simp] theorem toList_push (s : Stack) (v : Int32) (room : s.top < s.capacity) :
    (s.push v room).toList = s.toList ++ [v] := by
  have hle := s.top_le_size
  unfold push toList
  split
  · next stale =>
    have h : s.top < s.slots.toList.length := by simpa using stale
    rw [Array.toList_set, List.take_add_one, List.getElem?_set_self h,
      List.take_set_of_le (Nat.le_refl _)]
    rfl
  · next stale =>
    have h : s.slots.toList.length = s.top := by simp only [Array.length_toList]; omega
    have all : s.slots.toList.take s.top = s.slots.toList := by rw [← h, List.take_length]
    rw [Array.toList_push, all, List.take_of_length_le (by simp only [List.length_append, h]; simp)]

@[simp] theorem toList_pop (s : Stack) : s.pop.toList = s.toList.dropLast := by
  have hle := s.top_le_size
  rw [List.dropLast_eq_take, length_toList]
  simp only [pop, toList, depth, List.take_take]
  congr 1
  omega

theorem peek?_eq_getElem? (s : Stack) (d : Nat) :
    s.peek? d = s.toList.reverse[d]? := by
  have hle := s.top_le_size
  unfold peek?
  split
  · next live =>
    have hlen : d < s.toList.length := by rw [length_toList]; exact live
    rw [List.getElem?_reverse hlen, length_toList]
    simp only [peek, toList, depth, List.getElem?_take]
    rw [if_pos (by omega), Array.getElem?_toList, Array.getElem?_eq_getElem]
  · next live =>
    rw [List.getElem?_eq_none]
    rw [List.length_reverse, length_toList]
    exact Nat.le_of_not_lt live

@[simp] theorem toList_replace (s : Stack) (d : Nat) (v : Int32) (live : d < s.top) :
    (s.replace d v live).toList = s.toList.set (s.depth - 1 - d) v := by
  simp only [replace, toList, depth, Array.toList_set, List.take_set]

/-- Where each slot comes from when two neighbours are exchanged. -/
theorem getElem?_swapUp (slots : Array Int32) (i k : Nat) (h : i + 1 < slots.size) :
    (slots.swapIfInBounds i (i + 1))[k]? =
      if k = i then slots[i + 1]? else if k = i + 1 then slots[i]? else slots[k]? := by
  have hi : i < slots.size := by omega
  rw [Array.swapIfInBounds_def, dif_pos hi, dif_pos h, Array.getElem?_swap,
    Array.getElem?_eq_getElem hi, Array.getElem?_eq_getElem h]
  rcases Nat.lt_trichotomy k i with hk | rfl | hk
  · rw [if_neg (by omega), if_neg (by omega), if_neg (by omega), if_neg (by omega)]
  · rw [if_neg (by omega), if_pos rfl, if_pos rfl]
  · rw [if_neg (Nat.ne_of_gt hk)]
    by_cases hnext : k = i + 1
    · rw [if_pos hnext.symm, if_pos hnext]
    · rw [if_neg (Ne.symm hnext), if_neg (Nat.ne_of_lt hk), if_neg hnext]

/-- Where each slot of a carried buffer comes from. -/
theorem getElem?_carryUp (slots : Array Int32) (i n k : Nat) (h : i + n < slots.size) :
    (carryUp slots i n)[k]? =
      if k < i then slots[k]? else if k < i + n then slots[k + 1]?
      else if k = i + n then slots[i]? else slots[k]? := by
  induction n generalizing slots i with
  | zero =>
    rw [carryUp, Nat.add_zero]
    split
    · rfl
    · split
      · rename_i heq
        rw [heq]
      · rfl
  | succ n ih =>
    have hnext : i + 1 < slots.size := by omega
    have hsum : i + 1 + n = i + (n + 1) := by omega
    rw [carryUp, ih _ _ (by rw [Array.size_swapIfInBounds]; omega), hsum,
      getElem?_swapUp slots i k hnext, getElem?_swapUp slots i (k + 1) hnext,
      getElem?_swapUp slots i (i + 1) hnext]
    rcases Nat.lt_trichotomy k i with hk | rfl | hk
    · rw [if_pos (by omega), if_neg (by omega), if_neg (by omega), if_pos hk]
    · -- The value that moves up is replaced by the one it passes first.
      rw [if_pos (by omega), if_pos rfl, if_neg (by omega), if_pos (by omega)]
    · rw [if_neg (show ¬ k < i + 1 by omega), if_neg (show ¬ k < i by omega)]
      split
      · rw [if_neg (by omega), if_neg (by omega)]
      · split
        · rw [if_neg (by omega), if_pos rfl]
        · rw [if_neg (by omega), if_neg (by omega)]

/-- Lifting takes a value out and appends it. -/
theorem toList_lift (s : Stack) (d : Nat) (live : d < s.top) :
    (s.lift d).toList =
      s.toList.eraseIdx (s.depth - 1 - d) ++ [s.peek d live] := by
  have hle := s.top_le_size
  apply List.ext_getElem?
  intro k
  have hc := getElem?_carryUp s.slots (s.top - 1 - d) d k (by omega)
  simp only [lift, toList, depth, List.getElem?_take, Array.getElem?_toList, hc, peek,
    List.getElem?_append, List.length_eraseIdx, List.length_take, Array.length_toList,
    List.getElem?_eraseIdx]
  have hmin : min s.top s.slots.size = s.top := Nat.min_eq_left hle
  have hplace : s.top - 1 - d < s.top := by omega
  have hsum : s.top - 1 - d + d = s.top - 1 := by omega
  simp only [hmin, hplace, if_true, hsum]
  rcases Nat.lt_trichotomy k (s.top - 1) with hk | hk | hk
  · -- Below the new top the slots are those of the list without the lifted value.
    rw [if_pos (by omega), if_pos hk]
    split
    · rw [if_pos (by omega)]
    · rw [if_pos (by omega)]
  · rw [if_pos (by omega), if_neg (by omega), if_neg (by omega), if_pos hk, if_neg (by omega), hk,
      Nat.sub_self]
    exact Array.getElem?_eq_getElem (by omega)
  · rw [if_neg (by omega), if_neg (by omega), List.getElem?_eq_none]
    rw [List.length_singleton]
    omega

end Stack

end GlyphHint
