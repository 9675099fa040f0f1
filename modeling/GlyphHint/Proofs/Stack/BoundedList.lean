import GlyphHint.Stack.Request
set_option autoImplicit false

/-!
# The stack as a bounded list

A plain list with a bound serves the requests that a stack serves, with the last value on top.  The
stack keeps its values in a buffer with stale slots, and still nobody can tell it from the list: a
request has the same answer and leaves the same values (`Stack.serve_toList`), and so has every
sequence of requests (`Stack.serveAll_toList`).
-/

namespace GlyphHint

/-! ## The list -/

namespace BoundedList

open Stack (Request Reply)

/-- The value `d` places before the last one. -/
def fromEnd? (values : List Int32) (d : Nat) : Option Int32 :=
  if d < values.length then values[values.length - 1 - d]? else none

/-- Serves one request on a list with a bound. -/
def serve (bound : Nat) (values : List Int32) : Request → Reply × List Int32
  | .push v =>
    if values.length < bound then (.flag true, values ++ [v]) else (.flag false, values)
  | .pop => (.value values.getLast?, values.dropLast)
  | .peek d => (.value (fromEnd? values d), values)
  | .replace d v =>
    if d < values.length then
      (.value (fromEnd? values d), values.set (values.length - 1 - d) v)
    else (.value none, values)
  | .lift d =>
    match fromEnd? values d with
    | some v => (.flag true, values.eraseIdx (values.length - 1 - d) ++ [v])
    | none => (.flag false, values)
  | .hasRoom n => (.flag (decide (values.length + n ≤ bound)), values)
  | .clear => (.nothing, [])

/-- Serves requests in order; each answer comes with the list after it. -/
def serveAll (bound : Nat) (values : List Int32) : List Request → List (Reply × List Int32)
  | [] => []
  | r :: rest => serve bound values r :: serveAll bound (serve bound values r).2 rest

theorem fromEnd?_of_le {values : List Int32} {d : Nat} (h : values.length ≤ d) :
    fromEnd? values d = none :=
  if_neg (Nat.not_lt.mpr h)

/-- A value counted from the end has as many values behind it as places are counted. -/
theorem exists_split_fromEnd? {values : List Int32} {d : Nat} (h : d < values.length) :
    ∃ before v behind, values = before ++ v :: behind ∧ behind.length = d ∧
      fromEnd? values d = some v := by
  have hplace : values.length - 1 - d < values.length := by omega
  refine ⟨values.take (values.length - 1 - d), values[values.length - 1 - d],
    values.drop (values.length - 1 - d + 1), ?_, ?_, ?_⟩
  · rw [← List.drop_eq_getElem_cons hplace, List.take_append_drop]
  · rw [List.length_drop]
    omega
  · rw [fromEnd?, if_pos h, List.getElem?_eq_getElem hplace]

end BoundedList

/-! ## What a user sees -/

/-- What can be seen of a stack behind a request. -/
structure Sight where
  reply : Stack.Reply
  /-- the values, bottom to top -/
  values : List Int32
  depth : Nat
  isEmpty : Bool
  capacity : Nat
  deriving DecidableEq, Repr, Inhabited

/-- What can be seen of a bounded list behind a request. -/
def BoundedList.sight (bound : Nat) (served : Stack.Reply × List Int32) : Sight where
  reply := served.1
  values := served.2
  depth := served.2.length
  isEmpty := served.2.isEmpty
  capacity := bound

namespace Stack

open BoundedList (fromEnd?)

variable (s : Stack) (d : Nat)

/-- What can be seen of a stack behind a request. -/
def sight (served : Reply × Stack) : Sight where
  reply := served.1
  values := served.2.toList
  depth := served.2.depth
  isEmpty := served.2.isEmpty
  capacity := served.2.capacity

theorem isEmpty_eq : s.isEmpty = s.toList.isEmpty := by
  rw [Bool.eq_iff_iff, List.isEmpty_iff_length_eq_zero, length_toList]
  exact beq_iff_eq

/-! ## One request -/

theorem peek?_eq_fromEnd? : s.peek? d = fromEnd? s.toList d := by
  rw [peek?_eq_getElem?]
  unfold fromEnd?
  split
  · next h => rw [List.getElem?_reverse h]
  · next h =>
    rw [List.getElem?_eq_none]
    rw [List.length_reverse]
    exact Nat.not_lt.mp h

/-- A value that is there is the one counted from the end of the list. -/
theorem fromEnd?_toList (live : d < s.top) : fromEnd? s.toList d = some (s.peek d live) := by
  rw [← peek?_eq_fromEnd?, peek?, dif_pos live]

theorem getLast?_toList : s.toList.getLast? = s.peek? 0 := by
  rw [peek?_eq_getElem?, ← List.head?_eq_getElem?, List.head?_reverse]

/-- A request to a stack has the answer that the list of its values gives, and leaves the values
that it leaves on the list. -/
theorem serve_toList (r : Request) :
    ((s.serve r).1, (s.serve r).2.toList) = BoundedList.serve s.capacity s.toList r := by
  have hlength : s.toList.length = s.top := s.length_toList
  cases r with
  | push v =>
    unfold serve BoundedList.serve push?
    simp only [hlength]
    by_cases room : s.top < s.capacity
    · rw [dif_pos room, if_pos room]
      simp only [toList_push]
    · rw [dif_neg room, if_neg room]
  | pop =>
    unfold serve BoundedList.serve pop?
    rw [getLast?_toList]
    unfold peek?
    by_cases live : 0 < s.top
    · rw [dif_pos live, dif_pos live]
      simp only [toList_pop]
    · rw [dif_neg live, dif_neg live]
      have hnil : s.toList = [] := List.length_eq_zero_iff.mp (by omega)
      simp only [hnil, List.dropLast_nil]
  | peek d =>
    simp only [serve, BoundedList.serve, peek?_eq_fromEnd?]
  | replace d v =>
    unfold serve BoundedList.serve replace?
    simp only [hlength]
    by_cases live : d < s.top
    · rw [dif_pos live, if_pos live, s.fromEnd?_toList d live]
      simp only [toList_replace, depth]
    · rw [dif_neg live, if_neg live]
  | lift d =>
    unfold serve BoundedList.serve lift?
    simp only [hlength]
    by_cases live : d < s.top
    · rw [if_pos live, s.fromEnd?_toList d live]
      simp only [toList_lift s d live, depth]
    · rw [if_neg live, BoundedList.fromEnd?_of_le (by omega)]
  | hasRoom n =>
    simp only [serve, BoundedList.serve, length_toList, Prod.mk.injEq, and_true, Reply.flag.injEq]
    rw [Bool.eq_iff_iff, hasRoom_iff, decide_eq_true_eq]
  | clear => rfl

/-- No request changes the capacity. -/
theorem capacity_serve (r : Request) : (s.serve r).2.capacity = s.capacity := by
  cases r with
  | push v =>
    unfold serve push?
    by_cases room : s.top < s.capacity
    · simp only [dif_pos room, capacity_push]
    · simp only [dif_neg room]
  | pop =>
    unfold serve pop?
    by_cases live : 0 < s.top
    · simp only [dif_pos live, capacity_pop]
    · simp only [dif_neg live]
  | replace d v =>
    unfold serve replace?
    by_cases live : d < s.top
    · simp only [dif_pos live, capacity_replace]
    · simp only [dif_neg live]
  | lift d =>
    unfold serve lift?
    by_cases live : d < s.top
    · simp only [if_pos live, capacity_lift]
    · simp only [if_neg live]
  | peek d => rfl
  | hasRoom n => rfl
  | clear => rfl

/-- What can be seen behind a request is what can be seen of the list. -/
theorem sight_serve (r : Request) :
    sight (s.serve r) = BoundedList.sight s.capacity (BoundedList.serve s.capacity s.toList r) := by
  rw [← serve_toList]
  simp only [sight, BoundedList.sight, capacity_serve, length_toList, isEmpty_eq]

/-! ## Sequences of requests -/

/-- What can be seen behind each of several requests is what can be seen of the list. -/
theorem serveAll_toList (requests : List Request) :
    (s.serveAll requests).map sight =
      (BoundedList.serveAll s.capacity s.toList requests).map
        (BoundedList.sight s.capacity) := by
  induction requests generalizing s with
  | nil => rfl
  | cons r rest ih =>
    have hnext : (s.serve r).2.toList = (BoundedList.serve s.capacity s.toList r).2 := by
      rw [← serve_toList]
    rw [serveAll, BoundedList.serveAll, List.map_cons, List.map_cons, sight_serve, ih,
      capacity_serve, hnext]

/-- Whatever was requested, the live values are within the capacity. -/
theorem top_le_of_mem_serveAll (requests : List Request) :
    ∀ served ∈ s.serveAll requests, served.2.top ≤ s.capacity := by
  induction requests generalizing s with
  | nil => simp [serveAll]
  | cons r rest ih =>
    rw [serveAll, List.forall_mem_cons]
    refine ⟨?_, ?_⟩
    · rw [← s.capacity_serve r]
      exact (s.serve r).2.depth_le_capacity
    · intro served hserved
      rw [← s.capacity_serve r]
      exact ih (s.serve r).2 served hserved

end Stack

end GlyphHint
