import GlyphHint.Proofs.Stack.BoundedList
set_option autoImplicit false

/-!
# The stack on an allocated buffer

A stack can be kept in a row of slots that is allocated once, the live ones in front and stale ones
behind them.  Here this is written down with every access to a slot, every subtraction and every
sum of indices checked, and a check that fails breaks the whole sequence of requests off
(`Buffer.Trap`).  Requests whose places are below the greatest machine word never break off, and
what can be seen of the buffer is what can be seen of the stack and of the bounded list
(`Stack.serveAll_refines_list`).

The invariant is `Buffer.Represents`: the slots are the values of the list, then stale ones.
-/

namespace GlyphHint

/-- A row of slots, of which the first `top` are live. -/
structure Buffer where
  slots : List Int32
  top : Nat

namespace Buffer

open Stack (Request Reply)

/-- Why a request breaks off. -/
inductive Trap where
  /-- an index or a range lies outside of the slots -/
  | outside
  /-- a difference of indices is negative -/
  | underflow
  /-- a sum of indices is no machine word -/
  | overflow
  deriving DecidableEq, Repr, Inhabited

/-! ## Checked operations -/

/-- Machine words are smaller. -/
def wordBound : Nat :=
  0x10000000000000000

/-- The sum of two indices. -/
def sum (m n : Nat) : Except Trap Nat :=
  if m + n < wordBound then .ok (m + n) else .error .overflow

/-- The difference of two indices. -/
def difference (m n : Nat) : Except Trap Nat :=
  if n ≤ m then .ok (m - n) else .error .underflow

/-- The value of a slot. -/
def read (slots : List Int32) (i : Nat) : Except Trap Int32 :=
  match slots[i]? with
  | some v => .ok v
  | none => .error .outside

/-- Overwrites a slot. -/
def write (slots : List Int32) (i : Nat) (v : Int32) : Except Trap (List Int32) :=
  if i < slots.length then .ok (slots.set i v) else .error .outside

/-- Copies the slots from `first` to below `last` to the place from `dest` on. -/
def copyWithin (slots : List Int32) (first last dest : Nat) : Except Trap (List Int32) :=
  if first ≤ last ∧ last ≤ slots.length ∧ dest + (last - first) ≤ slots.length then
    .ok (slots.take dest ++ (slots.take last).drop first ++ slots.drop (dest + (last - first)))
  else .error .outside

/-- The index `d` places below the top, if there is a live slot. -/
def place? (top d : Nat) : Except Trap (Option Nat) := do
  let below ← sum d 1
  return if below ≤ top then some (top - below) else none

/-- The live values, bottom to top. -/
def values (b : Buffer) : Except Trap (List Int32) :=
  if b.top ≤ b.slots.length then .ok (b.slots.take b.top) else .error .outside

/-! ## Requests -/

/-- A buffer of as many slots as the capacity says, none of them live. -/
def allocated (capacity : Nat) : Buffer :=
  ⟨List.replicate capacity 0, 0⟩

/-- Serves one request. -/
def serve (b : Buffer) : Request → Except Trap (Reply × Buffer)
  | .push v =>
    if b.top < b.slots.length then do
      let slots ← write b.slots b.top v
      let top ← sum b.top 1
      return (.flag true, ⟨slots, top⟩)
    else return (.flag false, b)
  | .pop =>
    if 1 ≤ b.top then do
      let v ← read b.slots (b.top - 1)
      return (.value (some v), { b with top := b.top - 1 })
    else return (.value none, b)
  | .peek d => do
    match ← place? b.top d with
    | none => return (.value none, b)
    | some i =>
      let v ← read b.slots i
      return (.value (some v), b)
  | .replace d v => do
    match ← place? b.top d with
    | none => return (.value none, b)
    | some i =>
      let old ← read b.slots i
      let slots ← write b.slots i v
      return (.value (some old), { b with slots := slots })
  | .lift d => do
    match ← place? b.top d with
    | none => return (.flag false, b)
    | some i =>
      let v ← read b.slots i
      let first ← sum i 1
      let closed ← copyWithin b.slots first b.top i
      let last ← difference b.top 1
      let slots ← write closed last v
      return (.flag true, { b with slots := slots })
  | .hasRoom n => do
    let free ← difference b.slots.length b.top
    return (.flag (decide (n ≤ free)), b)
  | .clear => return (.nothing, { b with top := 0 })

/-- What can be seen of a buffer behind a request. -/
def sight (reply : Reply) (b : Buffer) : Except Trap Sight := do
  let values ← b.values
  return ⟨reply, values, b.top, b.top == 0, b.slots.length⟩

/-- Serves requests in order and shows the buffer behind each. -/
def serveAll (b : Buffer) : List Request → Except Trap (List Sight)
  | [] => return []
  | r :: rest => do
    let (reply, next) ← b.serve r
    let seen ← next.sight reply
    let more ← serveAll next rest
    return seen :: more

/-- The place of a request, if it has one, is below the greatest machine word. -/
def Addressable : Request → Prop
  | .peek d | .replace d _ | .lift d => d + 1 < wordBound
  | _ => True

/-! ## The invariant -/

/-- The live slots hold the values of a list, and all slots are as many as the capacity says. -/
def Represents (b : Buffer) (capacity : Nat) (values : List Int32) : Prop :=
  ∃ stale, b = ⟨values ++ stale, values.length⟩ ∧ values.length + stale.length = capacity

variable {b : Buffer} {capacity : Nat} {values : List Int32}

theorem represents_allocated (capacity : Nat) : (allocated capacity).Represents capacity [] :=
  ⟨List.replicate capacity 0, rfl, by rw [List.length_nil, Nat.zero_add, List.length_replicate]⟩

/-- What can be seen of the buffer of a list is what can be seen of the list. -/
theorem Represents.sight (h : b.Represents capacity values) (reply : Reply) :
    b.sight reply = .ok (BoundedList.sight capacity (reply, values)) := by
  obtain ⟨stale, rfl, rfl⟩ := h
  have hempty : (values.length == 0) = values.isEmpty := by
    rw [Bool.eq_iff_iff, List.isEmpty_iff_length_eq_zero]
    exact beq_iff_eq
  unfold Buffer.sight Buffer.values
  simp only [List.length_append, Nat.le_add_right, if_true, List.take_left, hempty]
  rfl

section Places

variable {d : Nat} (before behind stale : List Int32) (v w : Int32)

/-- A place below the top has an index if a live value lies there. -/
theorem place?_of_split (haddress : behind.length + 1 < wordBound) :
    place? (before ++ v :: behind).length behind.length = .ok (some before.length) := by
  have hlength : (before ++ v :: behind).length = before.length + (behind.length + 1) := by
    rw [List.length_append, List.length_cons]
  unfold place? sum
  rw [if_pos haddress, hlength]
  exact congrArg Except.ok ((if_pos (Nat.le_add_left _ _)).trans
    (congrArg some (Nat.add_sub_cancel _ _)))

theorem place_of_split : (before ++ v :: behind).length - 1 - behind.length = before.length := by
  rw [List.length_append, List.length_cons]
  omega

theorem place?_of_le {top : Nat} (haddress : d + 1 < wordBound) (h : top ≤ d) :
    place? top d = .ok none := by
  unfold place? sum
  rw [if_pos haddress]
  exact congrArg Except.ok (if_neg (Nat.not_le.mpr (Nat.lt_succ_of_le h)))

theorem read_of_split : read (before ++ v :: behind) before.length = .ok v := by
  unfold read
  rw [List.getElem?_append_right (Nat.le_refl _), Nat.sub_self]
  rfl

theorem write_of_split :
    write (before ++ v :: behind) before.length w = .ok (before ++ w :: behind) := by
  have hinside : before.length < (before ++ v :: behind).length := by
    rw [List.length_append, List.length_cons]
    omega
  unfold write
  rw [if_pos hinside, List.set_append_right _ _ (Nat.le_refl _), Nat.sub_self]
  rfl

theorem sum_one {m n : Nat} (h : m < n) (hbound : n < wordBound) : sum m 1 = .ok (m + 1) :=
  if_pos (Nat.lt_of_le_of_lt (Nat.succ_le_of_lt h) hbound)

theorem difference_of_le {m n : Nat} (h : n ≤ m) : difference m n = .ok (m - n) :=
  if_pos h

/-- Closing the gap that a value leaves moves the live values above it down by one slot. -/
theorem copyWithin_of_split :
    ∃ u, copyWithin (before ++ v :: (behind ++ stale)) (before.length + 1)
      (before ++ v :: behind).length before.length = .ok (before ++ behind ++ u :: stale) := by
  have hlength : (before ++ v :: behind).length = before.length + 1 + behind.length := by
    rw [List.length_append, List.length_cons]
    omega
  have hslots : before ++ v :: (behind ++ stale) = before ++ v :: behind ++ stale := by
    rw [List.append_assoc, List.cons_append]
  have hmoved : (before ++ v :: behind).drop (before.length + 1) = behind := by
    rw [← List.drop_drop, List.drop_left]
    rfl
  -- The copy does not reach the last live slot.
  obtain ⟨init, u, hinit, hlive⟩ : ∃ init u, init.length = before.length + behind.length ∧
      before ++ v :: behind = init ++ [u] := by
    refine ⟨(before ++ v :: behind).dropLast, (before ++ v :: behind).getLast (by simp), ?_, ?_⟩
    · rw [List.length_dropLast, hlength]
      omega
    · rw [List.dropLast_concat_getLast]
  have hkept : (before ++ v :: behind ++ stale).drop (before.length + behind.length) =
      u :: stale := by
    rw [hlive, ← hinit, List.append_assoc, List.drop_left]
    rfl
  have hcount : before.length + ((before ++ v :: behind).length - (before.length + 1)) =
      before.length + behind.length := by
    omega
  have htotal : (before ++ v :: behind ++ stale).length =
      before.length + 1 + behind.length + stale.length := by
    rw [List.length_append, hlength]
  refine ⟨u, ?_⟩
  unfold copyWithin
  rw [hslots, hcount, if_pos (by omega), List.take_left, hmoved, hkept,
    List.append_assoc before, List.take_left]

end Places

/-! ## One request -/

/-- Serving the request does not break off, has the answer that the list gives and leaves the buffer
of the list that the request leaves. -/
def ServesAs (b : Buffer) (capacity : Nat) (values : List Int32) (r : Request) : Prop :=
  ∃ next, b.serve r = .ok ((BoundedList.serve capacity values r).1, next) ∧
    next.Represents capacity (BoundedList.serve capacity values r).2

namespace Represents

variable {d : Nat} (h : b.Represents capacity values)

include h

theorem serve_push (hcapacity : capacity < wordBound) (v : Int32) :
    b.ServesAs capacity values (.push v) := by
  obtain ⟨stale, rfl, rfl⟩ := h
  simp only [ServesAs, Buffer.serve, BoundedList.serve, List.length_append]
  cases stale with
  | nil =>
    rw [List.length_nil, Nat.add_zero, if_neg (Nat.lt_irrefl _), if_neg (Nat.lt_irrefl _)]
    exact ⟨_, rfl, [], rfl, rfl⟩
  | cons w stale =>
    have room : values.length < values.length + (w :: stale).length := by
      rw [List.length_cons]
      omega
    rw [if_pos room, if_pos room, write_of_split, sum_one room hcapacity]
    refine ⟨_, rfl, stale, ?_, ?_⟩
    · rw [List.append_assoc, List.length_append]
      rfl
    · rw [List.length_append, List.length_singleton, List.length_cons]
      omega

theorem serve_pop : b.ServesAs capacity values .pop := by
  obtain ⟨stale, rfl, rfl⟩ := h
  simp only [ServesAs, Buffer.serve, BoundedList.serve]
  rcases List.eq_nil_or_concat values with rfl | ⟨init, v, hvalues⟩
  · exact ⟨_, rfl, stale, rfl, rfl⟩
  · rw [List.concat_eq_append] at hvalues
    subst hvalues
    have hlast : (init ++ [v]).length - 1 = init.length := by simp
    have hslots : init ++ [v] ++ stale = init ++ v :: stale := by simp
    rw [if_pos (by simp), hlast, hslots, read_of_split, List.getLast?_concat, List.dropLast_concat]
    refine ⟨_, rfl, v :: stale, rfl, ?_⟩
    rw [List.length_append, List.length_singleton, List.length_cons]
    omega

theorem serve_peek (haddress : d + 1 < wordBound) : b.ServesAs capacity values (.peek d) := by
  obtain ⟨stale, rfl, rfl⟩ := h
  simp only [ServesAs, Buffer.serve, BoundedList.serve]
  rcases Nat.lt_or_ge d values.length with live | dead
  · obtain ⟨before, v, behind, rfl, rfl, hfound⟩ := BoundedList.exists_split_fromEnd? live
    have hread := read_of_split before (behind ++ stale) v
    rw [← List.cons_append, ← List.append_assoc] at hread
    rw [place?_of_split before behind v haddress, hfound]
    simp only [bind, Except.bind, hread]
    exact ⟨_, rfl, stale, rfl, rfl⟩
  · rw [place?_of_le haddress dead, BoundedList.fromEnd?_of_le dead]
    exact ⟨_, rfl, stale, rfl, rfl⟩

theorem serve_replace (haddress : d + 1 < wordBound) (v : Int32) :
    b.ServesAs capacity values (.replace d v) := by
  obtain ⟨stale, rfl, rfl⟩ := h
  simp only [ServesAs, Buffer.serve, BoundedList.serve]
  rcases Nat.lt_or_ge d values.length with live | dead
  · obtain ⟨before, old, behind, rfl, rfl, hfound⟩ := BoundedList.exists_split_fromEnd? live
    have hread := read_of_split before (behind ++ stale) old
    have hwrite := write_of_split before (behind ++ stale) old v
    rw [← List.cons_append, ← List.append_assoc] at hread hwrite
    rw [place?_of_split before behind old haddress, if_pos live, hfound]
    simp only [bind, Except.bind, hread, hwrite]
    rw [place_of_split, List.set_append_right _ _ (Nat.le_refl _), Nat.sub_self]
    refine ⟨_, rfl, stale, ?_, ?_⟩
    · simp
    · simp
  · rw [place?_of_le haddress dead, if_neg (Nat.not_lt.mpr dead)]
    exact ⟨_, rfl, stale, rfl, rfl⟩

theorem serve_lift (hcapacity : capacity < wordBound) (haddress : d + 1 < wordBound) :
    b.ServesAs capacity values (.lift d) := by
  obtain ⟨stale, rfl, rfl⟩ := h
  simp only [ServesAs, Buffer.serve, BoundedList.serve]
  rcases Nat.lt_or_ge d values.length with live | dead
  · obtain ⟨before, v, behind, rfl, rfl, hfound⟩ := BoundedList.exists_split_fromEnd? live
    obtain ⟨u, hclosed⟩ := copyWithin_of_split before behind stale v
    have hread := read_of_split before (behind ++ stale) v
    have hwrite := write_of_split (before ++ behind) stale u v
    have hslots : before ++ v :: behind ++ stale = before ++ v :: (behind ++ stale) := by simp
    have hlast : (before ++ v :: behind).length - 1 = (before ++ behind).length := by simp
    have hinside : before.length < (before ++ v :: behind).length + stale.length := by
      simp
      omega
    rw [place?_of_split before behind v haddress, hfound, hslots, place_of_split,
      List.eraseIdx_append_of_length_le (Nat.le_refl _), Nat.sub_self, List.eraseIdx_cons_zero]
    simp only [bind, Except.bind, hread, sum_one hinside hcapacity, hclosed,
      difference_of_le (Nat.succ_le_of_lt (Nat.zero_lt_of_lt live)), hlast, hwrite]
    refine ⟨_, rfl, stale, ?_, ?_⟩
    · simp
    · simp
  · rw [place?_of_le haddress dead, BoundedList.fromEnd?_of_le dead]
    exact ⟨_, rfl, stale, rfl, rfl⟩

theorem serve_hasRoom (n : Nat) : b.ServesAs capacity values (.hasRoom n) := by
  obtain ⟨stale, rfl, rfl⟩ := h
  simp only [ServesAs, Buffer.serve, BoundedList.serve, List.length_append]
  rw [difference_of_le (Nat.le_add_right _ _), Nat.add_sub_cancel_left]
  simp only [Nat.add_le_add_iff_left]
  exact ⟨_, rfl, stale, rfl, rfl⟩

theorem serve_clear : b.ServesAs capacity values .clear := by
  obtain ⟨stale, rfl, rfl⟩ := h
  exact ⟨_, rfl, values ++ stale, rfl, by simp [BoundedList.serve]⟩

/-- A buffer of a list serves every request as the list does. -/
theorem serve (hcapacity : capacity < wordBound) {r : Request} (haddress : Addressable r) :
    b.ServesAs capacity values r := by
  cases r with
  | push v => exact h.serve_push hcapacity v
  | pop => exact h.serve_pop
  | peek d => exact h.serve_peek haddress
  | replace d v => exact h.serve_replace haddress v
  | lift d => exact h.serve_lift hcapacity haddress
  | hasRoom n => exact h.serve_hasRoom n
  | clear => exact h.serve_clear

end Represents

/-! ## Sequences of requests -/

/-- Serving requests on the buffer of a list does not break off, and what can be seen is what can be
seen of the list. -/
theorem Represents.serveAll (h : b.Represents capacity values) (hcapacity : capacity < wordBound)
    {requests : List Request} (haddress : ∀ r ∈ requests, Addressable r) :
    b.serveAll requests =
      .ok ((BoundedList.serveAll capacity values requests).map (BoundedList.sight capacity)) := by
  induction requests generalizing b values with
  | nil => rfl
  | cons r rest ih =>
    obtain ⟨hr, hrest⟩ := List.forall_mem_cons.mp haddress
    obtain ⟨next, hserve, hnext⟩ := h.serve hcapacity hr
    simp only [Buffer.serveAll, bind, Except.bind, hserve, hnext.sight, ih hnext hrest]
    rfl

end Buffer

namespace Stack

/-- The stack refines a bounded list.  Whatever is requested of an empty stack, in any order and
number, what can be seen behind each request (its answer, the values, their number, whether there
are none, and the capacity) is what can be seen of the plain list with the capacity as its bound,
and the live values are never more than the capacity.  The same is seen of a buffer that is
allocated once and on which every access, difference and sum of indices is checked: with places
below the greatest machine word, no check fails. -/
theorem serveAll_refines_list (capacity : Nat) (requests : List Request) :
    ((empty capacity).serveAll requests).map sight =
      (BoundedList.serveAll capacity [] requests).map (BoundedList.sight capacity) ∧
    (∀ served ∈ (empty capacity).serveAll requests, served.2.top ≤ capacity) ∧
    (capacity < Buffer.wordBound → (∀ r ∈ requests, Buffer.Addressable r) →
      (Buffer.allocated capacity).serveAll requests =
        .ok (((empty capacity).serveAll requests).map sight)) := by
  have hsame := (empty capacity).serveAll_toList requests
  refine ⟨hsame, (empty capacity).top_le_of_mem_serveAll requests, ?_⟩
  intro hcapacity haddress
  rw [hsame]
  exact (Buffer.represents_allocated capacity).serveAll hcapacity haddress

/-- Fills a stack of three slots, asks for more, moves the lowest value up, and uses slots again
that hold dropped values. -/
def refillsSlots : List Request :=
  [.push 7, .push 8, .push 9, .push 1, .lift 2, .replace 1 5, .pop, .hasRoom 2, .clear, .peek 0,
    .push 4, .lift 1]

theorem serveAll_refines_list_refillsSlots :
    3 < Buffer.wordBound ∧ (∀ r ∈ refillsSlots, Buffer.Addressable r) ∧
      (Buffer.allocated 3).serveAll refillsSlots =
        .ok (((empty 3).serveAll refillsSlots).map sight) ∧
      (((empty 3).serveAll refillsSlots).map sight).map (fun seen => (seen.reply, seen.values)) =
        [(.flag true, [7]), (.flag true, [7, 8]), (.flag true, [7, 8, 9]),
          (.flag false, [7, 8, 9]), (.flag true, [8, 9, 7]), (.value (some 9), [8, 5, 7]),
          (.value (some 7), [8, 5]), (.flag false, [8, 5]), (.nothing, []), (.value none, []),
          (.flag true, [4]), (.flag false, [4])] := by
  have hcapacity : 3 < Buffer.wordBound := by decide
  have haddress : ∀ r ∈ refillsSlots, Buffer.Addressable r := by
    simp only [refillsSlots, List.forall_mem_cons]
    simp [Buffer.Addressable, Buffer.wordBound]
  obtain ⟨hsame, -, hbuffer⟩ := serveAll_refines_list 3 refillsSlots
  refine ⟨hcapacity, haddress, hbuffer hcapacity haddress, ?_⟩
  rw [hsame]
  rfl

end Stack

end GlyphHint
