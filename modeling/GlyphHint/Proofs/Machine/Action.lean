import GlyphHint.Machine.Step
set_option autoImplicit false

/-!
# What actions do to the values on the stack

The machine acts on a buffer with live and stale slots.  Here its actions are described by the live
values alone, listed from the top downwards (`Stack.topFirst`), so that the operands of an
instruction are the first members of a list.

Two judgements suffice.  `x.Gives s a vs` says that the action `x` succeeds on the stack `s` with
the answer `a` and leaves the values `vs`; `x.Refuses s c` says that it stops with the cause `c` and
leaves the very stack it started on, slots included.  Both compose along the steps of an action.
-/

namespace GlyphHint

namespace Stack

/-- The live values, top to bottom. -/
def topFirst (s : Stack) : List Int32 :=
  s.toList.reverse

@[simp] theorem length_topFirst (s : Stack) : s.topFirst.length = s.depth := by
  simp [topFirst]

@[simp] theorem reverse_topFirst (s : Stack) : s.topFirst.reverse = s.toList := by
  simp [topFirst]

theorem depth_of_topFirst (s : Stack) {vs : List Int32} (h : s.topFirst = vs) :
    s.depth = vs.length := by
  rw [← h, length_topFirst]

theorem exists_cons (s : Stack) (h : 1 ≤ s.depth) : ∃ v vs, s.topFirst = v :: vs := by
  rw [← length_topFirst] at h
  cases hvalues : s.topFirst with
  | nil => simp [hvalues] at h
  | cons v vs => exact ⟨v, vs, rfl⟩

theorem exists_cons_cons (s : Stack) (h : 2 ≤ s.depth) :
    ∃ b a vs, s.topFirst = b :: a :: vs := by
  obtain ⟨b, rest, hvalues⟩ := s.exists_cons (by omega)
  rw [← length_topFirst, hvalues] at h
  cases rest with
  | nil => simp at h
  | cons a vs => exact ⟨b, a, vs, hvalues⟩

@[simp] theorem topFirst_push (s : Stack) (v : Int32) (room : s.top < s.capacity) :
    (s.push v room).topFirst = v :: s.topFirst := by
  simp [topFirst]

@[simp] theorem topFirst_pop (s : Stack) : s.pop.topFirst = s.topFirst.tail := by
  simp [topFirst]

@[simp] theorem topFirst_clear (s : Stack) : s.clear.topFirst = [] := by
  simp [topFirst]

/-- The place a checked look-up reads is a place of the list. -/
theorem peek?_eq_topFirst (s : Stack) (d : Nat) : s.peek? d = s.topFirst[d]? :=
  s.peek?_eq_getElem? d

/-- A value at a place below the top is live, and looking there finds it. -/
theorem peek_of_topFirst {s : Stack} {d : Nat} {v : Int32} (h : s.topFirst[d]? = some v) :
    ∃ live : d < s.top, s.peek d live = v := by
  rw [← peek?_eq_topFirst] at h
  unfold peek? at h
  split at h
  · rename_i live
    exact ⟨live, Option.some.inj h⟩
  · cases h

theorem topFirst_replace_zero {s : Stack} {a : Int32} {vs : List Int32} (v : Int32)
    (live : 0 < s.top) (h : s.topFirst = a :: vs) : (s.replace 0 v live).topFirst = v :: vs := by
  have hlist : s.toList = vs.reverse ++ [a] := by
    rw [← reverse_topFirst, h, List.reverse_cons]
  have hdepth : s.depth - 1 - 0 = vs.reverse.length := by
    rw [← length_topFirst, h]
    simp
  rw [topFirst, toList_replace, hdepth, hlist, List.set_append_right _ _ (Nat.le_refl _)]
  simp

/-- Counting from the other end, an erased member is the mirrored one. -/
theorem reverse_eraseIdx_mirror (vs : List Int32) {d : Nat} (h : d < vs.length) :
    (vs.eraseIdx (vs.length - 1 - d)).reverse = vs.reverse.eraseIdx d := by
  have hnext : vs.length - 1 - d + 1 = vs.length - d := by omega
  have hplace : vs.length - 1 - d = vs.length - (d + 1) := by omega
  rw [List.eraseIdx_eq_take_drop_succ, List.eraseIdx_eq_take_drop_succ, List.reverse_append,
    List.take_reverse, List.drop_reverse, hnext, hplace]

/-- Lifting takes a value out of the list and puts it in front. -/
theorem topFirst_lift {s : Stack} {d : Nat} {v : Int32} (h : s.topFirst[d]? = some v) :
    (s.lift d).topFirst = v :: s.topFirst.eraseIdx d := by
  obtain ⟨live, hpeek⟩ := peek_of_topFirst h
  have hd : d < s.toList.length := by rw [length_toList]; exact live
  rw [topFirst, toList_lift s d live, hpeek, List.reverse_append, List.reverse_singleton,
    ← length_toList, reverse_eraseIdx_mirror _ hd]
  rfl

end Stack

namespace Action

variable {α β : Type}

/-- The action succeeds with an answer and leaves these values, top first, on a stack of the same
capacity. -/
def Gives (x : Action α) (s : Stack) (a : α) (vs : List Int32) : Prop :=
  ∃ t, x s = .ok a t ∧ t.topFirst = vs ∧ t.capacity = s.capacity

/-- The action stops and leaves the stack as it was. -/
def Refuses (x : Action α) (s : Stack) (cause : Cause) : Prop :=
  x s = .error cause s

/-! ## Sequencing -/

theorem bind_of_ok {x : Action α} {f : α → Action β} {s t : Stack} {a : α} (h : x s = .ok a t) :
    (x >>= f) s = f a t := by
  simp only [bind, EStateM.bind, h]

theorem bind_of_error {x : Action α} {f : α → Action β} {s t : Stack} {c : Cause}
    (h : x s = .error c t) : (x >>= f) s = .error c t := by
  simp only [bind, EStateM.bind, h]

/-- What a sequence does on a stack depends on its first part on this stack only. -/
theorem bind_congr_left {x y : Action α} {f : α → Action β} {s : Stack} (h : x s = y s) :
    (x >>= f) s = (y >>= f) s := by
  simp only [bind, EStateM.bind, h]

/-- What comes after a successful action may rely on the values it left. -/
theorem Gives.bind {x : Action α} {f : α → Action β} {s : Stack} {a : α} {b : β}
    {vs ws : List Int32} (hx : x.Gives s a vs)
    (hf : ∀ t : Stack, t.topFirst = vs → t.capacity = s.capacity → (f a).Gives t b ws) :
    (x >>= f).Gives s b ws := by
  obtain ⟨t, hrun, hvalues, hcapacity⟩ := hx
  obtain ⟨u, hrun', hvalues', hcapacity'⟩ := hf t hvalues hcapacity
  refine ⟨u, ?_, hvalues', hcapacity'.trans hcapacity⟩
  rw [bind_of_ok hrun]
  exact hrun'

/-- Reading first changes nothing about what follows. -/
theorem Gives.bind_read {x : Action α} {f : α → Action β} {s : Stack} {a : α} {b : β}
    {vs : List Int32} (hx : x s = .ok a s) (hf : (f a).Gives s b vs) : (x >>= f).Gives s b vs := by
  obtain ⟨t, hrun, hrest⟩ := hf
  exact ⟨t, (bind_of_ok hx).trans hrun, hrest⟩

theorem Gives.pure {s : Stack} {a : α} {vs : List Int32} (h : s.topFirst = vs) :
    (Pure.pure a : Action α).Gives s a vs :=
  ⟨s, rfl, h, rfl⟩

theorem Refuses.bind {x : Action α} {f : α → Action β} {s : Stack} {c : Cause}
    (hx : x.Refuses s c) : (x >>= f).Refuses s c :=
  bind_of_error hx

/-- A refusal after reading only is a refusal of the whole. -/
theorem Refuses.bind_read {x : Action α} {f : α → Action β} {s : Stack} {a : α} {c : Cause}
    (hx : x s = .ok a s) (hf : (f a).Refuses s c) : (x >>= f).Refuses s c :=
  (bind_of_ok hx).trans hf

theorem stop_refuses (s : Stack) (c : Cause) : (stop c : Action α).Refuses s c :=
  rfl

/-! ## The single actions -/

/-- Looking at a value reads only. -/
theorem peek_of_topFirst {s : Stack} {d : Nat} {v : Int32} (h : s.topFirst[d]? = some v) :
    peek d s = .ok v s := by
  obtain ⟨live, hpeek⟩ := Stack.peek_of_topFirst h
  simp only [peek, live, dite_true, hpeek]

theorem peek_zero {s : Stack} {v : Int32} {vs : List Int32} (h : s.topFirst = v :: vs) :
    peek 0 s = .ok v s :=
  peek_of_topFirst (by rw [h]; rfl)

theorem depth_ok (s : Stack) : depth s = .ok s.depth s :=
  rfl

theorem pop_gives {s : Stack} {v : Int32} {vs : List Int32} (h : s.topFirst = v :: vs) :
    pop.Gives s v vs := by
  obtain ⟨live, hpeek⟩ := Stack.peek_of_topFirst (s := s) (d := 0) (v := v) (by rw [h]; rfl)
  refine ⟨s.pop, ?_, by rw [Stack.topFirst_pop, h, List.tail_cons], rfl⟩
  simp only [pop, live, dite_true, hpeek]

theorem pop_refuses {s : Stack} (h : s.depth < 1) : pop.Refuses s .stackUnderflow := by
  have hempty : ¬ 0 < s.top := Nat.not_lt.mpr (Nat.le_of_lt_succ h)
  simp only [Refuses, pop, hempty, dite_false]

theorem push_gives {s : Stack} (v : Int32) (h : s.depth < s.capacity) :
    (push v).Gives s () (v :: s.topFirst) := by
  have room : s.top < s.capacity := h
  refine ⟨s.push v room, ?_, s.topFirst_push v room, s.capacity_push v room⟩
  simp only [push, room, dite_true]

theorem push_refuses {s : Stack} (v : Int32) (h : s.capacity ≤ s.depth) :
    (push v).Refuses s .stackOverflow := by
  have full : ¬ s.top < s.capacity := Nat.not_lt.mpr h
  simp only [Refuses, push, full, dite_false]

theorem replaceTop_gives {s : Stack} {a : Int32} {vs : List Int32} (v : Int32)
    (h : s.topFirst = a :: vs) : (replaceTop v).Gives s () (v :: vs) := by
  obtain ⟨live, -⟩ := Stack.peek_of_topFirst (s := s) (d := 0) (v := a) (by rw [h]; rfl)
  refine ⟨s.replace 0 v live, ?_, Stack.topFirst_replace_zero v live h, rfl⟩
  simp only [replaceTop, live, dite_true]

theorem lift_gives {s : Stack} {d : Nat} {v : Int32} (h : s.topFirst[d]? = some v) :
    (lift d).Gives s () (v :: s.topFirst.eraseIdx d) := by
  obtain ⟨live, -⟩ := Stack.peek_of_topFirst h
  refine ⟨s.lift d, ?_, Stack.topFirst_lift h, rfl⟩
  simp only [lift, live, if_true]

theorem clear_gives (s : Stack) : clear.Gives s () [] :=
  ⟨s.clear, rfl, s.topFirst_clear, rfl⟩

theorem needRoom_of_room {s : Stack} {n : Nat} (h : s.depth + n ≤ s.capacity) :
    needRoom n s = .ok () s := by
  simp only [needRoom, (s.hasRoom_iff n).mpr h, if_true]

theorem needRoom_refuses {s : Stack} {n : Nat} (h : s.capacity < s.depth + n) :
    (needRoom n).Refuses s .stackOverflow := by
  have full : ¬ s.hasRoom n = true := fun room => Nat.not_le.mpr h ((s.hasRoom_iff n).mp room)
  simp only [Refuses, needRoom, full, if_false, Bool.false_eq_true]

/-- Taking an index off: with `x` above the values `vs`, the place it names counts them from 1. -/
theorem popIndex_gives {s : Stack} {x : Int32} {vs : List Int32} (h : s.topFirst = x :: vs)
    (hpos : 0 < x.toInt) (hle : x.toInt ≤ vs.length) : popIndex.Gives s (x.toInt.toNat - 1) vs := by
  have hdepth : s.depth = vs.length + 1 := s.depth_of_topFirst h
  refine Gives.bind_read (peek_zero h) (Gives.bind_read (depth_ok s) ?_)
  have hindex : 0 < x.toInt ∧ x.toInt < (s.depth : Int) := ⟨hpos, by omega⟩
  simp only [hindex, and_self, if_true]
  exact Gives.bind (pop_gives h) fun t ht _ => Gives.pure ht

theorem popIndex_refuses {s : Stack} {x : Int32} {vs : List Int32} (h : s.topFirst = x :: vs)
    (hindex : ¬ (0 < x.toInt ∧ x.toInt ≤ vs.length)) : popIndex.Refuses s .invalidData := by
  have hdepth : s.depth = vs.length + 1 := s.depth_of_topFirst h
  refine Refuses.bind_read (peek_zero h) (Refuses.bind_read (depth_ok s) ?_)
  have hout : ¬ (0 < x.toInt ∧ x.toInt < (s.depth : Int)) := by omega
  rw [if_neg hout]
  exact stop_refuses s _

end Action

end GlyphHint
