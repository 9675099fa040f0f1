import GlyphHint.Proofs.WordMachine.Machine
set_option autoImplicit false

/-!
# Mirrored actions

An action on the buffer mirrors an action on the stack where it ends as that one does: with a
related answer or with the same cause, and on a buffer that holds the values which are left
(`Mirrors`).  So it never breaks off there.  Mirroring composes along the steps of an action
(`Mirrors.bind`), and the actions of the machine with words on its buffer mirror those of the
machine on its stack, one for one.
-/

namespace GlyphHint.WordMachine

/-- The buffer keeps the values of the stack in as many slots as the stack may have values, and
these are numbered by words. -/
structure Holds (b : Buffer) (s : Stack) : Prop where
  represents : b.Represents s.capacity s.toList
  words : s.capacity < 2 ^ 64

/-- What an action on a buffer came to agrees with what an action on a stack came to. -/
def Agrees {α β : Type} (R : α → β → Prop) :
    Option (Except Cause α × Buffer) → EStateM.Result Cause Stack β → Prop
  | r, .ok v t => ∃ w b, r = some (.ok w, b) ∧ R w v ∧ Holds b t
  | r, .error cause t => ∃ b, r = some (.error cause, b) ∧ Holds b t

/-- On every buffer that holds the values of the stack the one action ends as the other does on the
stack. -/
def Mirrors {α β : Type} (x : Action α) (y : GlyphHint.Action β) (R : α → β → Prop) (s : Stack) :
    Prop :=
  ∀ b, Holds b s → Agrees R (x b) (y s)

/-- The word is the number. -/
abbrev IsNat (w : UInt64) (n : Nat) : Prop :=
  w.toNat = n

/-- The signed word is the integer. -/
abbrev IsInt (w : Int64) (z : Int) : Prop :=
  w.toInt = z

variable {α β γ δ : Type} {s : Stack}

/-! ## Sequencing -/

theorem bind_of_ok {x : Action α} {f : α → Action γ} {a : α} {b c : Buffer}
    (h : x b = some (.ok a, c)) : (x >>= f) b = f a c := by
  simp only [bind, ExceptT.bind, ExceptT.mk, StateT.bind, h]
  rfl

theorem bind_of_error {x : Action α} {f : α → Action γ} {cause : Cause} {b c : Buffer}
    (h : x b = some (.error cause, c)) : (x >>= f) b = some (.error cause, c) := by
  simp only [bind, ExceptT.bind, ExceptT.mk, StateT.bind, h]
  rfl

/-- A result that is not refused goes into the steps behind it. -/
theorem some_bind (a : α) (f : α → Action γ) : (liftM (some a) : Action α) >>= f = f a :=
  rfl

theorem Mirrors.bind {x : Action α} {y : GlyphHint.Action β} {f : α → Action γ}
    {g : β → GlyphHint.Action δ} {R : α → β → Prop} {R' : γ → δ → Prop} (hx : Mirrors x y R s)
    (hf : ∀ w v t, R w v → y s = .ok v t → Mirrors (f w) (g v) R' t) :
    Mirrors (x >>= f) (y >>= g) R' s := by
  intro b hb
  have hagrees := hx b hb
  cases hrun : y s with
  | ok v t =>
    rw [hrun] at hagrees
    obtain ⟨w, c, hwords, hrelated, hc⟩ := hagrees
    rw [bind_of_ok hwords, Action.bind_of_ok hrun]
    exact hf w v t hrelated hrun c hc
  | error cause t =>
    rw [hrun] at hagrees
    obtain ⟨c, hwords, hc⟩ := hagrees
    rw [bind_of_error hwords, Action.bind_of_error hrun]
    exact ⟨c, rfl, hc⟩

theorem Mirrors.bind_some {o : Option α} {a : α} {f : α → Action γ} {y : GlyphHint.Action δ}
    {R : γ → δ → Prop} (ho : o = some a) (hf : Mirrors (f a) y R s) :
    Mirrors ((liftM o : Action α) >>= f) y R s := by
  rw [ho, some_bind]
  exact hf

theorem Mirrors.pure {a : α} {v : β} {R : α → β → Prop} (h : R a v) :
    Mirrors (Pure.pure a) (Pure.pure v) R s :=
  fun b hb => ⟨a, b, rfl, h, hb⟩

/-- A result that is not refused may be the last step. -/
theorem Mirrors.some {o : Option α} {a : α} {v : β} {R : α → β → Prop} (ho : o = some a)
    (h : R a v) : Mirrors (liftM o : Action α) (Pure.pure v) R s := by
  subst ho
  exact Mirrors.pure h

theorem Mirrors.stop (R : α → β → Prop) (cause : Cause) :
    Mirrors (WordMachine.stop cause) (GlyphHint.Action.stop cause) R s :=
  fun b hb => ⟨b, rfl, hb⟩

/-! ## Requests to the buffer -/

/-- The buffer answers a request as the stack does, and holds the values that the stack is left
with. -/
theorem request_of_holds {b : Buffer} (hb : Holds b s) {r : Stack.Request}
    (haddress : Buffer.Addressable r) :
    ∃ c, request r b = some (.ok (s.serve r).1, c) ∧ Holds c (s.serve r).2 := by
  obtain ⟨c, hserve, hc⟩ := hb.represents.serve hb.words haddress
  rw [← s.serve_toList r] at hserve hc
  refine ⟨c, ?_, ?_, ?_⟩
  · unfold request
    rw [hserve]
  · rw [s.capacity_serve r]
    exact hc
  · rw [s.capacity_serve r]
    exact hb.words

/-- What is done with the answer to a request mirrors an action if it ends as that one does. -/
theorem Mirrors.request {r : Stack.Request} {f : Stack.Reply → Action α}
    {y : GlyphHint.Action β} {R : α → β → Prop} (haddress : Buffer.Addressable r)
    (hf : ∀ c, Holds c (s.serve r).2 → Agrees R (f (s.serve r).1 c) (y s)) :
    Mirrors (WordMachine.request r >>= f) y R s := by
  intro b hb
  obtain ⟨c, hrequest, hc⟩ := request_of_holds hb haddress
  rw [bind_of_ok hrequest]
  exact hf c hc

theorem push_mirrors (v : Int32) : Mirrors (push v) (GlyphHint.Action.push v) Eq s := by
  refine Mirrors.request trivial fun c hc => ?_
  by_cases room : s.top < s.capacity
  · simp only [Stack.serve, Stack.push?, Action.push, room, dite_true] at hc ⊢
    exact ⟨(), c, rfl, rfl, hc⟩
  · simp only [Stack.serve, Stack.push?, Action.push, room, dite_false] at hc ⊢
    exact ⟨c, rfl, hc⟩

theorem pop_mirrors : Mirrors pop GlyphHint.Action.pop Eq s := by
  refine Mirrors.request trivial fun c hc => ?_
  by_cases live : 0 < s.top
  · simp only [Stack.serve, Stack.pop?, Action.pop, live, dite_true] at hc ⊢
    exact ⟨_, c, rfl, rfl, hc⟩
  · simp only [Stack.serve, Stack.pop?, Action.pop, live, dite_false] at hc ⊢
    exact ⟨c, rfl, hc⟩

theorem peek_mirrors {w : UInt64} {d : Nat} (hw : w.toNat = d) (hd : d + 1 < 2 ^ 64) :
    Mirrors (peek w) (GlyphHint.Action.peek d) Eq s := by
  subst hw
  refine Mirrors.request hd fun c hc => ?_
  by_cases live : w.toNat < s.top
  · simp only [Stack.serve, Stack.peek?, Action.peek, live, dite_true] at hc ⊢
    exact ⟨_, c, rfl, rfl, hc⟩
  · simp only [Stack.serve, Stack.peek?, Action.peek, live, dite_false] at hc ⊢
    exact ⟨c, rfl, hc⟩

theorem peek_zero_mirrors : Mirrors (peek 0) (GlyphHint.Action.peek 0) Eq s :=
  peek_mirrors rfl (by decide)

theorem replaceTop_mirrors (v : Int32) :
    Mirrors (replaceTop v) (GlyphHint.Action.replaceTop v) Eq s := by
  have haddress : Buffer.Addressable (.replace 0 v) := show 0 + 1 < Buffer.wordBound by decide
  refine Mirrors.request haddress fun c hc => ?_
  by_cases live : 0 < s.top
  · simp only [Stack.serve, Stack.replace?, Action.replaceTop, live, dite_true] at hc ⊢
    exact ⟨(), c, rfl, rfl, hc⟩
  · simp only [Stack.serve, Stack.replace?, Action.replaceTop, live, dite_false] at hc ⊢
    exact ⟨c, rfl, hc⟩

theorem lift_mirrors {w : UInt64} {d : Nat} (hw : w.toNat = d) (hd : d + 1 < 2 ^ 64) :
    Mirrors (lift w) (GlyphHint.Action.lift d) Eq s := by
  subst hw
  refine Mirrors.request hd fun c hc => ?_
  by_cases live : w.toNat < s.top
  · simp only [Stack.serve, Stack.lift?, Action.lift, live, if_true] at hc ⊢
    exact ⟨(), c, rfl, rfl, hc⟩
  · simp only [Stack.serve, Stack.lift?, Action.lift, live, if_false] at hc ⊢
    exact ⟨c, rfl, hc⟩

theorem needRoom_mirrors {w : UInt64} {n : Nat} (hw : w.toNat = n) :
    Mirrors (needRoom w) (GlyphHint.Action.needRoom n) Eq s := by
  subst hw
  refine Mirrors.request trivial fun c hc => ?_
  by_cases room : s.hasRoom w.toNat = true
  · simp only [Stack.serve, Action.needRoom, room, if_true] at hc ⊢
    exact ⟨(), c, rfl, rfl, hc⟩
  · simp only [Stack.serve, Action.needRoom, room] at hc ⊢
    exact ⟨c, rfl, hc⟩

theorem clear_mirrors : Mirrors clear GlyphHint.Action.clear Eq s :=
  Mirrors.request trivial fun c hc => ⟨(), c, rfl, rfl, hc⟩

/-- The number of live slots of a buffer is the number of values that it holds. -/
theorem Holds.top_eq {b : Buffer} (h : Holds b s) : b.top = s.depth := by
  obtain ⟨stale, rfl, -⟩ := h.represents
  exact s.length_toList

theorem Holds.depth_lt {b : Buffer} (h : Holds b s) : s.depth < 2 ^ 64 :=
  Nat.lt_of_le_of_lt s.depth_le_capacity h.words

theorem depth_mirrors : Mirrors depth GlyphHint.Action.depth IsNat s := by
  intro b hb
  refine ⟨UInt64.ofNat b.top, b, rfl, ?_, hb⟩
  show (UInt64.ofNat b.top).toNat = s.depth
  rw [hb.top_eq, UInt64.toNat_ofNat_of_lt' hb.depth_lt]

end GlyphHint.WordMachine
