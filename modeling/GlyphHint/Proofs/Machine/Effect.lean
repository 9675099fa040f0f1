import GlyphHint.Proofs.Machine.Action
set_option autoImplicit false

/-!
# The effect of an instruction on a bounded list

`Op.effect` says what every operation does to a list of values under a capacity: where control goes
next and which values are left, or why the operation is refused.  It reads no slot and changes
nothing when it refuses.  The machine's own `Action.perform` follows it on every stack that is deep
enough for the operation (`Action.perform_follows`), so whatever is decided by the list is decided
for the machine.
-/

namespace GlyphHint

/-- The immediates of a width from an offset on, first to last. -/
def Program.immediates (program : Program) (width : Width) (offset n : Nat) : List Int32 :=
  (List.range n).filterMap fun i => program.immediate? width (offset + width.bytes * i)

/-- What an operation at `pc` does to the values `vs`, the top first: the next program counter with
the values left, or the cause of its refusal. -/
def Op.effect (program : Program) (pc capacity : Nat) (op : Op) (vs : List Int32) :
    Except Cause (Int × List Int32) :=
  match op, vs with
  | .elseArm, vs =>
    match Branch.matching? program pc false with
    | some offset => .ok (offset + 1, vs)
    | none => .error .unbalanced
  | .endIf, vs => .ok (pc + 1, vs)
  | .debug, vs => .ok (pc + 1, vs)
  | .ifNonzero, condition :: vs =>
    if condition = 0 then
      match Branch.matching? program pc true with
      | some offset => .ok (offset + 1, vs)
      | none => .error .unbalanced
    else .ok (pc + 1, vs)
  | .jump, offset :: vs => .ok (pc + offset.toInt, vs)
  | .jumpWhen truth, condition :: offset :: vs =>
    .ok (if (condition != 0) = truth then pc + offset.toInt else pc + 1, vs)
  | .dup, v :: vs =>
    if vs.length + 1 < capacity then .ok (pc + 1, v :: v :: vs) else .error .stackOverflow
  | .pop, _ :: vs => .ok (pc + 1, vs)
  | .clear, _ => .ok (pc + 1, [])
  | .swap, b :: a :: vs => .ok (pc + 1, a :: b :: vs)
  | .depth, vs =>
    if vs.length < capacity then .ok (pc + 1, Int32.ofNat vs.length :: vs)
    else .error .stackOverflow
  | .copyIndexed, x :: vs =>
    match vs[x.toInt.toNat - 1]? with
    | some v => if 0 < x.toInt then .ok (pc + 1, v :: vs) else .error .invalidData
    | none => .error .invalidData
  | .moveIndexed, x :: vs =>
    match vs[x.toInt.toNat - 1]? with
    | some v =>
      if 0 < x.toInt then .ok (pc + 1, v :: vs.eraseIdx (x.toInt.toNat - 1))
      else .error .invalidData
    | none => .error .invalidData
  | .push shape, vs =>
    match program.pushCount? pc shape with
    | none => .error .insufficientData
    | some n =>
      if capacity < vs.length + n then .error .stackOverflow
      else if pc + shape.size n ≤ program.size then
        .ok (pc + shape.size n,
          (program.immediates shape.width (pc + shape.headSize) n).reverse ++ vs)
      else .error .insufficientData
  | .unary f, a :: vs => .ok (pc + 1, f.eval a :: vs)
  | .binary f, b :: a :: vs => .ok (pc + 1, f.eval a b :: vs)
  | .divide, b :: a :: vs =>
    match Fixed.div? a b with
    | some q => .ok (pc + 1, q :: vs)
    | none => .error .divisionByZero
  | _, _ => .error .stackUnderflow

/-! ## Where control goes -/

/-- Where an operation at `pc` passes control. -/
inductive Op.Goes (program : Program) (pc : Nat) : Op → Int → Prop where
  /-- on to the next byte -/
  | on {op : Op} (h : ∀ shape, op ≠ .push shape) : Goes program pc op (pc + 1)
  /-- behind the end of an arm -/
  | behindArm {op : Op} {stopAtElse : Bool} {e : Nat} (hop : op = .elseArm ∨ op = .ifNonzero)
      (h : Branch.matching? program pc stopAtElse = some e) : Goes program pc op (e + 1)
  /-- behind the last value of a push -/
  | behindPush {shape : PushShape} {n : Nat} (hcount : program.pushCount? pc shape = some n)
      (hfits : pc + shape.size n ≤ program.size) :
      Goes program pc (.push shape) (pc + shape.size n : Nat)
  /-- anywhere -/
  | away {op : Op} (hop : op = .jump ∨ ∃ truth, op = .jumpWhen truth) (target : Int) :
      Goes program pc op target

namespace Op

variable {program : Program} {pc capacity : Nat} {op : Op} {vs ws : List Int32} {next : Int}

/-- Control always goes on behind the instruction. -/
def Straight : Op → Prop
  | .elseArm | .ifNonzero | .jump | .jumpWhen _ => False
  | _ => True

theorem Straight.next_eq (hstraight : op.Straight) (hpush : ∀ shape, op ≠ .push shape)
    (h : op.effect program pc capacity vs = .ok (next, ws)) : next = pc + 1 := by
  revert h
  -- Each case of the effect is a refusal, names the next byte, or is one of another operation.
  fun_cases effect program pc capacity op vs <;> rintro ⟨⟩ <;>
    first | rfl | exact absurd rfl (hpush _) | cases hstraight

theorem goes_of_elseArm (h : effect program pc capacity .elseArm vs = .ok (next, ws)) :
    Goes program pc .elseArm next := by
  simp only [effect] at h
  split at h
  · rename_i hmatch
    cases h
    exact .behindArm (Or.inl rfl) hmatch
  · cases h

theorem goes_of_ifNonzero (h : effect program pc capacity .ifNonzero vs = .ok (next, ws)) :
    Goes program pc .ifNonzero next := by
  cases vs with
  | nil => cases h
  | cons condition vs =>
    simp only [effect] at h
    split at h
    · split at h
      · rename_i hmatch
        cases h
        exact .behindArm (Or.inr rfl) hmatch
      · cases h
    · cases h
      exact .on (by simp)

theorem goes_of_push {shape : PushShape}
    (h : effect program pc capacity (.push shape) vs = .ok (next, ws)) :
    Goes program pc (.push shape) next := by
  simp only [effect] at h
  split at h
  · cases h
  · rename_i hcount
    split at h
    · cases h
    · split at h
      · rename_i hfits
        cases h
        exact .behindPush hcount hfits
      · cases h

theorem goes_of_effect (h : op.effect program pc capacity vs = .ok (next, ws)) :
    op.Goes program pc next := by
  cases op with
  | elseArm => exact goes_of_elseArm h
  | ifNonzero => exact goes_of_ifNonzero h
  | push shape => exact goes_of_push h
  | jump => exact .away (Or.inl rfl) next
  | jumpWhen truth => exact .away (Or.inr ⟨truth, rfl⟩) next
  | _ =>
    obtain rfl := Straight.next_eq (by trivial) (by simp) h
    exact .on (by simp)

end Op

/-! ## Immediates -/

namespace Program

/-- An immediate whose bytes lie in the program has a value. -/
theorem immediate?_isSome {program : Program} {width : Width} {offset : Nat}
    (h : offset + width.bytes ≤ program.size) : (program.immediate? width offset).isSome := by
  cases width with
  | byte =>
    have hbyte : offset < program.size := h
    simp [immediate?, hbyte]
  | word =>
    have hhi : offset < program.size := by simp only [Width.bytes] at h; omega
    have hlo : offset + 1 < program.size := h
    simp [immediate?, hhi, hlo]

theorem immediates_succ {program : Program} {width : Width} {offset n : Nat} {v : Int32}
    (h : program.immediate? width offset = some v) :
    program.immediates width offset (n + 1) =
      v :: program.immediates width (offset + width.bytes) n := by
  have hshift : ∀ i, offset + width.bytes * (i + 1) = offset + width.bytes + width.bytes * i := by
    intro i
    rw [Nat.mul_add, Nat.mul_one]
    omega
  simp only [immediates, List.range_succ_eq_map, List.filterMap_cons, Nat.mul_zero, Nat.add_zero, h,
    List.filterMap_map, Function.comp_def, Nat.succ_eq_add_one, hshift]

end Program

namespace Action

/-- Pushing immediates that lie in the program onto a stack with room for them puts them on top, the
last one uppermost. -/
theorem pushImmediates_gives {program : Program} {width : Width} {offset n : Nat} {s : Stack}
    (hfits : offset + width.bytes * n ≤ program.size) (hroom : s.depth + n ≤ s.capacity) :
    (pushImmediates program width offset n).Gives s ()
      ((program.immediates width offset n).reverse ++ s.topFirst) := by
  induction n generalizing offset s with
  | zero => exact Gives.pure rfl
  | succ n ih =>
    rw [Nat.mul_add, Nat.mul_one] at hfits
    have hfirst : offset + width.bytes ≤ program.size := by omega
    obtain ⟨v, hv⟩ := Option.isSome_iff_exists.mp (Program.immediate?_isSome hfirst)
    rw [Program.immediates_succ hv, List.reverse_cons, List.append_assoc]
    unfold pushImmediates
    rw [hv]
    refine Gives.bind (push_gives v (by omega)) fun t hvalues hcapacity => ?_
    have hdepth := t.depth_of_topFirst hvalues
    rw [List.length_cons, s.length_topFirst] at hdepth
    rw [List.singleton_append, ← hvalues]
    exact ih (by omega) (by omega)

/-! ## The machine follows the effect -/

/-- The action does on the stack what is said of the list. -/
def Follows (x : Action Int) (s : Stack) : Except Cause (Int × List Int32) → Prop
  | .ok (next, vs) => x.Gives s next vs
  | .error cause => x.Refuses s cause

theorem Follows.bind_read {α : Type} {x : Action α} {f : α → Action Int} {s : Stack} {a : α}
    {r : Except Cause (Int × List Int32)} (hx : x s = .ok a s) (hf : (f a).Follows s r) :
    (x >>= f).Follows s r := by
  cases r with
  | ok result => exact Gives.bind_read hx hf
  | error cause => exact Refuses.bind_read hx hf

/-- An indexed operation follows a rule on the indexed value: without one it is refused, and with
one it does what `f` says from the values below the index on. -/
theorem popIndex_follows {s : Stack} {x : Int32} {vs : List Int32} (h : s.topFirst = x :: vs)
    (left : Int32 → List Int32) {f : Nat → Action Int} {next : Int}
    (hf : ∀ v t, vs[x.toInt.toNat - 1]? = some v → t.topFirst = vs → t.depth < t.capacity →
      (f (x.toInt.toNat - 1)).Gives t next (left v)) :
    (popIndex >>= f).Follows s
      (match vs[x.toInt.toNat - 1]? with
        | some v => if 0 < x.toInt then .ok (next, left v) else .error .invalidData
        | none => .error .invalidData) := by
  by_cases hindex : 0 < x.toInt ∧ x.toInt ≤ vs.length
  · have hplace : x.toInt.toNat - 1 < vs.length := by omega
    rw [List.getElem?_eq_getElem hplace]
    simp only [hindex.1, if_true]
    refine Gives.bind (popIndex_gives h hindex.1 hindex.2) fun t hvalues hcapacity => ?_
    have hroom : t.depth < t.capacity := by
      have hfull := s.depth_le_capacity
      rw [s.depth_of_topFirst h, List.length_cons] at hfull
      rw [t.depth_of_topFirst hvalues, hcapacity]
      omega
    exact hf _ t (List.getElem?_eq_getElem hplace) hvalues hroom
  · have hrefuses : (popIndex >>= f).Refuses s .invalidData :=
      Refuses.bind (popIndex_refuses h hindex)
    split
    · rename_i v hv
      have hplace := (List.getElem?_eq_some_iff.mp hv).1
      rw [if_neg (by omega)]
      exact hrefuses
    · exact hrefuses

/-- Going to the end of an arm follows the scan for it. -/
theorem endOfArm_follows (program : Program) (pc : Nat) (stopAtElse : Bool) {s : Stack}
    {f : Nat → Action Int} {left : List Int32}
    (hf : ∀ offset, (f offset).Gives s (offset + 1) left) :
    (endOfArm program pc stopAtElse >>= f).Follows s
      (match Branch.matching? program pc stopAtElse with
        | some offset => .ok (offset + 1, left)
        | none => .error .unbalanced) := by
  unfold endOfArm
  cases Branch.matching? program pc stopAtElse with
  | some offset => exact Gives.bind_read rfl (hf offset)
  | none => exact Refuses.bind (stop_refuses s _)

/-- A push follows a rule on the room for it. -/
theorem push_follows {s : Stack} (v : Int32) {f : Unit → Action Int} {next : Int}
    {left : List Int32}
    (hf : ∀ t : Stack, t.topFirst = v :: s.topFirst → (f ()).Gives t next left) :
    (push v >>= f).Follows s
      (if s.depth < s.capacity then .ok (next, left) else .error .stackOverflow) := by
  split
  · rename_i hroom
    exact Gives.bind (push_gives v hroom) fun t ht _ => hf t ht
  · rename_i hfull
    exact Refuses.bind (push_refuses v (Nat.not_lt.mp hfull))

section Perform

variable (program : Program) (pc : Nat) {s : Stack}

theorem perform_ifNonzero_follows (hdeep : 1 ≤ s.depth) :
    (perform program pc .ifNonzero).Follows s
      (Op.ifNonzero.effect program pc s.capacity s.topFirst) := by
  obtain ⟨condition, vs, h⟩ := s.exists_cons hdeep
  rw [h]
  refine Follows.bind_read (peek_zero h) ?_
  by_cases hzero : condition = 0
  · simp only [Op.effect, hzero, if_true]
    refine endOfArm_follows program pc true fun offset => ?_
    exact Gives.bind (pop_gives h) fun t ht _ => Gives.pure ht
  · simp only [Op.effect, hzero, if_false]
    exact Gives.bind (pop_gives h) fun t ht _ => Gives.pure ht

theorem perform_swap_follows (hdeep : 2 ≤ s.depth) :
    (perform program pc .swap).Follows s (Op.swap.effect program pc s.capacity s.topFirst) := by
  have hcapacity := s.depth_le_capacity
  obtain ⟨b, a, vs, h⟩ := s.exists_cons_cons hdeep
  rw [h]
  refine Gives.bind (pop_gives h) fun t ht htc => Gives.bind (pop_gives ht) fun u hu huc => ?_
  have hdepth := s.depth_of_topFirst h
  have hroom := u.depth_of_topFirst hu
  simp only [List.length_cons] at hdepth
  -- Two slots have become free, so neither push can fail.
  refine Gives.bind (push_gives b (by omega)) fun w hw hwc => ?_
  have hroom' := w.depth_of_topFirst hw
  rw [hu, List.length_cons] at hroom'
  refine Gives.bind (push_gives a (by omega)) fun z hz _ => ?_
  exact Gives.pure (by rw [hz, hw, hu])

theorem perform_push_follows (shape : PushShape) (s : Stack) :
    (perform program pc (.push shape)).Follows s
      ((Op.push shape).effect program pc s.capacity s.topFirst) := by
  simp only [Op.effect, perform, s.length_topFirst]
  cases program.pushCount? pc shape with
  | none => exact stop_refuses s _
  | some n =>
    by_cases hfull : s.capacity < s.depth + n
    · simp only [hfull, if_true]
      exact Refuses.bind (needRoom_refuses hfull)
    · simp only [hfull, if_false]
      refine Follows.bind_read (needRoom_of_room (Nat.not_lt.mp hfull)) ?_
      split
      · rename_i hfits
        have hend : pc + shape.headSize + shape.width.bytes * n ≤ program.size := by
          simp only [PushShape.size] at hfits
          omega
        refine Gives.bind (pushImmediates_gives hend (Nat.not_lt.mp hfull)) fun t ht _ => ?_
        exact Gives.pure ht
      · exact stop_refuses s _

theorem perform_divide_follows (hdeep : 2 ≤ s.depth) :
    (perform program pc .divide).Follows s
      (Op.divide.effect program pc s.capacity s.topFirst) := by
  obtain ⟨b, a, vs, h⟩ := s.exists_cons_cons hdeep
  have hbelow : s.topFirst[1]? = some a := by rw [h]; rfl
  rw [h]
  refine Follows.bind_read (peek_zero h) (Follows.bind_read (peek_of_topFirst hbelow) ?_)
  simp only [Op.effect]
  cases Fixed.div? a b with
  | none => exact stop_refuses s _
  | some q =>
    refine Gives.bind (pop_gives h) fun t ht _ => ?_
    exact Gives.bind (replaceTop_gives q ht) fun u hu _ => Gives.pure hu

/-- On a stack that is deep enough for an operation the machine performs its effect. -/
theorem perform_follows (op : Op) (s : Stack) (hdeep : op.pops ≤ s.depth) :
    (perform program pc op).Follows s (op.effect program pc s.capacity s.topFirst) := by
  cases op with
  | elseArm => exact endOfArm_follows program pc false fun offset => Gives.pure rfl
  | endIf => exact Gives.pure rfl
  | debug => exact Gives.pure rfl
  | ifNonzero => exact perform_ifNonzero_follows program pc hdeep
  | jump =>
    obtain ⟨offset, vs, h⟩ := s.exists_cons hdeep
    rw [h]
    exact Gives.bind (pop_gives h) fun t ht _ => Gives.pure ht
  | jumpWhen truth =>
    obtain ⟨condition, offset, vs, h⟩ := s.exists_cons_cons hdeep
    rw [h]
    refine Gives.bind (pop_gives h) fun t ht _ => ?_
    exact Gives.bind (pop_gives ht) fun u hu _ => Gives.pure hu
  | dup =>
    obtain ⟨v, vs, h⟩ := s.exists_cons hdeep
    have hlength : s.depth = vs.length + 1 := s.depth_of_topFirst h
    rw [h]
    simp only [Op.effect, ← hlength]
    refine Follows.bind_read (peek_zero h) (push_follows v fun t ht => ?_)
    exact Gives.pure (by rw [ht, h])
  | pop =>
    obtain ⟨v, vs, h⟩ := s.exists_cons hdeep
    rw [h]
    exact Gives.bind (pop_gives h) fun t ht _ => Gives.pure ht
  | clear => exact Gives.bind (clear_gives s) fun t ht _ => Gives.pure ht
  | swap => exact perform_swap_follows program pc hdeep
  | depth =>
    refine Follows.bind_read (depth_ok s) ?_
    simp only [Op.effect, s.length_topFirst]
    exact push_follows _ fun t ht => Gives.pure ht
  | copyIndexed =>
    obtain ⟨x, vs, h⟩ := s.exists_cons hdeep
    rw [h]
    refine popIndex_follows h (fun v => v :: vs) fun v t hv ht hroom => ?_
    refine Gives.bind_read (peek_of_topFirst (by rw [ht]; exact hv)) ?_
    exact Gives.bind (push_gives v hroom) fun u hu _ => Gives.pure (by rw [hu, ht])
  | moveIndexed =>
    obtain ⟨x, vs, h⟩ := s.exists_cons hdeep
    rw [h]
    refine popIndex_follows h (fun v => v :: vs.eraseIdx (x.toInt.toNat - 1))
      fun v t hv ht _ => ?_
    refine Gives.bind (lift_gives (by rw [ht]; exact hv)) fun u hu _ => ?_
    exact Gives.pure (by rw [hu, ht])
  | push shape => exact perform_push_follows program pc shape s
  | unary f =>
    obtain ⟨a, vs, h⟩ := s.exists_cons hdeep
    rw [h]
    refine Gives.bind_read (peek_zero h) ?_
    exact Gives.bind (replaceTop_gives _ h) fun t ht _ => Gives.pure ht
  | binary f =>
    obtain ⟨b, a, vs, h⟩ := s.exists_cons_cons hdeep
    rw [h]
    refine Gives.bind (pop_gives h) fun t ht _ => ?_
    refine Gives.bind_read (peek_zero ht) ?_
    exact Gives.bind (replaceTop_gives _ ht) fun u hu _ => Gives.pure hu
  | divide => exact perform_divide_follows program pc hdeep

end Perform

/-- A performed operation had its effect. -/
theorem effect_of_perform_ok {program : Program} {pc : Nat} {op : Op} {s t : Stack} {next : Int}
    (hdeep : op.pops ≤ s.depth) (h : perform program pc op s = .ok next t) :
    op.effect program pc s.capacity s.topFirst = .ok (next, t.topFirst) ∧
      t.capacity = s.capacity := by
  have hfollows := perform_follows program pc op s hdeep
  cases heffect : op.effect program pc s.capacity s.topFirst with
  | error cause =>
    rw [heffect] at hfollows
    exact absurd (h.symm.trans hfollows) (by simp)
  | ok result =>
    rw [heffect] at hfollows
    obtain ⟨u, hrun, hvalues, hcapacity⟩ := hfollows
    obtain ⟨rfl, rfl⟩ := EStateM.Result.ok.inj (h.symm.trans hrun)
    exact ⟨by rw [hvalues], hcapacity⟩

/-- A failed operation was refused, and the stack is the one it was given. -/
theorem effect_of_perform_error {program : Program} {pc : Nat} {op : Op} {s t : Stack}
    {cause : Cause} (hdeep : op.pops ≤ s.depth)
    (h : perform program pc op s = .error cause t) :
    op.effect program pc s.capacity s.topFirst = .error cause ∧ t = s := by
  have hfollows := perform_follows program pc op s hdeep
  cases heffect : op.effect program pc s.capacity s.topFirst with
  | error found =>
    rw [heffect] at hfollows
    obtain ⟨rfl, rfl⟩ := EStateM.Result.error.inj (h.symm.trans hfollows)
    exact ⟨rfl, rfl⟩
  | ok result =>
    rw [heffect] at hfollows
    obtain ⟨u, hrun, -⟩ := hfollows
    exact absurd (h.symm.trans hrun) (by simp)

/-- A refused operation fails on the stack it was given. -/
theorem perform_of_effect_error {program : Program} {pc : Nat} {op : Op} {s : Stack}
    {cause : Cause} (hdeep : op.pops ≤ s.depth)
    (h : op.effect program pc s.capacity s.topFirst = .error cause) :
    perform program pc op s = .error cause s := by
  have hfollows := perform_follows program pc op s hdeep
  rw [h] at hfollows
  exact hfollows

end Action

end GlyphHint
