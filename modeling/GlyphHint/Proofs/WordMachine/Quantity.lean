import GlyphHint.Limits
import Mathlib.Tactic.NormNum
set_option autoImplicit false

/-!
# Integers of a machine with words

A machine has no unbounded integers: offsets and counters are words of 64 bits, a program counter is
a signed word, and a result that its type does not hold wraps around or traps.  Here every integer
that such a machine computes while it runs a program is a `Quantity`, which has a type and, for a
program of some size under some limits, a range (`Quantity.InRange`).  The types hold the ranges
(`Quantity.InRange.holds`).

What becomes of a result outside of its type is left to a `Policy`, which sees the exact result and
may refuse it; a result that is not refused is whatever the words of the machine make of it.  With
a policy that admits the ranges, a result in its range is exact.
-/

namespace GlyphHint.WordMachine

/-! ## Types and ranges -/

/-- The types of a machine's integers. -/
inductive IntType where
  | unsigned64
  | signed64
  | signed32
  deriving DecidableEq, Repr, Inhabited

/-- The least integer of a type. -/
def IntType.least : IntType → Int
  | .unsigned64 => 0
  | .signed64 => -2 ^ 63
  | .signed32 => -2 ^ 31

/-- The integer above the greatest one of a type. -/
def IntType.bound : IntType → Int
  | .unsigned64 => 2 ^ 64
  | .signed64 => 2 ^ 63
  | .signed32 => 2 ^ 31

/-- The type holds the integer. -/
def IntType.Holds (t : IntType) (z : Int) : Prop :=
  t.least ≤ z ∧ z < t.bound

instance (t : IntType) (z : Int) : Decidable (t.Holds z) :=
  inferInstanceAs (Decidable (_ ∧ _))

/-- The bounds of a run, as words. -/
structure Limits where
  maxProgramLength : UInt64
  stackCapacity : UInt64
  maxSteps : UInt64
  deriving DecidableEq, Repr, Inhabited

/-- The bounds as numbers. -/
def Limits.exact (limits : Limits) : GlyphHint.Limits where
  maxProgramLength := limits.maxProgramLength.toNat
  stackCapacity := limits.stackCapacity.toNat
  maxSteps := limits.maxSteps.toNat

/-- What an integer stands for that a machine computes while it runs a program. -/
inductive Quantity where
  /-- the step counter, one step on -/
  | steps
  /-- a program counter that is not negative, as an offset -/
  | fetched
  /-- an offset, as a program counter -/
  | place
  /-- the program counter one byte behind an offset -/
  | behind
  /-- the target of a jump -/
  | target
  /-- the offset of the count or of the values of a push -/
  | operands
  /-- the number of bytes of the values of a push -/
  | valueBytes
  /-- the offset behind a push -/
  | pushEnd
  /-- the position of a scan for the end of an arm -/
  | scanned
  /-- the number of conditionals that such a scan is in -/
  | nesting
  /-- an index on the stack, as an offset -/
  | index
  /-- the place that an index names -/
  | indexed
  /-- the number of values on the stack, as a value -/
  | depth
  deriving DecidableEq, Repr, Inhabited

namespace Quantity

/-- The type of the integer. -/
def type : Quantity → IntType
  | .place | .behind | .target => .signed64
  | .depth => .signed32
  | _ => .unsigned64

/-- The range of the integer in the runs of a program of this size under these limits. -/
def InRange (limits : Limits) (size : Nat) : Quantity → Int → Prop
  | .steps, z => 0 < z ∧ z ≤ max 1 limits.maxSteps.toNat
  | .fetched, z => 0 ≤ z ∧ z < size + 2 ^ 31
  | .place, z | .behind, z | .operands, z | .nesting, z => 0 ≤ z ∧ z ≤ size
  | .target, z => -2 ^ 31 ≤ z ∧ z < size + 2 ^ 31
  | .valueBytes, z => 0 ≤ z ∧ z ≤ 510
  | .pushEnd, z | .scanned, z => 0 ≤ z ∧ z < size + 512
  | .index, z => 0 < z ∧ z < 2 ^ 31
  | .indexed, z => 0 ≤ z ∧ z < limits.stackCapacity.toNat
  | .depth, z => 0 ≤ z ∧ z ≤ limits.stackCapacity.toNat

instance (limits : Limits) (size : Nat) (z : Int) : ∀ q, Decidable (InRange limits size q z)
  | .steps | .fetched | .place | .behind | .target | .operands | .valueBytes | .pushEnd | .scanned
  | .nesting | .index | .indexed | .depth => inferInstanceAs (Decidable (_ ∧ _))

/-- For a program of up to `2 ^ 62` bytes every type holds the range of its integer, apart from that
of a depth, which does so for a capacity below `2 ^ 31`. -/
theorem InRange.holds {limits : Limits} {size : Nat} {q : Quantity} {z : Int}
    (h : q.InRange limits size z) (hsize : size ≤ 2 ^ 62)
    (hdepth : q = .depth → limits.stackCapacity.toNat < 2 ^ 31) : q.type.Holds z := by
  have hsteps := limits.maxSteps.toNat_lt
  have hslots := limits.stackCapacity.toNat_lt
  unfold IntType.Holds
  cases q with
  | depth =>
    have hcapacity := hdepth rfl
    simp only [InRange, type, IntType.least, IntType.bound] at h ⊢
    omega
  | _ =>
    simp only [InRange, type, IntType.least, IntType.bound] at h ⊢
    omega

/-- A word that is in the range of its quantity has not wrapped around. -/
theorem InRange.lt_of_unsigned {limits : Limits} {size : Nat} {q : Quantity} {n : Nat}
    (h : q.InRange limits size n) (hsize : size ≤ 2 ^ 62) (htype : q.type = .unsigned64) :
    n < 2 ^ 64 := by
  have hholds := h.holds hsize (by rintro rfl; cases htype)
  rw [htype] at hholds
  exact Int.ofNat_lt.mp hholds.2

end Quantity

/-! ## Policies -/

/-- Which results a machine does not refuse, by what they stand for. -/
abbrev Policy := Quantity → Int → Bool

namespace Policy

/-- Refuses nothing, so that results wrap around. -/
def wrapping : Policy :=
  fun _ _ => true

/-- Traps where the type of a result does not hold it. -/
def trapping : Policy :=
  fun q z => decide (q.type.Holds z)

/-- Refuses whatever is out of its range. -/
def strict (limits : Limits) (size : Nat) : Policy :=
  fun q z => decide (q.InRange limits size z)

/-- The policy refuses no result in its range. -/
def Admits (policy : Policy) (limits : Limits) (size : Nat) : Prop :=
  ∀ q z, Quantity.InRange limits size q z → policy q z = true

/-- A result of the machine, unless the policy refuses the exact one. -/
def allow {α : Type} (policy : Policy) (q : Quantity) (exact : Int) (result : α) : Option α :=
  if policy q exact then some result else none

/-- The sum of two words. -/
def add (policy : Policy) (q : Quantity) (a b : UInt64) : Option UInt64 :=
  policy.allow q (a.toNat + b.toNat) (a + b)

/-- The difference of two words. -/
def sub (policy : Policy) (q : Quantity) (a b : UInt64) : Option UInt64 :=
  policy.allow q (a.toNat - b.toNat) (a - b)

/-- The product of two words. -/
def mul (policy : Policy) (q : Quantity) (a b : UInt64) : Option UInt64 :=
  policy.allow q (a.toNat * b.toNat) (a * b)

/-- The sum of two signed words. -/
def addSigned (policy : Policy) (q : Quantity) (a b : Int64) : Option Int64 :=
  policy.allow q (a.toInt + b.toInt) (a + b)

/-- A word as a signed one. -/
def toSigned (policy : Policy) (q : Quantity) (a : UInt64) : Option Int64 :=
  policy.allow q a.toNat a.toInt64

/-- A signed word as an unsigned one. -/
def toUnsigned (policy : Policy) (q : Quantity) (a : Int64) : Option UInt64 :=
  policy.allow q a.toInt a.toUInt64

/-- A word as a value on the stack, cut to 32 bits. -/
def toValue (policy : Policy) (q : Quantity) (a : UInt64) : Option Int32 :=
  policy.allow q a.toNat a.toUInt32.toInt32

variable {policy : Policy} {limits : Limits} {size : Nat} {q : Quantity}

theorem admits_wrapping : wrapping.Admits limits size :=
  fun _ _ _ => rfl

theorem admits_strict : (strict limits size).Admits limits size :=
  fun _ _ h => decide_eq_true h

theorem admits_trapping (hsize : size ≤ 2 ^ 62) (hcapacity : limits.stackCapacity.toNat < 2 ^ 31) :
    trapping.Admits limits size :=
  fun _ _ h => decide_eq_true (h.holds hsize fun _ => hcapacity)

theorem Admits.allow_eq {α : Type} (h : policy.Admits limits size) {exact : Int}
    (hrange : q.InRange limits size exact) (result : α) :
    policy.allow q exact result = some result :=
  if_pos (h q exact hrange)

section Exact

variable (h : policy.Admits limits size) (hsize : size ≤ 2 ^ 62)

include h hsize

/-- A sum in its range is exact. -/
theorem Admits.add {a b : UInt64} (hrange : q.InRange limits size (a.toNat + b.toNat : Nat))
    (htype : q.type = .unsigned64) :
    ∃ c, policy.add q a b = some c ∧ c.toNat = a.toNat + b.toNat := by
  refine ⟨a + b, h.allow_eq hrange _, ?_⟩
  rw [UInt64.toNat_add, Nat.mod_eq_of_lt (hrange.lt_of_unsigned hsize htype)]

/-- A product in its range is exact. -/
theorem Admits.mul {a b : UInt64} (hrange : q.InRange limits size (a.toNat * b.toNat : Nat))
    (htype : q.type = .unsigned64) :
    ∃ c, policy.mul q a b = some c ∧ c.toNat = a.toNat * b.toNat := by
  refine ⟨a * b, h.allow_eq hrange _, ?_⟩
  rw [UInt64.toNat_mul, Nat.mod_eq_of_lt (hrange.lt_of_unsigned hsize htype)]

/-- A signed sum in its range is exact. -/
theorem Admits.addSigned {a b : Int64} (hrange : q.InRange limits size (a.toInt + b.toInt))
    (htype : q.type = .signed64) :
    ∃ c, policy.addSigned q a b = some c ∧ c.toInt = a.toInt + b.toInt := by
  obtain ⟨hlow, hhigh⟩ : q.type.Holds (a.toInt + b.toInt) :=
    hrange.holds hsize (by rintro rfl; cases htype)
  simp only [htype, IntType.least, IntType.bound] at hlow hhigh
  refine ⟨a + b, h.allow_eq hrange _, ?_⟩
  rw [Int64.toInt_add]
  exact Int.bmod_eq_of_le (by norm_num; omega) (by norm_num; omega)

/-- A word in the range of a signed quantity is the same number as a signed word. -/
theorem Admits.toSigned {a : UInt64} (hrange : q.InRange limits size a.toNat)
    (htype : q.type = .signed64) :
    ∃ c, policy.toSigned q a = some c ∧ c.toInt = a.toNat := by
  have hhigh : (a.toNat : Int) < q.type.bound :=
    (hrange.holds hsize (by rintro rfl; cases htype)).2
  simp only [htype, IntType.bound] at hhigh
  refine ⟨a.toInt64, h.allow_eq hrange _, ?_⟩
  have hhalf : 2 * a.toBitVec.toNat < 2 ^ 64 := by
    rw [UInt64.toNat_toBitVec]
    omega
  exact BitVec.toInt_eq_toNat_of_lt hhalf

end Exact

/-- A difference in its range is exact. -/
theorem Admits.sub (h : policy.Admits limits size) {a b : UInt64}
    (hrange : q.InRange limits size (a.toNat - b.toNat)) (hle : b.toNat ≤ a.toNat) :
    ∃ c, policy.sub q a b = some c ∧ c.toNat = a.toNat - b.toNat :=
  ⟨a - b, h.allow_eq hrange _, UInt64.toNat_sub_of_le a b hle⟩

/-- A signed word that is not negative is the same number as a word. -/
theorem Admits.toUnsigned (h : policy.Admits limits size) {a : Int64}
    (hrange : q.InRange limits size a.toInt) (hnonneg : 0 ≤ a.toInt) :
    ∃ c, policy.toUnsigned q a = some c ∧ c.toNat = a.toInt.toNat :=
  ⟨a.toUInt64, h.allow_eq hrange _, Int64.toNat_toUInt64_of_le (Int64.le_iff_toInt_le.mpr hnonneg)⟩

/-- A word as a value has the low bits of its number. -/
theorem Admits.toValue (h : policy.Admits limits size) {a : UInt64}
    (hrange : q.InRange limits size a.toNat) :
    policy.toValue q a = some (Int32.ofNat a.toNat) :=
  h.allow_eq hrange _

end Policy

end GlyphHint.WordMachine
