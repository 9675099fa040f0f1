import GlyphHint.Proofs.Branch.Bracket
set_option autoImplicit false

/-!
# Programs that are parts of others

Instructions look ahead for two things, the operands of a push and the end of an arm.  What they
find in a part of a program they find in the whole as well, moved by the bytes in front of the part;
only what they miss there can lie in the bytes behind it.
-/

namespace GlyphHint

namespace Program

/-- The program is a part of another one, which goes on from offset `k` with its bytes. -/
structure PartOf (p program : Program) (k : Nat) : Prop where
  fits : k + p.size ≤ program.size
  window : program.extract k (k + p.size) = p

theorem partOf_append (p q : Program) : p.PartOf (p ++ q) 0 where
  fits := by simp
  window := by simp

theorem partOf_append_right (front p : Program) : p.PartOf (front ++ p) front.size where
  fits := by simp
  window := by simp

namespace PartOf

variable {p program : Program} {k : Nat}

/-- The bytes of the part are found in the whole, and the whole has no others there unless it goes
on behind the part. -/
theorem getElem? (h : p.PartOf program k) (i : Nat) :
    program[k + i]? = p[i]? ∨ (k + p.size < program.size ∧ p.size ≤ i) := by
  have hbyte : (program.extract k (k + p.size))[i]? = p[i]? := by rw [h.window]
  have hfits := h.fits
  rcases Nat.lt_or_ge i p.size with hi | hi
  · left
    rw [Array.getElem?_extract, if_pos (by omega)] at hbyte
    exact hbyte
  · rcases Nat.eq_or_lt_of_le hfits with hend | hmore
    · left
      rw [Array.getElem?_eq_none hi, Array.getElem?_eq_none (by omega)]
    · right
      exact ⟨hmore, hi⟩

theorem getElem?_of_lt (h : p.PartOf program k) {i : Nat} (hi : i < p.size) :
    program[k + i]? = p[i]? := by
  rcases h.getElem? i with hbyte | ⟨-, hge⟩
  · exact hbyte
  · omega

theorem extract (h : p.PartOf program k) {i j : Nat} (hj : j ≤ p.size) :
    program.extract (k + i) (k + j) = p.extract i j := by
  have hwindow : (program.extract k (k + p.size)).extract i j = p.extract i j := by rw [h.window]
  rw [Array.extract_extract, Nat.min_eq_left (by omega)] at hwindow
  exact hwindow

/-- A push has its number of values in the whole if it has it in the part. -/
theorem pushCount? (h : p.PartOf program k) (pc : Nat) (shape : PushShape) :
    program.pushCount? (k + pc) shape = p.pushCount? pc shape ∨
      (k + p.size < program.size ∧ p.pushCount? pc shape = none) := by
  obtain ⟨width, count⟩ := shape
  cases count with
  | inline n => exact Or.inl rfl
  | prefixed =>
    rcases h.getElem? (pc + 1) with hbyte | ⟨hmore, hend⟩
    · left
      simp only [Program.pushCount?, Nat.add_assoc, hbyte]
    · right
      exact ⟨hmore, by simp only [Program.pushCount?, Array.getElem?_eq_none hend, Option.map_none]⟩

/-- An arm that ends in the part is one of the whole. -/
theorem endsArm_iff (h : p.PartOf program k) {start e : Nat} (stopAtElse : Bool)
    (he : e < p.size) :
    Branch.EndsArm program (k + start) stopAtElse (k + e) ↔
      Branch.EndsArm p start stopAtElse e := by
  have hbytes : program.extract (k + start + 1) (k + e) = p.extract (start + 1) e := by
    rw [Nat.add_assoc]
    exact h.extract (Nat.le_of_lt he)
  have hbyte := h.getElem?_of_lt he
  have hfits := h.fits
  constructor
  · rintro ⟨hbehind, -, hmark, harm⟩
    rw [hbyte] at hmark
    rw [hbytes] at harm
    exact ⟨by omega, he, hmark, harm⟩
  · rintro ⟨hbehind, -, hmark, harm⟩
    rw [← hbyte] at hmark
    rw [← hbytes] at harm
    exact ⟨by omega, by omega, hmark, harm⟩

/-- An arm ends in the whole where it ends in the part. -/
theorem matching? (h : p.PartOf program k) (start : Nat) (stopAtElse : Bool) :
    Branch.matching? program (k + start) stopAtElse =
        (Branch.matching? p start stopAtElse).map (k + ·) ∨
      (k + p.size < program.size ∧ Branch.matching? p start stopAtElse = none) := by
  cases hmatch : Branch.matching? p start stopAtElse with
  | some e =>
    left
    have hends := Branch.matching?_eq_some_iff.mp hmatch
    exact Branch.matching?_eq_some_iff.mpr ((h.endsArm_iff stopAtElse hends.inside).mpr hends)
  | none =>
    rcases Nat.eq_or_lt_of_le h.fits with hend | hmore
    · left
      apply Branch.matching?_eq_none_iff.mpr
      intro e hends
      -- An end in the whole lies behind the start of the part, and so in the part.
      have hbehind := hends.behind
      have hinside := hends.inside
      have hplace : k + (e - k) = e := by omega
      rw [← hplace, h.endsArm_iff stopAtElse (by omega)] at hends
      exact Branch.matching?_eq_none_iff.mp hmatch _ hends
    · right
      exact ⟨hmore, rfl⟩

end PartOf

end Program

end GlyphHint
