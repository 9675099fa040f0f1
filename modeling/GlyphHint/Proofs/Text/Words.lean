import GlyphHint.Proofs.Text.Numeral
import Mathlib.Data.List.Basic
set_option autoImplicit false

/-!
# Words between blanks

The words of a row of characters are what stands between its blanks, however many blanks there are.
A row that is not empty and has no blank is solid, and solid rows are read back as the words of what
is written with blanks between them (`words_append`, `words_spaced`).  Numerals are solid.
-/

namespace GlyphHint.Text

/-- Characters without a blank, at least one of them. -/
structure Solid (cs : List Char) : Prop where
  noBlank : ' ' ∉ cs
  nonempty : cs ≠ []

/-- The words of a row of characters. -/
def words (cs : List Char) : List (List Char) :=
  (cs.splitOn ' ').filter (· ≠ [])

variable {w : List Char} {ws : List (List Char)}

@[simp] theorem words_nil : words [] = [] := by
  rw [words, List.splitOn_nil]
  rfl

@[simp] theorem words_blank (cs : List Char) : words (' ' :: cs) = words cs := by
  have hcut := List.splitOn_append_cons_self_of_not_mem (a := ' ') List.not_mem_nil cs
  rw [words, ← List.nil_append (' ' :: cs), hcut, List.filter_cons_of_neg (by simp)]
  rfl

/-- Blanks in front of a word do not count. -/
@[simp] theorem words_blanks (n : Nat) (cs : List Char) :
    words (List.replicate n ' ' ++ cs) = words cs := by
  induction n with
  | zero => rfl
  | succ n ih => rw [List.replicate_succ, List.cons_append, words_blank, ih]

theorem Solid.words_eq (h : Solid w) : words w = [w] := by
  rw [words, List.splitOn_eq_singleton h.noBlank,
    List.filter_cons_of_pos (by simpa using h.nonempty), List.filter_nil]

theorem words_append (h : Solid w) (cs : List Char) : words (w ++ ' ' :: cs) = w :: words cs := by
  rw [words, List.splitOn_append_cons_self_of_not_mem h.noBlank,
    List.filter_cons_of_pos (by simpa using h.nonempty)]
  rfl

/-- Words with one blank between two of them are read back. -/
theorem words_spaced (h : Solid w) (hs : ∀ v ∈ ws, Solid v) :
    words (w ++ ws.flatMap (' ' :: ·)) = w :: ws := by
  induction ws generalizing w with
  | nil => rw [List.flatMap_nil, List.append_nil, h.words_eq]
  | cons v ws ih =>
    obtain ⟨hv, hrest⟩ := List.forall_mem_cons.mp hs
    rw [List.flatMap_cons, List.cons_append, words_append h, ih hv hrest]

/-! ## Solid numerals -/

theorem Numeral.Canonical.solid {n : Numeral} (h : n.Canonical) : Solid n.text.toList where
  noBlank := by
    intro hc
    have hchar := Numeral.char_text h.digits hc
    revert hchar
    decide
  nonempty := n.text_ne_nil

theorem solid_intRepr (z : Int) : Solid z.repr.toList := by
  rw [← Numeral.text_ofInt]
  exact (Numeral.canonical_ofInt z).solid

theorem solid_repr (n : Nat) : Solid n.repr.toList :=
  solid_intRepr n

end GlyphHint.Text
