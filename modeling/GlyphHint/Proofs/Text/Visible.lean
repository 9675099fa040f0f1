import GlyphHint.Report
import GlyphHint.Text.Hex
set_option autoImplicit false

/-!
# Visible texts

The numerals, coordinates, mnemonics and instructions that a command shows are made of visible
characters only (`Text.Visible`).  Control characters, such as line ends and the start of a colour,
stand in an output only where the output itself writes them.  So a text that is put together from
visible pieces can be read back by its line ends.
-/

namespace GlyphHint

namespace Text

/-- Every character of the text has a visible form. -/
def Visible (text : String) : Prop :=
  ∀ c ∈ text.toList, isInvisible c = false

instance (text : String) : Decidable (Visible text) :=
  List.decidableBAll _ text.toList

theorem Visible.not_mem {text : String} (h : Visible text) {c : Char} (hc : isInvisible c = true) :
    c ∉ text.toList := by
  intro hmem
  rw [h c hmem] at hc
  cases hc

@[simp] theorem visible_append {s t : String} : Visible (s ++ t) ↔ Visible s ∧ Visible t := by
  simp only [Visible, String.toList_append, List.forall_mem_append]

theorem visible_of_isDigit {c : Char} (h : c.isDigit = true) : isInvisible c = false := by
  simp only [Char.isDigit, Bool.and_eq_true, decide_eq_true_eq, ge_iff_le, UInt32.le_iff_toNat_le]
    at h
  obtain ⟨hlow, hhigh⟩ := h
  have hlow : 48 ≤ c.toNat := hlow
  have hhigh : c.toNat ≤ 57 := hhigh
  simp [isInvisible]
  omega

@[simp] theorem visible_repr (n : Nat) : Visible n.repr := by
  intro c hc
  apply visible_of_isDigit
  exact Nat.isDigit_of_mem_toDigits (by decide) (Nat.le_refl 10) (Nat.toList_repr ▸ hc)

@[simp] theorem visible_intRepr (z : Int) : Visible z.repr := by
  cases z with
  | ofNat n => exact visible_repr n
  | negSucc n =>
    change Visible ("-" ++ (n + 1).repr)
    simp +decide

theorem visible_alignRight {fill : Char} (hfill : isInvisible fill = false) (width : Nat)
    {text : String} (h : Visible text) : Visible (alignRight fill width text) := by
  refine visible_append.mpr ⟨?_, h⟩
  intro c hc
  rw [String.toList_ofList] at hc
  rwa [List.eq_of_mem_replicate hc]

theorem Visible.foldl {α : Type} {extend : String → α → String} {start : String}
    (hstart : Visible start) (h : ∀ text x, Visible text → Visible (extend text x))
    (items : List α) : Visible (items.foldl extend start) := by
  induction items generalizing start with
  | nil => exact hstart
  | cons x rest ih => exact ih (h start x hstart)

end Text

open Text

theorem visible_digitChar : ∀ n < 16, isInvisible (Nat.digitChar n) = false ∧
    isInvisible (Nat.digitChar n).toUpper = false := by
  decide

namespace Fixed

theorem fractionDigits_lt_ten {places r : Nat} (hr : r < 64) :
    ∀ d ∈ fractionDigits places r, d < 10 := by
  induction places generalizing r with
  | zero => simp [fractionDigits]
  | succ places ih =>
    intro d hd
    rw [fractionDigits] at hd
    split at hd
    · cases hd
    · rcases List.mem_cons.mp hd with rfl | hrest
      · omega
      · exact ih (Nat.mod_lt _ (by decide)) d hrest

theorem visible_fractionText {r : Nat} (hr : r < 64) : Visible (fractionText r) := by
  unfold fractionText
  split
  · decide
  · refine visible_append.mpr ⟨by decide, ?_⟩
    intro c hc
    rw [String.toList_ofList] at hc
    obtain ⟨d, hd, rfl⟩ := List.mem_map.mp hc
    have hlt := fractionDigits_lt_ten hr d hd
    exact (visible_digitChar d (by omega)).1

@[simp] theorem visible_decimal (v : Int32) : Visible (decimal v) := by
  have hsign : Visible (if v < 0 then "-" else "") := by
    split <;> decide
  have hfraction : Visible (fractionText (v.toInt.natAbs % 64)) :=
    visible_fractionText (Nat.mod_lt _ (by decide))
  exact visible_append.mpr ⟨visible_append.mpr ⟨hsign, visible_repr _⟩, hfraction⟩

end Fixed

namespace Opcode

/-- Every mnemonic of the table is visible. -/
theorem visible_rows : ∀ e ∈ rows, Visible e.mnemonic := by
  decide +kernel

theorem visible_mnemonic {o : Opcode} {name : String} (h : o.mnemonic? = some name) :
    Visible name := by
  obtain ⟨e, hentry, rfl⟩ := Option.map_eq_some_iff.mp h
  exact visible_rows e (List.mem_of_find?_eq_some hentry)

@[simp] theorem visible_text (o : Opcode) : Visible o.text := by
  unfold text
  split
  · next name hname => exact visible_mnemonic hname
  · have hlt : o.byte.toNat < 256 := o.byte.toNat_lt
    have hhigh := (visible_digitChar (o.byte.toNat / 16) (by omega)).2
    have hlow := (visible_digitChar (o.byte.toNat % 16) (by omega)).2
    intro c hc
    simp only [String.toList_ofList, List.mem_cons, List.not_mem_nil, or_false] at hc
    rcases hc with rfl | rfl | rfl | rfl
    · decide
    · decide
    · exact hhigh
    · exact hlow

end Opcode

@[simp] theorem Instr.visible_text (i : Instr) : Visible i.text := by
  unfold text
  split
  · apply Visible.foldl
    · simp +decide
    · intro line v hline
      simp +decide [hline]
  · exact i.opcode.visible_text

/-! ## Lines -/

namespace Text

/-- A text that is extended item by item is the row of the pieces that the items add. -/
theorem toList_foldl {α : Type} {extend : String → α → String} {piece : α → List Char}
    (h : ∀ text x, (extend text x).toList = text.toList ++ piece x) (items : List α)
    (start : String) : (items.foldl extend start).toList = start.toList ++ items.flatMap piece := by
  induction items generalizing start with
  | nil => rw [List.foldl_nil, List.flatMap_nil, List.append_nil]
  | cons x rest ih => rw [List.foldl_cons, ih, h, List.flatMap_cons, List.append_assoc]

/-- The lines of a text. -/
def lines (text : String) : List (List Char) :=
  text.toList.splitOn '\n'

/-- The text contains no line end. -/
def OneLine (text : String) : Prop :=
  '\n' ∉ text.toList

@[simp] theorem oneLine_append {s t : String} : OneLine (s ++ t) ↔ OneLine s ∧ OneLine t := by
  simp only [OneLine, String.toList_append, List.mem_append, not_or]

instance (text : String) : Decidable (OneLine text) :=
  inferInstanceAs (Decidable (_ ∉ _))

/-- A line end is not visible. -/
theorem Visible.oneLine {text : String} (h : Visible text) : OneLine text :=
  h.not_mem (by decide)

@[simp] theorem oneLine_repr (n : Nat) : OneLine n.repr :=
  (visible_repr n).oneLine

/-- Lines that each have a line end are read back, with nothing behind the last one. -/
theorem splitOn_lineEnds {rows : List (List Char)} (h : ∀ row ∈ rows, '\n' ∉ row) :
    (rows.flatMap (· ++ ['\n'])).splitOn '\n' = rows ++ [[]] := by
  induction rows with
  | nil => exact List.splitOn_nil '\n'
  | cons row rows ih =>
    obtain ⟨hrow, hrest⟩ := List.forall_mem_cons.mp h
    rw [List.flatMap_cons, List.append_assoc, List.singleton_append,
      List.splitOn_append_cons_self_of_not_mem hrow, ih hrest, List.cons_append]

end Text

end GlyphHint
