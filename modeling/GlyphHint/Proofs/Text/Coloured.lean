import GlyphHint.Proofs.Text.Visible
set_option autoImplicit false

/-!
# Coloured texts

A colour is written as a sequence that starts with an escape character and `[` and ends with the
next `m`; `withoutSequences` deletes every such sequence from a text.  A text shows another one if
deleting its sequences leaves the other one, whatever follows (`Shows`); what follows matters,
because it could close a sequence that is open at the end.  The coloured reports and listings show
the plain ones.
-/

namespace GlyphHint

namespace Text

/-! ## Sequences -/

/-- The text without every sequence from an escape character and `[` to the next `m`. -/
def withoutSequences : List Char → List Char
  | '\x1b' :: '[' :: rest =>
    if 'm' ∈ rest then withoutSequences (rest.dropWhile (· != 'm')).tail else '\x1b' :: '[' :: rest
  | c :: rest => c :: withoutSequences rest
  | [] => []
termination_by text => text.length
decreasing_by
  · have hshorter := (List.dropWhile_suffix (· != 'm') (l := rest)).length_le
    simp only [List.length_tail, List.length_cons]
    omega
  · simp

@[simp] theorem withoutSequences_nil : withoutSequences [] = [] := by
  rw [withoutSequences]

theorem withoutSequences_cons {c : Char} (h : c ≠ '\x1b') (rest : List Char) :
    withoutSequences (c :: rest) = c :: withoutSequences rest := by
  rw [withoutSequences]
  rintro rest' rfl
  exact absurd rfl h

theorem withoutSequences_sequence {code : List Char} (h : 'm' ∉ code) (rest : List Char) :
    withoutSequences ('\x1b' :: '[' :: (code ++ 'm' :: rest)) = withoutSequences rest := by
  have hcode : ∀ c ∈ code, (c != 'm') = true := by
    intro c hc
    simpa using ne_of_mem_of_not_mem hc h
  rw [withoutSequences, if_pos (by simp), List.dropWhile_append_of_pos hcode]
  simp

/-! ## Showing a text -/

/-- Without its sequences, the text is the plain one, whatever follows. -/
def Shows (text plain : String) : Prop :=
  ∀ rest, withoutSequences (text.toList ++ rest) = plain.toList ++ withoutSequences rest

theorem Shows.withoutSequences_eq {text plain : String} (h : Shows text plain) :
    withoutSequences text.toList = plain.toList := by
  have hend := h []
  simpa using hend

theorem shows_self {text : String} (h : '\x1b' ∉ text.toList) : Shows text text := by
  have hkept : ∀ chars : List Char, '\x1b' ∉ chars → ∀ rest,
      withoutSequences (chars ++ rest) = chars ++ withoutSequences rest := by
    intro chars hchars rest
    induction chars with
    | nil => rfl
    | cons c chars ih =>
      simp only [List.mem_cons, not_or] at hchars
      obtain ⟨hc, hchars⟩ := hchars
      rw [List.cons_append, withoutSequences_cons (Ne.symm hc), ih hchars]
      rfl
  exact hkept text.toList h

theorem Visible.shows {text : String} (h : Visible text) : Shows text text :=
  shows_self (h.not_mem (by decide))

theorem Shows.append {s s' t t' : String} (h : Shows s t) (h' : Shows s' t') :
    Shows (s ++ s') (t ++ t') := by
  intro rest
  rw [String.toList_append, String.toList_append, List.append_assoc, List.append_assoc, h, h']

theorem Tint.not_mem_code (tint : Tint) : 'm' ∉ tint.code.toList := by
  cases tint <;> decide

/-- A painted text shows the text. -/
theorem Shows.paint {text plain : String} (h : Shows text plain) (colour : Bool) (tint : Tint) :
    Shows (paint colour tint text) plain := by
  cases colour with
  | false => exact h
  | true =>
    intro rest
    have hreset : 'm' ∉ ['0'] := by
      decide
    have hopen := withoutSequences_sequence tint.not_mem_code
      (text.toList ++ '\x1b' :: '[' :: (['0'] ++ 'm' :: rest))
    have hclose := withoutSequences_sequence hreset rest
    rw [h, hclose] at hopen
    simpa [Text.paint] using hopen

theorem Shows.foldl {α : Type} {extend extend' : String → α → String} {start start' : String}
    (hstart : Shows start start')
    (h : ∀ text plain x, Shows text plain → Shows (extend text x) (extend' plain x))
    (items : List α) : Shows (items.foldl extend start) (items.foldl extend' start') := by
  induction items generalizing start start' with
  | nil => exact hstart
  | cons x rest ih => exact ih (h start start' x hstart)

end Text

open Text

/-! ## Reports and listings -/

theorem shows_alignRight {fill : Char} (hfill : isInvisible fill = false) (width : Nat)
    {text : String} (h : Visible text) :
    Shows (alignRight fill width text) (alignRight fill width text) :=
  (visible_alignRight hfill width h).shows

theorem shows_lineEnd : Shows "\n" "\n" :=
  shows_self (by decide)

theorem Report.shows_labelLine (colour : Bool) {label : String} (h : Visible label) (n : Nat) :
    Shows (labelLine colour label n) (labelLine false label n) := by
  have hlabel : Shows (paint colour .dim label) label := h.shows.paint colour .dim
  have hblank : Shows " " " " := Visible.shows (by decide)
  have hnumber : Shows (paint colour .cyan (toString n)) (toString n) :=
    (visible_repr n).shows.paint colour .cyan
  exact ((hlabel.append hblank).append hnumber).append shows_lineEnd

theorem Report.shows_valueLine (colour : Bool) (index : Nat) (v : Int32) :
    Shows (valueLine colour index v) (valueLine false index v) := by
  have hblank : isInvisible ' ' = false := by
    decide
  have hgap : Shows "  " "  " := Visible.shows (by decide)
  have hindex := shows_alignRight hblank 4 (visible_repr index)
  have hvalue := shows_alignRight hblank 11 (visible_intRepr v.toInt)
  have hdecimal : Visible ("(" ++ Fixed.decimal v ++ ")") := by
    simp +decide
  have hcoordinate := hdecimal.shows.paint colour .dim
  exact (((((hgap.append hindex).append hgap).append hvalue).append hgap).append
    hcoordinate).append shows_lineEnd

/-- A report in colours shows the plain report. -/
theorem Report.shows_text (colour : Bool) (r : Report) : Shows (r.text colour) (r.text false) := by
  unfold text
  apply Shows.foldl
  · exact (shows_labelLine colour (by decide) _).append (shows_labelLine colour (by decide) _)
  · intro lines lines' ⟨v, index⟩ hlines
    exact hlines.append (shows_valueLine colour index v)

theorem Instr.shows_tinted (colour : Bool) (i : Instr) :
    Shows (i.tinted colour) (i.tinted false) := by
  have htext : Shows i.text i.text := i.visible_text.shows
  unfold tinted
  split
  · exact htext
  · exact htext.paint colour .yellow
  · exact htext.paint colour .red

/-- A listing in colours shows the plain listing. -/
theorem Listing.shows_text (colour : Bool) (instrs : Array Instr) :
    Shows (Listing.text colour instrs) (Listing.text false instrs) := by
  unfold Listing.text
  rw [← Array.foldl_toList, ← Array.foldl_toList]
  apply Shows.foldl
  · exact shows_self (by decide)
  · intro lines lines' i hlines
    have hzero : isInvisible '0' = false := by
      decide
    have hoffset := shows_alignRight hzero 4 (visible_repr i.offset)
    have hcolon : Shows ": " ": " := Visible.shows (by decide)
    have hline : Shows (i.line colour) (i.line false) :=
      ((hoffset.append hcolon).append (i.shows_tinted colour)).append shows_lineEnd
    exact hlines.append hline

end GlyphHint
