import GlyphHint.Report
import GlyphHint.Proofs.Fixed.Decimal
import GlyphHint.Proofs.Json.Mark
import GlyphHint.Proofs.Text.Visible
import GlyphHint.Proofs.Text.Words
set_option autoImplicit false

/-!
# What the reports of a run tell

The JSON report is the document of an object with the steps, the depth and the stack, and the report
for reading has a line for each of the steps and the depth and one for each value of the stack.  The
marks of the document and the words of the lines determine steps, depth and stack.
-/

namespace GlyphHint.Report

open Json Text

/-! ## The document -/

/-- The marks of an object with the steps, the depth and the stack of a run, in this order. -/
def documentMarks (steps depth : Nat) (stack : List Int32) : List Mark :=
  objectMarks [("steps", [.integer steps]), ("depth", [.integer depth]),
    ("stack", arrayMarks (stack.map fun v => [.integer v.toInt]))]

/-- A key on a line of its own, up to its value. -/
def memberHead (key : String) : List Char :=
  '\n' :: ' ' :: ' ' :: '"' :: (key.toList ++ ['"', ':', ' '])

section Cuts

variable {marks : List Mark} {text : List Char}

theorem cuts_memberHead (key : String) (value : List Mark)
    (hkey : ∀ c ∈ key.toList, 0x20 ≤ c.toNat ∧ c ≠ '"' ∧ c ≠ '\\')
    (behind : Cuts (value ++ marks) text) :
    Cuts (memberMarks key value ++ marks) (memberHead key ++ text) := by
  have hcolon : Cuts (.plain .colon :: (value ++ marks)) (':' :: ' ' :: text) :=
    .spelled (.plain .colon id) (behind.blanks [' '] (by decide))
  have hstring : Cuts (memberMarks key value ++ marks)
      (('"' :: (key.toList ++ ['"'])) ++ (':' :: ' ' :: text)) :=
    .spelled (.plain (.string (spelledUnits_plain hkey)) id) hcolon
  have h := hstring.blanks ['\n', ' ', ' '] (by decide)
  simpa [memberHead] using h

/-- The values behind the first one, each behind a comma and on a line of its own. -/
theorem cuts_values (vs : List Int32) (behind : Cuts marks text) :
    Cuts ((vs.map Int32.toInt).flatMap (fun z => [.plain .comma, .integer z]) ++ marks)
      (vs.flatMap (fun w => ",\n    ".toList ++ w.toInt.repr.toList) ++ text) := by
  induction vs with
  | nil => exact behind
  | cons v vs ih =>
    have hvalue := (Cuts.spelled (.integer v.toInt) ih).blanks "\n    ".toList (by decide)
    have h := Cuts.spelled (.plain .comma id) hvalue
    simpa [List.append_assoc] using h

theorem toList_jsonStack_cons (v : Int32) (vs : List Int32) :
    (jsonStack (v :: vs)).toList =
      "[\n    ".toList ++ (v.toInt.repr.toList ++
        (vs.flatMap (fun w => ",\n    ".toList ++ w.toInt.repr.toList) ++ "\n  ]".toList)) := by
  have hextend : ∀ (lines : String) (w : Int32), (lines ++ ",\n    " ++ toString w.toInt).toList =
      lines.toList ++ (",\n    ".toList ++ w.toInt.repr.toList) := by
    intro lines w
    rw [String.toList_append, String.toList_append, List.append_assoc, Int.toString_eq_repr]
  rw [jsonStack, String.toList_append, toList_foldl hextend, String.toList_append,
    Int.toString_eq_repr]
  simp only [List.append_assoc]

theorem cuts_jsonStack (stack : List Int32) (behind : Cuts marks text) :
    Cuts (arrayMarks (stack.map fun v => [.integer v.toInt]) ++ marks)
      ((jsonStack stack).toList ++ text) := by
  have hclose : Cuts (.plain .closeArray :: marks) (']' :: text) :=
    .spelled (.plain .closeArray id) behind
  cases stack with
  | nil =>
    have h := Cuts.spelled (.plain .openArray id) hclose
    simpa [arrayMarks, listedMarks, jsonStack] using h
  | cons v vs =>
    have hvalues := cuts_values vs (hclose.blanks "\n  ".toList (by decide))
    have hfirst := (Cuts.spelled (.integer v.toInt) hvalues).blanks "\n    ".toList (by decide)
    have h := Cuts.spelled (.plain .openArray id) hfirst
    have hmarks : (v :: vs).map (fun w => [Mark.integer w.toInt]) =
        (v.toInt :: vs.map Int32.toInt).map fun z => [Mark.integer z] := by
      simp
    rw [hmarks, arrayMarks, listedMarks_integers, toList_jsonStack_cons]
    simpa using h

end Cuts

/-- The text of the report, cut where its members start and end. -/
theorem toList_json (r : Report) :
    r.json.toList =
      ['\x7b'] ++ (memberHead "steps" ++ (r.steps.repr.toList ++ ([','] ++
        (memberHead "depth" ++ (r.stack.length.repr.toList ++ ([','] ++
          (memberHead "stack" ++ ((jsonStack r.stack).toList ++
            (['\n'] ++ ['\x7d', '\n']))))))))) := by
  have hopen : "\x7b\n  \"steps\": ".toList = ['\x7b'] ++ memberHead "steps" := by decide
  have hnext : ",\n  \"depth\": ".toList = [','] ++ memberHead "depth" := by decide
  have hlast : ",\n  \"stack\": ".toList = [','] ++ memberHead "stack" := by decide
  have hclose : "\n\x7d\n".toList = ['\n'] ++ ['\x7d', '\n'] := by decide
  unfold json
  simp only [String.toList_append, hopen, hnext, hlast, hclose, List.append_assoc,
    Nat.toString_eq_repr]

theorem documentMarks_eq (steps depth : Nat) (stack : List Int32) :
    documentMarks steps depth stack =
      .plain .openObject :: (memberMarks "steps" [.integer steps] ++ .plain .comma ::
        (memberMarks "depth" [.integer depth] ++ .plain .comma ::
          (memberMarks "stack" (arrayMarks (stack.map fun v => [.integer v.toInt])) ++
            [.plain .closeObject]))) := by
  simp [documentMarks, objectMarks, listedMarks]

/-- The report is the document of an object with its three parts. -/
theorem isDocument_json (r : Report) :
    IsDocument (documentMarks r.steps r.stack.length r.stack) r.json where
  value := by
    apply isValue_objectMarks
    simp only [List.forall_mem_cons, List.not_mem_nil, false_implies, implies_true, and_true]
    refine ⟨Mark.isValue_token _, Mark.isValue_token _, isValue_arrayMarks ?_⟩
    intro e he
    obtain ⟨v, -, rfl⟩ := List.mem_map.mp he
    exact Mark.isValue_token _
  cuts := by
    have hend : Cuts [.plain .closeObject] (['\x7d'] ++ ['\n']) :=
      .spelled (.plain .closeObject id) (.nil (List.forall_mem_singleton.mpr rfl))
    have hstack := cuts_memberHead "stack" _ (by simp)
      (cuts_jsonStack r.stack (hend.blanks ['\n'] (by decide)))
    have hdepth := cuts_memberHead "depth" [.integer r.stack.length] (by simp)
      (.spelled (.integer r.stack.length) (.spelled (.plain .comma id) hstack))
    have hsteps := cuts_memberHead "steps" [.integer r.steps] (by simp)
      (.spelled (.integer r.steps) (.spelled (.plain .comma id) hdepth))
    rw [documentMarks_eq, toList_json]
    exact .spelled (.plain .openObject id) hsteps

/-- The steps, the depth and the values of the stack are the integers of the document, in order. -/
theorem integers_documentMarks (steps depth : Nat) (stack : List Int32) :
    integers (documentMarks steps depth stack) =
      (steps : Int) :: (depth : Int) :: stack.map Int32.toInt := by
  have hvalues : stack.flatMap (fun v => [v.toInt]) = stack.map Int32.toInt :=
    List.flatMap_pure_eq_map Int32.toInt stack
  simp [documentMarks, List.flatMap_map, hvalues]

theorem documentMarks_inj {steps steps' depth depth' : Nat} {stack stack' : List Int32}
    (h : documentMarks steps depth stack = documentMarks steps' depth' stack') :
    steps = steps' ∧ depth = depth' ∧ stack = stack' := by
  have hintegers := congrArg integers h
  rw [integers_documentMarks, integers_documentMarks] at hintegers
  simp only [List.cons.injEq, Nat.cast_inj] at hintegers
  obtain ⟨hsteps, hdepth, hstack⟩ := hintegers
  have hword : Function.Injective Int32.toInt := fun _ _ => Int32.toInt_inj.mp
  exact ⟨hsteps, hdepth, List.map_injective_iff.mpr hword hstack⟩

/-! ## The lines -/

/-- The words of the line of a value: its index, the value and its decimal in brackets. -/
def valueWords (index : Nat) (v : Int32) : List String :=
  [toString index, toString v.toInt, "(" ++ Fixed.decimal v ++ ")"]

/-- The words of the lines of a report for reading: the steps, the depth, and those of each value of
the stack. -/
def shownWords (steps depth : Nat) (stack : List Int32) : List (List String) :=
  ["Steps:", toString steps] :: ["Depth:", toString depth] ::
    stack.zipIdx.map fun (v, index) => valueWords index v

/-- The words of the lines of a text tell steps, depth and stack, and nothing follows the last line
end. -/
def ShownIn (text : String) (steps depth : Nat) (stack : List Int32) : Prop :=
  (lines text).map words = (shownWords steps depth stack).map (·.map String.toList) ++ [[]]

/-- A labelled number, without the line end. -/
def labelRow (label : String) (n : Nat) : List Char :=
  label.toList ++ ' ' :: n.repr.toList

/-- The line of a value, without the line end. -/
def valueRow (index : Nat) (v : Int32) : List Char :=
  ("  " ++ alignRight ' ' 4 (toString index) ++ "  " ++ alignRight ' ' 11 (toString v.toInt) ++ "  "
    ++ "(" ++ Fixed.decimal v ++ ")").toList

theorem toList_labelLine (label : String) (n : Nat) :
    (labelLine false label n).toList = labelRow label n ++ ['\n'] := by
  simp [labelLine, labelRow, paint]

theorem toList_valueLine (index : Nat) (v : Int32) :
    (valueLine false index v).toList = valueRow index v ++ ['\n'] := by
  simp [valueLine, valueRow, paint]

theorem words_labelRow {label : String} (h : Solid label.toList) (n : Nat) :
    words (labelRow label n) = [label.toList, n.repr.toList] := by
  rw [labelRow, words_append h, (solid_repr n).words_eq]

theorem solid_decimal (v : Int32) : Solid ("(" ++ Fixed.decimal v ++ ")").toList := by
  have hdecimal := (Fixed.canonical_numeral v).solid
  rw [← Fixed.decimal_eq_text] at hdecimal
  exact ⟨by simpa using hdecimal.noBlank, by simp⟩

/-- Whatever fills a column up, its blanks are no part of a word. -/
theorem words_valueRow (index : Nat) (v : Int32) :
    words (valueRow index v) = (valueWords index v).map String.toList := by
  have hrow : valueRow index v =
      ' ' :: ' ' :: (List.replicate (4 - (toString index).length) ' ' ++ (index.repr.toList ++
        ' ' :: ' ' :: (List.replicate (11 - (toString v.toInt).length) ' ' ++
          (v.toInt.repr.toList ++ ' ' :: ' ' :: ("(" ++ Fixed.decimal v ++ ")").toList)))) := by
    simp only [valueRow, alignRight, String.toList_append, String.toList_ofList, List.append_assoc]
    rfl
  rw [hrow, words_blank, words_blank, words_blanks, words_append (solid_repr index), words_blank,
    words_blanks, words_append (solid_intRepr v.toInt), words_blank, (solid_decimal v).words_eq]
  simp only [valueWords, List.map_cons, List.map_nil, Nat.toString_eq_repr, Int.toString_eq_repr]

/-- The lines of the report for reading, without their line ends. -/
def rows (r : Report) : List (List Char) :=
  labelRow "Steps:" r.steps :: labelRow "Depth:" r.stack.length ::
    r.stack.zipIdx.map fun (v, index) => valueRow index v

theorem toList_text (r : Report) : (r.text false).toList = r.rows.flatMap (· ++ ['\n']) := by
  have hextend : ∀ (lines : String) (p : Int32 × Nat),
      (lines ++ valueLine false p.2 p.1).toList = lines.toList ++ (valueRow p.2 p.1 ++ ['\n']) := by
    intro lines p
    rw [String.toList_append, toList_valueLine]
  rw [text, toList_foldl hextend, String.toList_append, toList_labelLine, toList_labelLine, rows,
    List.flatMap_cons, List.flatMap_cons, List.flatMap_map, List.append_assoc]

theorem lineEnd_not_mem_rows (r : Report) : ∀ row ∈ r.rows, '\n' ∉ row := by
  have hlabel : ∀ (label : String) (n : Nat), OneLine label → '\n' ∉ labelRow label n := by
    intro label n hlabel
    have hline : OneLine (label ++ " " ++ n.repr) := by simp +decide [hlabel]
    simpa [OneLine, labelRow] using hline
  have hvalue : ∀ (index : Nat) (v : Int32), '\n' ∉ valueRow index v := by
    intro index v
    have hblank : isInvisible ' ' = false := by decide
    have hindex := visible_alignRight hblank 4 (visible_repr index)
    have hword := visible_alignRight hblank 11 (visible_intRepr v.toInt)
    apply Visible.oneLine
    simp +decide [hindex, hword]
  simp only [rows, List.forall_mem_cons, List.mem_map, forall_exists_index, and_imp]
  refine ⟨hlabel _ _ (by decide), hlabel _ _ (by decide), ?_⟩
  rintro row p - rfl
  exact hvalue p.2 p.1

/-- The words of the report's lines tell its parts. -/
theorem shownIn_text (r : Report) : ShownIn (r.text false) r.steps r.stack.length r.stack := by
  have hsteps : Solid "Steps:".toList := ⟨by decide, by decide⟩
  have hdepth : Solid "Depth:".toList := ⟨by decide, by decide⟩
  rw [ShownIn, lines, toList_text, splitOn_lineEnds r.lineEnd_not_mem_rows, List.map_append, rows,
    shownWords]
  simp only [List.map_cons, List.map_nil, List.map_map, Function.comp_def, words_labelRow hsteps,
    words_labelRow hdepth, words_nil, words_valueRow, Nat.toString_eq_repr]

/-- Steps, depth and stack are read back from the words of the lines. -/
theorem shownWords_inj {steps steps' depth depth' : Nat} {stack stack' : List Int32}
    (h : shownWords steps depth stack = shownWords steps' depth' stack') :
    steps = steps' ∧ depth = depth' ∧ stack = stack' := by
  simp only [shownWords, List.cons.injEq, true_and, and_true] at h
  obtain ⟨hsteps, hdepth, hvalues⟩ := h
  have hnat : ∀ {m n : Nat}, toString m = toString n → m = n :=
    fun hmn => Int.ofNat.inj (intRepr_inj hmn)
  have hvalue : ∀ stack : List Int32,
      (stack.zipIdx.map fun (v, index) => valueWords index v).map (·[1]?) =
        stack.map fun v => some (toString v.toInt) := by
    intro stack
    conv_rhs => rw [← List.zipIdx_map_fst 0 stack]
    rw [List.map_map, List.map_map]
    rfl
  refine ⟨hnat hsteps, hnat hdepth, ?_⟩
  have hcolumn := congrArg (List.map (·[1]?)) hvalues
  rw [hvalue, hvalue] at hcolumn
  refine List.map_injective_iff.mpr (fun v w hvw => ?_) hcolumn
  exact Int32.toInt_inj.mp (intRepr_inj (Option.some.inj hvw))

theorem ShownIn.unique {text : String} {steps steps' depth depth' : Nat} {stack stack' : List Int32}
    (h : ShownIn text steps depth stack) (h' : ShownIn text steps' depth' stack') :
    steps = steps' ∧ depth = depth' ∧ stack = stack' := by
  have hwords := List.append_cancel_right (h.symm.trans h')
  have hinj : Function.Injective (List.map String.toList) :=
    List.map_injective_iff.mpr fun _ _ => String.toList_inj.mp
  exact shownWords_inj (List.map_injective_iff.mpr hinj hwords)

end GlyphHint.Report
