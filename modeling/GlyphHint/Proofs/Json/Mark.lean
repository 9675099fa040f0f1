import GlyphHint.Proofs.Json.Value
import GlyphHint.Proofs.Text.Numeral
import Mathlib.Data.List.TakeWhile
set_option autoImplicit false

/-!
# JSON documents with integers

The tokens of a text do not tell its numbers, because no reader here wants a number with a sign.  A
mark is a token or an integer, so the marks of a text tell the integers in it as well (`Cuts`).  A
document is a text whose marks are those of one value, and a text is the document of one row of
marks at most (`IsDocument.unique`).
-/

namespace GlyphHint.Json

/-- A token other than a number, or an integer. -/
inductive Mark where
  | plain (t : Token)
  | integer (z : Int)
  deriving DecidableEq, Repr

namespace Mark

/-- The token that is read for a mark. -/
def token : Mark → Token
  | .plain t => t
  | .integer (.ofNat n) => .natural (Nat.toDigits 10 n)
  | .integer (.negSucc _) => .number

/-- How a mark may be written: an integer as its numeral, and another mark as its token. -/
inductive Spelled : Mark → List Char → Prop where
  | plain {t : Token} {cs : List Char} (h : Json.Spelled t cs) (other : ¬ t.IsNumber) :
      Spelled (.plain t) cs
  | integer (z : Int) : Spelled (.integer z) z.repr.toList

theorem isNumber_token (z : Int) : (Mark.integer z).token.IsNumber := by
  cases z <;> exact trivial

theorem isValue_token (z : Int) : IsValue [(Mark.integer z).token] := by
  cases z with
  | ofNat n => exact .natural (Text.isInteger_toDigits n)
  | negSucc n => exact .number

variable {m m' : Mark} {cs cs' : List Char}

/-- What is written for a mark is written for its token. -/
theorem Spelled.token (h : m.Spelled cs) : Json.Spelled m.token cs := by
  cases h with
  | plain h _ => exact h
  | integer z =>
    cases z with
    | ofNat n =>
      have hdigits : (Int.ofNat n).repr.toList = Nat.toDigits 10 n := Nat.toList_repr
      rw [hdigits]
      exact .natural (Text.isInteger_toDigits n)
    | negSucc n =>
      have hdigits : (Int.negSucc n).repr.toList =
          ['-'] ++ (Nat.toDigits 10 (n + 1) ++ ([] ++ [])) := by
        simp [Int.repr]
      rw [hdigits]
      exact .number (Or.inr rfl) (Text.isInteger_toDigits (n + 1)) .absent .absent
        (Or.inl (List.cons_ne_nil _ _))

/-- Different marks are written in different ways. -/
theorem Spelled.unique (h : m.Spelled cs) (h' : m'.Spelled cs) : m = m' := by
  have htoken : m.token = m'.token := by
    have htake := takeToken_complete h.token (fun _ => stops_nil)
    have htake' := takeToken_complete h'.token (fun _ => stops_nil)
    exact (Prod.mk.inj (Option.some.inj (htake.symm.trans htake'))).1
  generalize hcs : cs = written at h'
  cases h with
  | @plain t _ _ other =>
    cases h' with
    | @plain t' => exact congrArg Mark.plain htoken
    | integer z' =>
      have hnumber : (Mark.plain t).token.IsNumber := htoken ▸ isNumber_token z'
      exact absurd hnumber other
  | integer z =>
    cases h' with
    | @plain t' _ _ other =>
      have hnumber : (Mark.plain t').token.IsNumber := htoken ▸ isNumber_token z
      exact absurd hnumber other
    | integer z' => exact congrArg Mark.integer (Text.intRepr_inj (String.toList_inj.mp hcs))

end Mark

/-- The text is cut into the marks, with any blanks in front of each of them and behind the last. -/
inductive Cuts : List Mark → List Char → Prop where
  | nil {blanks : List Char} (h : ∀ c ∈ blanks, isBlank c = true) : Cuts [] blanks
  | cons {blanks cs text : List Char} {m : Mark} {marks : List Mark}
      (h : ∀ c ∈ blanks, isBlank c = true) (spelled : m.Spelled cs) (behind : Cuts marks text) :
      Cuts (m :: marks) (blanks ++ (cs ++ text))

/-- The text is a JSON document with these marks. -/
structure IsDocument (marks : List Mark) (text : String) : Prop where
  value : IsValue (marks.map Mark.token)
  cuts : Cuts marks text.toList

/-- A mark may be written without a blank in front. -/
theorem Cuts.spelled {m : Mark} {marks : List Mark} {cs text : List Char} (h : m.Spelled cs)
    (behind : Cuts marks text) : Cuts (m :: marks) (cs ++ text) :=
  .cons (List.forall_mem_nil _) h behind

theorem Cuts.blanks {marks : List Mark} {text : List Char} (behind : Cuts marks text)
    (blanks : List Char) (h : blanks.all isBlank = true) : Cuts marks (blanks ++ text) := by
  have hblanks := List.all_eq_true.mp h
  cases behind with
  | nil h => exact .nil (List.forall_mem_append.mpr ⟨hblanks, h⟩)
  | cons h spelled behind =>
    rw [← List.append_assoc]
    exact .cons (List.forall_mem_append.mpr ⟨hblanks, h⟩) spelled behind

/-! ## One row of marks -/

section Cuts

variable {marks marks' : List Mark} {text : List Char}

theorem Cuts.writes (h : Cuts marks text) : Writes (marks.map Mark.token) text := by
  induction h with
  | nil hblanks => exact .nil hblanks
  | cons hblanks spelled _ ih => exact .cons hblanks spelled.token ih

/-- The blanks in front of a mark end where it starts. -/
theorem dropBlanks_spelled {blanks cs : List Char} {m : Mark}
    (h : ∀ c ∈ blanks, isBlank c = true) (spelled : m.Spelled cs) (text : List Char) :
    (blanks ++ (cs ++ text)).dropWhile isBlank = cs ++ text ∧ cs ++ text ≠ [] := by
  obtain ⟨c, tail, rfl, hblank, -⟩ := spelled.token.exists_cons
  rw [List.dropWhile_append_of_pos h, List.cons_append,
    List.dropWhile_cons_of_neg (by simp [hblank])]
  exact ⟨rfl, List.cons_ne_nil _ _⟩

/-- A text is cut into one row of marks at most in which no two numbers touch. -/
theorem Cuts.unique (h : Cuts marks text) (h' : Cuts marks' text)
    (hseparated : Separated (marks.map Mark.token))
    (hseparated' : Separated (marks'.map Mark.token)) : marks = marks' := by
  induction h generalizing marks' with
  | nil hblanks =>
    cases h' with
    | nil _ => rfl
    | cons hblanks' spelled' _ =>
      obtain ⟨hdrop, hne⟩ := dropBlanks_spelled hblanks' spelled' _
      exact absurd (hdrop.symm.trans (List.dropWhile_eq_nil_iff.mpr hblanks)) hne
  | @cons blanks cs text m marks hblanks spelled behind ih =>
    obtain ⟨hdrop, hne⟩ := dropBlanks_spelled hblanks spelled text
    generalize htext : blanks ++ (cs ++ text) = whole at h' hdrop
    cases h' with
    | nil hblanks' => exact absurd (hdrop.symm.trans (List.dropWhile_eq_nil_iff.mpr hblanks')) hne
    | @cons blanks' cs' text' m' marks' hblanks' spelled' behind' =>
      have hsame : cs ++ text = cs' ++ text' :=
        hdrop.symm.trans (dropBlanks_spelled hblanks' spelled' text').1
      -- both readings take the same token off the text, so they go on with the same rest
      have htake := takeToken_complete spelled.token (behind.writes.stops_behind hseparated)
      rw [hsame,
        takeToken_complete spelled'.token (behind'.writes.stops_behind hseparated')] at htake
      obtain ⟨-, rfl⟩ := Prod.mk.inj (Option.some.inj htake)
      obtain rfl := List.append_cancel_right hsame
      rw [spelled.unique spelled', ih behind' hseparated.tail hseparated'.tail]

/-- A text is the document of one row of marks at most. -/
theorem IsDocument.unique {text : String} (h : IsDocument marks text)
    (h' : IsDocument marks' text) : marks = marks' :=
  h.cuts.unique h'.cuts h.value.separated h'.value.separated

end Cuts

/-! ## Arrays and objects -/

/-- Items with commas between them. -/
def listedMarks (items : List (List Mark)) : List Mark :=
  [.plain .comma].intercalate items

/-- The marks of an array. -/
def arrayMarks (elements : List (List Mark)) : List Mark :=
  .plain .openArray :: (listedMarks elements ++ [.plain .closeArray])

/-- The marks of a member of an object, whose key has a unit for each character. -/
def memberMarks (key : String) (value : List Mark) : List Mark :=
  .plain (.string (key.toList.map Char.toNat)) :: .plain .colon :: value

/-- The marks of an object. -/
def objectMarks (members : List (String × List Mark)) : List Mark :=
  .plain .openObject ::
    (listedMarks (members.map fun m => memberMarks m.1 m.2) ++ [.plain .closeObject])

theorem map_token_listedMarks (items : List (List Mark)) :
    (listedMarks items).map Mark.token = listed (items.map (List.map Mark.token)) := by
  induction items with
  | nil => rfl
  | cons item items ih =>
    cases items with
    | nil => simp [listedMarks, listed]
    | cons next items =>
      rw [List.map_cons, List.map_cons, listed_cons_cons, ← List.map_cons, ← ih]
      simp [listedMarks, Mark.token]

theorem isValue_arrayMarks {elements : List (List Mark)}
    (h : ∀ e ∈ elements, IsValue (e.map Mark.token)) :
    IsValue ((arrayMarks elements).map Mark.token) := by
  have harray : IsValue (arrayTokens (elements.map (List.map Mark.token))) :=
    .array (by simpa using h)
  simpa [arrayMarks, arrayTokens, map_token_listedMarks, Mark.token] using harray

theorem isValue_objectMarks {members : List (String × List Mark)}
    (h : ∀ m ∈ members, IsValue (m.2.map Mark.token)) :
    IsValue ((objectMarks members).map Mark.token) := by
  have hobject : IsValue (objectTokens
      (members.map fun m => (m.1.toList.map Char.toNat, m.2.map Mark.token))) := by
    apply IsValue.object
    intro m hm
    obtain ⟨member, hmember, rfl⟩ := List.mem_map.mp hm
    exact h member hmember
  simpa [objectMarks, objectTokens, map_token_listedMarks, Function.comp_def, memberMarks,
    Member.tokens, Mark.token] using hobject

/-- Integers in a row, each but the first behind a comma. -/
theorem listedMarks_integers (z : Int) (zs : List Int) :
    listedMarks ((z :: zs).map fun w => [.integer w]) =
      .integer z :: zs.flatMap fun w => [.plain .comma, .integer w] := by
  induction zs generalizing z with
  | nil => simp [listedMarks]
  | cons w zs ih =>
    have hrest := ih w
    simp only [listedMarks, List.map_cons] at hrest ⊢
    rw [List.intercalate_cons_cons, hrest]
    simp

/-- The integers among marks, in their order. -/
def integers (marks : List Mark) : List Int :=
  marks.filterMap fun
    | .integer z => some z
    | .plain _ => none

@[simp] theorem integers_nil : integers [] = [] :=
  rfl

@[simp] theorem integers_append (marks more : List Mark) :
    integers (marks ++ more) = integers marks ++ integers more :=
  List.filterMap_append

@[simp] theorem integers_plain (t : Token) (marks : List Mark) :
    integers (.plain t :: marks) = integers marks :=
  rfl

@[simp] theorem integers_integer (z : Int) (marks : List Mark) :
    integers (.integer z :: marks) = z :: integers marks :=
  rfl

theorem integers_listedMarks (items : List (List Mark)) :
    integers (listedMarks items) = items.flatMap integers := by
  induction items with
  | nil => rfl
  | cons item items ih =>
    cases items with
    | nil => simp [listedMarks]
    | cons next items =>
      rw [List.flatMap_cons, ← ih]
      simp [listedMarks]

@[simp] theorem integers_arrayMarks (elements : List (List Mark)) :
    integers (arrayMarks elements) = elements.flatMap integers := by
  simp [arrayMarks, integers_listedMarks]

@[simp] theorem integers_objectMarks (members : List (String × List Mark)) :
    integers (objectMarks members) = members.flatMap fun m => integers m.2 := by
  simp [objectMarks, integers_listedMarks, memberMarks, List.flatMap_map]

end GlyphHint.Json
