import GlyphHint.Json.Nesting
import GlyphHint.Proofs.Json.Lexeme
set_option autoImplicit false

/-!
# JSON values

The tokens of a value of any depth (`IsValue`), and the texts that write a row of tokens with any
blanks between them (`Writes`).

A value is stepped over as a whole, whatever containers are open around it and whatever follows it
(`IsValue.skip`).  In its tokens no number stands right behind another one, so a text that writes
them is cut into these tokens and no others (`IsValue.tokens?_of_writes`).
-/

namespace GlyphHint.Json

/-! ## The grammar -/

/-- Items with commas between them. -/
def listed (items : List (List Token)) : List Token :=
  [.comma].intercalate items

/-- A member of an object: the units of its key and the tokens of its value. -/
abbrev Member : Type := List Nat × List Token

/-- The tokens of a member. -/
def Member.tokens (m : Member) : List Token :=
  .string m.1 :: .colon :: m.2

/-- The tokens of an array. -/
def arrayTokens (elements : List (List Token)) : List Token :=
  .openArray :: (listed elements ++ [.closeArray])

/-- The tokens of an object. -/
def objectTokens (members : List Member) : List Token :=
  .openObject :: (listed (members.map Member.tokens) ++ [.closeObject])

/-- The tokens are those of one value. -/
inductive IsValue : List Token → Prop where
  | literal : IsValue [.literal]
  | string (units : List Nat) : IsValue [.string units]
  | natural {digits : List Char} (h : IsInteger digits) : IsValue [.natural digits]
  | number : IsValue [.number]
  | array {elements : List (List Token)} (h : ∀ e ∈ elements, IsValue e) :
      IsValue (arrayTokens elements)
  | object {members : List Member} (h : ∀ m ∈ members, IsValue m.2) :
      IsValue (objectTokens members)

theorem listed_cons_cons (item next : List Token) (items : List (List Token)) :
    listed (item :: next :: items) = item ++ .comma :: listed (next :: items) := by
  simp [listed]

theorem listed_singleton (item : List Token) : listed [item] = item := by
  simp [listed]

theorem exists_listed_cons (item : List Token) (items : List (List Token)) :
    ∃ behind, listed (item :: items) = item ++ behind := by
  cases items with
  | nil => exact ⟨[], by rw [listed_singleton, List.append_nil]⟩
  | cons next items => exact ⟨_, listed_cons_cons item next items⟩

/-! ## Stepping over a value -/

section Skipping

variable {frames : List Frame} {rest value : List Token}

/-- The tokens are stepped over wherever a value may stand. -/
def Skips (value : List Token) : Prop :=
  ∀ frames rest, skip .value frames (value ++ rest) = skip .after frames rest

/-- Behind the opening bracket of an array a value is stepped over as behind a comma. -/
theorem skip_element (h : IsValue value) :
    skip .element frames (value ++ rest) = skip .value frames (value ++ rest) := by
  cases h <;> (cases frames with
    | nil => rfl
    | cons frame frames => cases frame <;> rfl)

theorem skip_elements {elements : List (List Token)} (hne : elements ≠ [])
    (h : ∀ e ∈ elements, Skips e) :
    skip .value (.array :: frames) (listed elements ++ .closeArray :: rest) =
      skip .after frames rest := by
  induction elements with
  | nil => exact absurd rfl hne
  | cons e elements ih =>
    rw [List.forall_mem_cons] at h
    cases elements with
    | nil =>
      rw [listed_singleton, h.1]
      rfl
    | cons next elements =>
      rw [listed_cons_cons, List.append_assoc, h.1]
      exact ih (by simp) h.2

theorem skip_members {members : List Member} (hne : members ≠ [])
    (h : ∀ m ∈ members, Skips m.2) :
    skip .key (.object :: frames) (listed (members.map Member.tokens) ++ .closeObject :: rest) =
      skip .after frames rest := by
  induction members with
  | nil => exact absurd rfl hne
  | cons m members ih =>
    rw [List.forall_mem_cons] at h
    have hmember : ∀ tail, skip .key (.object :: frames) (m.tokens ++ tail) =
        skip .after (.object :: frames) tail :=
      fun tail => h.1 (.object :: frames) tail
    cases members with
    | nil =>
      rw [List.map_cons, List.map_nil, listed_singleton, hmember]
      rfl
    | cons next members =>
      rw [List.map_cons, List.map_cons, listed_cons_cons, List.append_assoc, hmember]
      exact ih (by simp) h.2

/-- A value is stepped over as a whole, and nothing behind it. -/
theorem IsValue.skips (h : IsValue value) : Skips value := by
  induction h with
  | literal => intro frames rest; rfl
  | string units => intro frames rest; rfl
  | natural h => intro frames rest; rfl
  | number => intro frames rest; rfl
  | @array elements h ih =>
    intro frames rest
    rw [arrayTokens, List.cons_append, List.append_assoc, List.singleton_append]
    cases elements with
    | nil => rfl
    | cons e elements =>
      -- only behind the bracket the array may close, and no value starts with a closing bracket
      have hfirst : skip .element (.array :: frames)
          (listed (e :: elements) ++ .closeArray :: rest) =
          skip .value (.array :: frames) (listed (e :: elements) ++ .closeArray :: rest) := by
        obtain ⟨behind, hbehind⟩ := exists_listed_cons e elements
        rw [hbehind, List.append_assoc, skip_element (h e (by simp))]
      exact hfirst.trans (skip_elements (by simp) ih)
  | @object members h ih =>
    intro frames rest
    rw [objectTokens, List.cons_append, List.append_assoc, List.singleton_append]
    cases members with
    | nil => rfl
    | cons m members =>
      have hfirst : skip .firstKey (.object :: frames)
          (listed ((m :: members).map Member.tokens) ++ .closeObject :: rest) =
          skip .key (.object :: frames)
            (listed ((m :: members).map Member.tokens) ++ .closeObject :: rest) := by
        obtain ⟨behind, hbehind⟩ := exists_listed_cons m.tokens (members.map Member.tokens)
        rw [List.map_cons, hbehind]
        rfl
      exact hfirst.trans (skip_members (by simp) ih)

end Skipping

/-! ## No two numbers touch -/

/-- The tokens do not start with a number. -/
def NoNumber (tokens : List Token) : Prop :=
  ∀ t tail, tokens = t :: tail → ¬ t.IsNumber

/-- No number stands right behind another one. -/
inductive Separated : List Token → Prop where
  | nil : Separated []
  | other {t : Token} {tokens : List Token} (h : ¬ t.IsNumber) (behind : Separated tokens) :
      Separated (t :: tokens)
  | number {t : Token} {tokens : List Token} (h : NoNumber tokens) (behind : Separated tokens) :
      Separated (t :: tokens)

theorem Separated.tail {t : Token} {tokens : List Token} (h : Separated (t :: tokens)) :
    Separated tokens := by
  cases h <;> assumption

theorem noNumber_nil : NoNumber [] := by
  intro t tail h
  cases h

theorem noNumber_cons {t : Token} {tokens : List Token} (h : ¬ t.IsNumber) :
    NoNumber (t :: tokens) := by
  intro u tail heq
  cases heq
  exact h

/-- Tokens that do not start with a number may follow these ones. -/
def Joins (tokens : List Token) : Prop :=
  ∀ rest, NoNumber rest → Separated rest → Separated (tokens ++ rest)

theorem joins_listed {items : List (List Token)} (h : ∀ item ∈ items, Joins item) :
    Joins (listed items) := by
  intro rest hrest hseparated
  induction items with
  | nil => exact hseparated
  | cons item items ih =>
    rw [List.forall_mem_cons] at h
    cases items with
    | nil =>
      rw [listed_singleton]
      exact h.1 rest hrest hseparated
    | cons next items =>
      rw [listed_cons_cons, List.append_assoc]
      exact h.1 _ (noNumber_cons id) (.other id (ih h.2))

theorem IsValue.joins {value : List Token} (h : IsValue value) : Joins value := by
  induction h with
  | literal => exact fun rest _ hseparated => .other id hseparated
  | string units => exact fun rest _ hseparated => .other id hseparated
  | natural h => exact fun rest hrest hseparated => .number hrest hseparated
  | number => exact fun rest hrest hseparated => .number hrest hseparated
  | @array elements h ih =>
    intro rest hrest hseparated
    rw [arrayTokens, List.cons_append, List.append_assoc]
    exact .other id (joins_listed ih _ (noNumber_cons id) (.other id hseparated))
  | @object members h ih =>
    intro rest hrest hseparated
    have hmembers : ∀ item ∈ members.map Member.tokens, Joins item := by
      intro item hitem
      obtain ⟨m, hm, rfl⟩ := List.mem_map.1 hitem
      exact fun rest hrest hseparated => .other id (.other id (ih m hm rest hrest hseparated))
    rw [objectTokens, List.cons_append, List.append_assoc]
    exact .other id (joins_listed hmembers _ (noNumber_cons id) (.other id hseparated))

theorem IsValue.separated {value : List Token} (h : IsValue value) : Separated value := by
  have hjoins := h.joins [] noNumber_nil .nil
  rwa [List.append_nil] at hjoins

/-! ## Texts of tokens -/

/-- The text writes the tokens, with any blanks in front of each of them and behind the last. -/
inductive Writes : List Token → List Char → Prop where
  | nil {blanks : List Char} (h : ∀ c ∈ blanks, isBlank c = true) : Writes [] blanks
  | cons {blanks cs text : List Char} {t : Token} {tokens : List Token}
      (h : ∀ c ∈ blanks, isBlank c = true) (spelled : Spelled t cs) (behind : Writes tokens text) :
      Writes (t :: tokens) (blanks ++ (cs ++ text))

/-- A token may be written without a blank in front. -/
theorem Writes.spelled {t : Token} {tokens : List Token} {cs text : List Char} (h : Spelled t cs)
    (behind : Writes tokens text) : Writes (t :: tokens) (cs ++ text) :=
  .cons (List.forall_mem_nil _) h behind

theorem tokensFrom_blanks {blanks : List Char} (h : ∀ c ∈ blanks, isBlank c = true)
    (before : Array Token) (text : List Char) :
    tokensFrom before (blanks ++ text) = tokensFrom before text := by
  induction blanks with
  | nil => rfl
  | cons c blanks ih =>
    rw [List.forall_mem_cons] at h
    rw [List.cons_append, tokensFrom.eq_def]
    simp only [h.1, if_true]
    exact ih h.2

theorem stops_of_blank {c : Char} {tail : List Char} (h : isBlank c = true) :
    Stops (c :: tail) := by
  simp only [isBlank, Bool.or_eq_true, beq_iff_eq] at h
  obtain ((rfl | rfl) | rfl) | rfl := h <;> exact stops_cons rfl nofun nofun nofun

theorem IsInteger.exists_cons {cs : List Char} (h : IsInteger cs) :
    ∃ c tail, cs = c :: tail ∧ isBlank c = false := by
  obtain ⟨c, tail, rfl, hdigit⟩ := h.1.exists_cons
  refine ⟨c, tail, rfl, ?_⟩
  rw [Bool.eq_false_iff]
  intro hblank
  have hstops : Stops (c :: tail) := stops_of_blank hblank
  have hnone := (hstops c tail rfl).1
  rw [hdigit] at hnone
  cases hnone

/-- What is written for a token starts with no blank, and what is written for a token other than a
number does not go on with a number. -/
theorem Spelled.exists_cons {t : Token} {cs : List Char} (h : Spelled t cs) :
    ∃ c tail, cs = c :: tail ∧ isBlank c = false ∧
      (¬ t.IsNumber → ∀ rest, Stops (c :: rest)) := by
  cases h with
  | natural h =>
    obtain ⟨c, tail, rfl, hblank⟩ := h.exists_cons
    exact ⟨c, tail, rfl, hblank, fun hnumber => absurd trivial hnumber⟩
  | number hsign hinteger hfraction hexponent other =>
    obtain ⟨c, tail, rfl, hblank⟩ := hinteger.exists_cons
    rcases hsign with rfl | rfl
    · exact ⟨c, _, rfl, hblank, fun hnumber => absurd trivial hnumber⟩
    · exact ⟨'-', _, rfl, rfl, fun hnumber => absurd trivial hnumber⟩
  | _ => exact ⟨_, _, rfl, rfl, fun _ rest => stops_cons rfl nofun nofun nofun⟩

theorem Writes.stops {tokens : List Token} {text : List Char} (h : Writes tokens text)
    (hnumber : NoNumber tokens) : Stops text := by
  cases h with
  | nil hblanks =>
    cases text with
    | nil => exact stops_nil
    | cons c text => exact stops_of_blank (hblanks c (by simp))
  | @cons blanks cs text t tokens hblanks spelled behind =>
    cases blanks with
    | nil =>
      obtain ⟨c, tail, rfl, -, hstops⟩ := spelled.exists_cons
      exact hstops (hnumber t tokens rfl) _
    | cons c blanks => exact stops_of_blank (hblanks c (by simp))

/-- Behind a number stands another token or a blank, and neither goes on with the number. -/
theorem Writes.stops_behind {t : Token} {tokens : List Token} {text : List Char}
    (h : Writes tokens text) (hseparated : Separated (t :: tokens)) : t.IsNumber → Stops text := by
  intro hnumber
  cases hseparated with
  | other hother => exact absurd hnumber hother
  | number hbehind => exact h.stops hbehind

/-- A token is cut off with the blanks in front of it. -/
theorem tokensFrom_spelled {blanks cs text : List Char} {t : Token}
    (hblanks : ∀ c ∈ blanks, isBlank c = true) (spelled : Spelled t cs)
    (hstops : t.IsNumber → Stops text) (before : Array Token) :
    tokensFrom before (blanks ++ (cs ++ text)) = tokensFrom (before.push t) text := by
  have htake := takeToken_complete spelled hstops
  obtain ⟨c, tail, rfl, hblank, -⟩ := spelled.exists_cons
  rw [List.cons_append] at htake
  rw [tokensFrom_blanks hblanks, List.cons_append, tokensFrom.eq_def]
  simp only [hblank, Bool.false_eq_true, if_false]
  split
  · next heq => cases heq.symm.trans htake
  · next heq =>
    cases heq.symm.trans htake
    rfl

theorem tokensFrom_of_writes {tokens : List Token} {text : List Char} (h : Writes tokens text)
    (hseparated : Separated tokens) (before : Array Token) :
    tokensFrom before text = some (before ++ tokens.toArray) := by
  induction h generalizing before with
  | @nil blanks hblanks =>
    rw [← List.append_nil blanks, tokensFrom_blanks hblanks, tokensFrom]
    simp
  | @cons blanks cs text t tokens hblanks spelled behind ih =>
    rw [tokensFrom_spelled hblanks spelled (behind.stops_behind hseparated), ih hseparated.tail]
    simp

/-- A text that writes a value is cut into the tokens of this value. -/
theorem IsValue.tokens?_of_writes {value : List Token} {text : List Char} (h : IsValue value)
    (hwrites : Writes value text) : tokens? text = some value := by
  rw [tokens?, tokensFrom_of_writes hwrites h.separated]
  simp

end GlyphHint.Json
