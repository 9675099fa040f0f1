import GlyphHint.Proofs.Command.Piece
set_option autoImplicit false

/-!
# Written command lines

A command line is written as a subcommand between pieces, and behind a `--` stand file names only
(`Line`).  Reading a written line adds its pieces one after another (`readWords_words`), and nothing
but written lines is accepted (`exists_line_of_readWords`).
-/

namespace GlyphHint.Command

/-! ## Reading pieces -/

/-- Behind a subcommand, reading takes a piece off, goes on to file names, or ends. -/
theorem readBehind_step (verb : Verb) (g : Given) (words : List String) :
    (∃ p rest, takePiece? (.behind verb) words = some (p, rest) ∧
      readBehind verb g words = p.add (.behind verb) g >>= fun g => readBehind verb g rest) ∨
    takePiece? (.behind verb) words = none ∧ (words = [] ∨ (∃ files, words = "--" :: files) ∨
      readBehind verb g words = .error .usageError) := by
  cases words with
  | nil => exact Or.inr ⟨rfl, Or.inl rfl⟩
  | cons word rest =>
    rw [readBehind]
    simp only [takePiece?]
    cases hform : Word.ofString word with
    | endOfOptions =>
      cases Word.ofString_eq_iff.mp hform
      exact Or.inr ⟨rfl, Or.inr (Or.inl ⟨rest, rfl⟩)⟩
    | plain => exact Or.inl ⟨.file word, rest, rfl, rfl⟩
    | letters cs => exact Or.inl ⟨.letters cs, rest, rfl, rfl⟩
    | long name attached =>
      dsimp only
      cases hoption : option? (.behind verb) name with
      | none => exact Or.inr ⟨rfl, Or.inr (Or.inr rfl)⟩
      | some kind =>
        cases kind with
        | valued option =>
          cases attached with
          | some value => exact Or.inl ⟨.valued option value .attached, rest, rfl, rfl⟩
          | none =>
            cases rest with
            | nil => exact Or.inr ⟨rfl, Or.inr (Or.inr rfl)⟩
            | cons value rest =>
              dsimp only
              cases hvalue : canBeValue value with
              | true => exact Or.inl ⟨.valued option value .separate, rest, rfl, rfl⟩
              | false => exact Or.inr ⟨rfl, Or.inr (Or.inr rfl)⟩
        | flag f =>
          cases attached with
          | none => exact Or.inl ⟨.flag f, rest, rfl, rfl⟩
          | some value => exact Or.inr ⟨rfl, Or.inr (Or.inr rfl)⟩

/-- Up to the subcommand, reading takes a piece off, arrives at the subcommand, or ends. -/
theorem readWords_step (g : Given) (words : List String) :
    (∃ p rest, takePiece? .beforeVerb words = some (p, rest) ∧
      readWords g words = p.add .beforeVerb g >>= fun g => readWords g rest) ∨
    takePiece? .beforeVerb words = none ∧ ((∃ verb rest, words = Verb.name verb :: rest) ∨
      ∃ early, readWords g words = .error early) := by
  cases words with
  | nil => exact Or.inr ⟨rfl, Or.inr ⟨_, rfl⟩⟩
  | cons word rest =>
    rw [readWords]
    simp only [takePiece?]
    cases hform : Word.ofString word with
    | endOfOptions => exact Or.inr ⟨rfl, Or.inr ⟨_, rfl⟩⟩
    | plain =>
      dsimp only
      cases hverb : verb? word with
      | none => exact Or.inr ⟨rfl, Or.inr ⟨_, rfl⟩⟩
      | some verb =>
        cases verb?_eq_some_iff.mp hverb
        exact Or.inr ⟨rfl, Or.inl ⟨verb, rest, rfl⟩⟩
    | letters cs => exact Or.inl ⟨.letters cs, rest, rfl, rfl⟩
    | long name attached =>
      dsimp only
      cases hoption : option? .beforeVerb name with
      | none => exact Or.inr ⟨rfl, Or.inr ⟨_, rfl⟩⟩
      | some kind =>
        cases kind with
        | valued option =>
          cases attached with
          | some value => exact Or.inl ⟨.valued option value .attached, rest, rfl, rfl⟩
          | none =>
            cases rest with
            | nil => exact Or.inr ⟨rfl, Or.inr ⟨_, rfl⟩⟩
            | cons value rest =>
              dsimp only
              cases hvalue : canBeValue value with
              | true => exact Or.inl ⟨.valued option value .separate, rest, rfl, rfl⟩
              | false => exact Or.inr ⟨rfl, Or.inr ⟨_, rfl⟩⟩
        | flag f =>
          cases attached with
          | none => exact Or.inl ⟨.flag f, rest, rfl, rfl⟩
          | some value => exact Or.inr ⟨rfl, Or.inr ⟨_, rfl⟩⟩

/-- The reader takes a piece off the front of the words wherever there is one, and adds it. -/
def TakesPieces {α : Type} (level : Level) (read : Given → List String → Except Early α) : Prop :=
  ∀ g words p rest, takePiece? level words = some (p, rest) →
    read g words = p.add level g >>= fun g => read g rest

theorem takesPieces_readBehind (verb : Verb) : TakesPieces (.behind verb) (readBehind verb) := by
  intro g words p rest htake
  rcases readBehind_step verb g words with ⟨p', rest', htake', hread⟩ | ⟨hnone, -⟩
  · cases htake.symm.trans htake'
    exact hread
  · cases htake.symm.trans hnone

theorem takesPieces_readWords : TakesPieces .beforeVerb readWords := by
  intro g words p rest htake
  rcases readWords_step g words with ⟨p', rest', htake', hread⟩ | ⟨hnone, -⟩
  · cases htake.symm.trans htake'
    exact hread
  · cases htake.symm.trans hnone

/-- A reader that takes pieces adds all pieces that are written at the front. -/
theorem TakesPieces.pieces {α : Type} {level : Level}
    {read : Given → List String → Except Early α} (hread : TakesPieces level read)
    {pieces : List Piece} (h : ∀ p ∈ pieces, p.Fits level) (g : Given) (rest : List String) :
    read g (pieces.flatMap Piece.words ++ rest) =
      pieces.foldlM (Piece.add level) g >>= fun g => read g rest := by
  induction pieces generalizing g with
  | nil => rfl
  | cons p pieces ih =>
    obtain ⟨hp, hpieces⟩ := List.forall_mem_cons.mp h
    have htake := takePiece?_words hp (pieces.flatMap Piece.words ++ rest)
    rw [List.flatMap_cons, List.append_assoc, hread g _ p _ htake, List.foldlM_cons, bind_assoc]
    simp only [ih hpieces]

theorem readWords_verb (g : Given) (verb : Verb) (rest : List String) :
    readWords g (verb.name :: rest) = do
      let behind ← readBehind verb {} rest
      return ⟨g, verb, ← behind.checkSource⟩ := by
  have hplain : Word.ofString verb.name = .plain := by
    cases verb <;> decide
  have hverb : verb? verb.name = some verb := verb?_eq_some_iff.mpr rfl
  rw [readWords]
  simp only [hplain, hverb]

theorem readBehind_endOfOptions (verb : Verb) (g : Given) (files : List String) :
    readBehind verb g ("--" :: files) = readFiles g files := by
  have hword : Word.ofString "--" = .endOfOptions := Word.ofString_eq_iff.mpr .endOfOptions
  rw [readBehind]
  simp only [hword]

theorem exists_of_bind_eq_ok {α β : Type} {x : Except Early α} {f : α → Except Early β} {b : β}
    (h : x >>= f = .ok b) : ∃ a, x = .ok a ∧ f a = .ok b := by
  cases x with
  | error early => cases h
  | ok a => exact ⟨a, rfl, h⟩

theorem readFiles_eq (g : Given) (files : List String) :
    readFiles g files = files.foldlM Given.setFile g := by
  induction files generalizing g with
  | nil => rfl
  | cons file rest ih =>
    rw [readFiles, List.foldlM_cons]
    simp only [ih]

/-! ## Lines -/

/-- A written command line. -/
structure Line where
  before : List Piece
  verb : Verb
  behind : List Piece
  /-- the words behind `--`, if it is written -/
  files : Option (List String)
  deriving DecidableEq, Repr, Inhabited

namespace Line

/-- The words at the end of a command line. -/
def fileWords : Option (List String) → List String
  | none => []
  | some files => "--" :: files

/-- The words of a command line. -/
def words (l : Line) : List String :=
  l.before.flatMap Piece.words ++
    l.verb.name :: (l.behind.flatMap Piece.words ++ fileWords l.files)

/-- Every piece can be written where it stands. -/
structure WellFormed (l : Line) : Prop where
  before : ∀ p ∈ l.before, p.Fits .beforeVerb
  behind : ∀ p ∈ l.behind, p.Fits (.behind l.verb)

/-- What a command line asks for, piece by piece. -/
def arguments (l : Line) : Except Early Arguments := do
  let before ← l.before.foldlM (Piece.add .beforeVerb) {}
  let behind ← l.behind.foldlM (Piece.add (.behind l.verb)) {}
  let behind ← (l.files.getD []).foldlM Given.setFile behind
  return ⟨before, l.verb, ← behind.checkSource⟩

end Line

theorem readBehind_fileWords (verb : Verb) (g : Given) (files : Option (List String)) :
    readBehind verb g (Line.fileWords files) = (files.getD []).foldlM Given.setFile g := by
  cases files with
  | none => rfl
  | some files => rw [Line.fileWords, readBehind_endOfOptions, readFiles_eq, Option.getD_some]

/-- Reading a written line adds its pieces. -/
theorem readWords_words {l : Line} (h : l.WellFormed) : readWords {} l.words = l.arguments := by
  rw [Line.words, takesPieces_readWords.pieces h.before, Line.arguments]
  simp only [readWords_verb, (takesPieces_readBehind l.verb).pieces h.behind,
    readBehind_fileWords, bind_assoc]

theorem checkSource_eq_ok_iff {g g' : Given} :
    g.checkSource = .ok g' ↔ g' = g ∧ (g.file = none ∨ g.hex = none) := by
  unfold Given.checkSource
  cases g.file <;> cases g.hex <;> simp [eq_comm]

/-- A written line is accepted if its pieces are, level by level, and they name one program. -/
theorem Line.arguments_eq_ok_iff {l : Line} {a : Arguments} :
    l.arguments = .ok a ↔ a.verb = l.verb ∧
      l.before.foldlM (Piece.add .beforeVerb) {} = .ok a.before ∧
      (∃ g, l.behind.foldlM (Piece.add (.behind l.verb)) {} = .ok g ∧
        (l.files.getD []).foldlM Given.setFile g = .ok a.behind) ∧
      (a.behind.file = none ∨ a.behind.hex = none) := by
  constructor
  · intro h
    obtain ⟨before, hbefore, h⟩ := exists_of_bind_eq_ok h
    obtain ⟨behind, hbehind, h⟩ := exists_of_bind_eq_ok h
    obtain ⟨named, hnamed, h⟩ := exists_of_bind_eq_ok h
    obtain ⟨checked, hchecked, h⟩ := exists_of_bind_eq_ok h
    cases h
    obtain ⟨rfl, hone⟩ := checkSource_eq_ok_iff.mp hchecked
    exact ⟨rfl, hbefore, ⟨behind, hbehind, hnamed⟩, hone⟩
  · rintro ⟨hverb, hbefore, ⟨g, hbehind, hnamed⟩, hone⟩
    obtain ⟨before, verb, behind⟩ := a
    cases hverb
    have hchecked := checkSource_eq_ok_iff.mpr ⟨rfl, hone⟩
    simp only [arguments, hbefore, hbehind, hnamed, hchecked, bind, Except.bind, pure, Except.pure]

/-- The words behind a subcommand are pieces, and file names behind `--`. -/
theorem exists_pieces_of_readBehind {verb : Verb} {words : List String} {g g' : Given}
    (h : readBehind verb g words = .ok g') :
    ∃ (pieces : List Piece) (files : Option (List String)),
      (∀ p ∈ pieces, p.Fits (.behind verb)) ∧
      words = pieces.flatMap Piece.words ++ Line.fileWords files := by
  -- A piece takes one word or two, so the induction is on the number of words.
  induction hlength : words.length using Nat.strongRecOn generalizing words g with
  | ind n ih =>
    rcases readBehind_step verb g words with
      ⟨p, rest, htake, hread⟩ | ⟨-, rfl | ⟨files, rfl⟩ | hrefused⟩
    · obtain ⟨hp, hwords⟩ := fits_of_takePiece? htake
      rw [hread] at h
      obtain ⟨g₁, -, hrest⟩ := exists_of_bind_eq_ok h
      have hshorter := length_lt_of_takePiece? htake
      obtain ⟨pieces, files, hpieces, hrest⟩ := ih _ (hlength ▸ hshorter) hrest rfl
      refine ⟨p :: pieces, files, List.forall_mem_cons.mpr ⟨hp, hpieces⟩, ?_⟩
      rw [List.flatMap_cons, List.append_assoc, ← hrest, hwords]
    · exact ⟨[], none, by simp, rfl⟩
    · exact ⟨[], some files, by simp, rfl⟩
    · cases hrefused.symm.trans h

/-- What is accepted is a written line. -/
theorem exists_line_of_readWords {words : List String} {g : Given} {a : Arguments}
    (h : readWords g words = .ok a) : ∃ l : Line, l.WellFormed ∧ l.words = words := by
  induction hlength : words.length using Nat.strongRecOn generalizing words g with
  | ind n ih =>
    rcases readWords_step g words with
      ⟨p, rest, htake, hread⟩ | ⟨-, ⟨verb, rest, rfl⟩ | ⟨early, hrefused⟩⟩
    · obtain ⟨hp, hwords⟩ := fits_of_takePiece? htake
      rw [hread] at h
      obtain ⟨g₁, -, hrest⟩ := exists_of_bind_eq_ok h
      have hshorter := length_lt_of_takePiece? htake
      obtain ⟨l, hl, hline⟩ := ih _ (hlength ▸ hshorter) hrest rfl
      refine ⟨{ l with before := p :: l.before },
        ⟨List.forall_mem_cons.mpr ⟨hp, hl.before⟩, hl.behind⟩, ?_⟩
      rw [hwords, ← hline]
      simp only [Line.words, List.flatMap_cons, List.append_assoc]
    · rw [readWords_verb] at h
      obtain ⟨behind, hbehind, -⟩ := exists_of_bind_eq_ok h
      obtain ⟨pieces, files, hpieces, hrest⟩ := exists_pieces_of_readBehind hbehind
      refine ⟨⟨[], verb, pieces, files⟩, ⟨by simp, hpieces⟩, ?_⟩
      rw [hrest]
      rfl
    · cases hrefused.symm.trans h

end GlyphHint.Command
