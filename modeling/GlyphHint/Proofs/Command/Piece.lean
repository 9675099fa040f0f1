import GlyphHint.Command.Arguments
set_option autoImplicit false

/-!
# Pieces of a command line

A command line is made of options with their values, flags, rows of letters and file names, its
`Piece`s.  A piece is written as one word or two (`Piece.words`).  What a word can be is settled by
its characters (`Word.ofString_eq_iff`), and so is where a piece ends: the pieces that can be taken
off the front of the words are those that were written there (`takePiece?_words` and
`fits_of_takePiece?`).
-/

namespace GlyphHint.Command

/-! ## Words -/

/-- The word does not start with a dash, or is a dash alone. -/
def Plain (word : String) : Prop :=
  word = "-" ∨ word.toList.head? ≠ some '-'

/-- How words of each form are written. -/
inductive Word.Writes : Word → String → Prop where
  | endOfOptions : Writes .endOfOptions "--"
  | attached {name value : String} (plainName : '=' ∉ name.toList) :
      Writes (.long name (some value)) ("--" ++ name ++ "=" ++ value)
  | long {name : String} (named : name ≠ "") (plainName : '=' ∉ name.toList) :
      Writes (.long name none) ("--" ++ name)
  | letters {c : Char} {cs : List Char} (letter : c ≠ '-') :
      Writes (.letters (c :: cs)) (String.ofList ('-' :: c :: cs))
  | plain {word : String} (plain : Plain word) : Writes .plain word

/-- An equals sign splits a long option at its first place. -/
theorem splitAttached_append {name : List Char} (h : '=' ∉ name) (value : List Char) :
    splitAttached (name ++ '=' :: value) =
      .long (String.ofList name) (some (String.ofList value)) := by
  have hname : ∀ c ∈ name, (c != '=') = true := by
    intro c hc
    simpa using ne_of_mem_of_not_mem hc h
  simp [splitAttached, List.dropWhile_append_of_pos hname, List.takeWhile_append_of_pos hname]

theorem splitAttached_of_not_mem {name : List Char} (h : '=' ∉ name) :
    splitAttached name = .long (String.ofList name) none := by
  have hname : ∀ c ∈ name, (c != '=') = true := by
    intro c hc
    simpa using ne_of_mem_of_not_mem hc h
  have hrest : (name ++ []).dropWhile (· != '=') = [] := List.dropWhile_append_of_pos hname
  rw [List.append_nil] at hrest
  simp [splitAttached, hrest]

theorem Word.ofString_of_dashes {word : String} {cs : List Char}
    (h : word.toList = '-' :: '-' :: cs) (hne : cs ≠ []) :
    Word.ofString word = splitAttached cs := by
  cases cs with
  | nil => exact absurd rfl hne
  | cons c rest => simp only [ofString, h]

theorem Word.ofString_of_plain {word : String} (h : Plain word) : Word.ofString word = .plain := by
  rcases h with rfl | h
  · decide
  · unfold ofString
    split
    · next htext => simp [htext] at h
    · next htext => simp [htext] at h
    · next htext => simp [htext] at h
    · rfl

theorem Word.Writes.ofString_eq {w : Word} {word : String} (h : w.Writes word) :
    Word.ofString word = w := by
  cases h with
  | endOfOptions => decide
  | @attached name value hname =>
    have htext : ("--" ++ name ++ "=" ++ value).toList =
        '-' :: '-' :: (name.toList ++ '=' :: value.toList) := by
      simp
    rw [ofString_of_dashes htext (by simp), splitAttached_append hname, String.ofList_toList,
      String.ofList_toList]
  | @long name hnamed hname =>
    have htext : ("--" ++ name).toList = '-' :: '-' :: name.toList := by
      simp
    rw [ofString_of_dashes htext (by simpa using hnamed), splitAttached_of_not_mem hname,
      String.ofList_toList]
  | @letters c cs hletter =>
    have htext : (String.ofList ('-' :: c :: cs)).toList = '-' :: c :: cs :=
      String.toList_ofList
    unfold ofString
    rw [htext]
    split
    · next h => cases h; exact absurd rfl hletter
    · next h => cases h; exact absurd rfl hletter
    · next h => cases h; rfl
    · next h => exact absurd rfl (h c cs)
  | plain hplain => exact ofString_of_plain hplain

theorem writes_splitAttached {word : String} {cs : List Char}
    (h : word.toList = '-' :: '-' :: cs) (hne : cs ≠ []) : (splitAttached cs).Writes word := by
  by_cases hmem : '=' ∈ cs
  · obtain ⟨name, value, rfl, hname⟩ := List.eq_append_cons_of_mem hmem
    have hword : word = "--" ++ String.ofList name ++ "=" ++ String.ofList value := by
      apply String.toList_inj.mp
      simp [h]
    rw [splitAttached_append hname, hword]
    exact .attached (by simpa using hname)
  · have hword : word = "--" ++ String.ofList cs := by
      apply String.toList_inj.mp
      simp [h]
    rw [splitAttached_of_not_mem hmem, hword]
    exact .long (by simpa using hne) (by simpa using hmem)

/-- Every word is written in the form that it has. -/
theorem Word.writes_ofString (word : String) : (Word.ofString word).Writes word := by
  unfold ofString
  split
  · next htext =>
    have hword : word = "--" := String.toList_inj.mp htext
    rw [hword]
    exact .endOfOptions
  · next cs hcs htext => exact writes_splitAttached htext hcs
  · next c cs hdash hdashes htext =>
    have hword : word = String.ofList ('-' :: c :: cs) := by
      rw [← htext, String.ofList_toList]
    rw [hword]
    exact .letters hdashes
  · next hdash hdashes hletters =>
    refine .plain ?_
    cases htext : word.toList with
    | nil => exact Or.inr (by simp [htext])
    | cons c cs =>
      by_cases hc : c = '-'
      · subst hc
        cases cs with
        | nil => exact Or.inl (String.toList_inj.mp htext)
        | cons d ds => exact (hletters d ds htext).elim
      · exact Or.inr (by simp [htext, hc])

theorem Word.ofString_eq_iff {w : Word} {word : String} :
    Word.ofString word = w ↔ w.Writes word := by
  constructor
  · rintro rfl
    exact writes_ofString word
  · exact Writes.ofString_eq

theorem canBeValue_iff {word : String} : canBeValue word = true ↔ Plain word := by
  rw [canBeValue, beq_iff_eq, Word.ofString_eq_iff]
  constructor
  · rintro ⟨⟩
    assumption
  · exact .plain

/-! ## Options -/

/-- The long name of an option with a value. -/
def ValueOption.name : ValueOption → String
  | .config => "config"
  | .limit .maxProgramLength => "max-program-len"
  | .limit .stackCapacity => "stack-capacity"
  | .limit .maxSteps => "max-steps"
  | .hex => "hex"

/-- The long name of a flag. -/
def Flag.name : Flag → String
  | .verbose => "verbose"
  | .json => "json"
  | .version => "version"
  | .help => "help"

/-- The long name of an option. -/
def OptionKind.name : OptionKind → String
  | .valued o => o.name
  | .flag f => f.name

/-- The option belongs to the level: most belong to all of them. -/
def OptionKind.BelongsTo : OptionKind → Level → Prop
  | .valued .hex, level => level ≠ .beforeVerb
  | .flag .json, level => level = .behind .run
  | .flag .version, level => level = .beforeVerb
  | _, _ => True

theorem option?_eq_some_iff {level : Level} {name : String} {kind : OptionKind} :
    option? level name = some kind ↔ name = kind.name ∧ kind.BelongsTo level := by
  constructor
  · intro h
    unfold option? at h
    split at h <;> cases h
    all_goals simp [OptionKind.name, OptionKind.BelongsTo, Flag.name, ValueOption.name]
  · rintro ⟨rfl, h⟩
    match kind, level with
    | .valued .config, _ => rfl
    | .valued (.limit .maxProgramLength), _ => rfl
    | .valued (.limit .stackCapacity), _ => rfl
    | .valued (.limit .maxSteps), _ => rfl
    | .valued .hex, .behind _ => rfl
    | .valued .hex, .beforeVerb => exact absurd rfl h
    | .flag .verbose, _ => rfl
    | .flag .json, .behind .run => rfl
    | .flag .json, .behind .disasm => cases h
    | .flag .json, .beforeVerb => cases h
    | .flag .version, .beforeVerb => rfl
    | .flag .version, .behind _ => cases h
    | .flag .help, _ => rfl

/-- The names of options can be told from attached values. -/
theorem OptionKind.plain_name (kind : OptionKind) : kind.name ≠ "" ∧ '=' ∉ kind.name.toList := by
  cases kind with
  | valued option =>
    cases option with
    | limit field => cases field <;> decide
    | _ => decide
  | flag flag => cases flag <;> decide

/-- The word of a subcommand. -/
def Verb.name : Verb → String
  | .run => "run"
  | .disasm => "disasm"

theorem verb?_eq_some_iff {word : String} {verb : Verb} :
    verb? word = some verb ↔ word = verb.name := by
  constructor
  · intro h
    unfold verb? at h
    split at h <;> cases h <;> rfl
  · rintro rfl
    cases verb <;> rfl

/-! ## Pieces -/

/-- Where the value of an option stands. -/
inductive Spelling where
  /-- behind an equals sign -/
  | attached
  /-- in the next word -/
  | separate
  deriving DecidableEq, Repr, Inhabited

/-- A piece of a command line. -/
inductive Piece where
  /-- an option with its value -/
  | valued (option : ValueOption) (value : String) (spelling : Spelling)
  /-- a flag by its long name -/
  | flag (flag : Flag)
  /-- a row of letters -/
  | letters (cs : List Char)
  /-- the program file -/
  | file (path : String)
  deriving DecidableEq, Repr, Inhabited

namespace Piece

/-- The words of a piece. -/
def words : Piece → List String
  | .valued option value .attached => ["--" ++ option.name ++ "=" ++ value]
  | .valued option value .separate => ["--" ++ option.name, value]
  | .flag f => ["--" ++ f.name]
  | .letters cs => [String.ofList ('-' :: cs)]
  | .file path => [path]

/-- The piece can be written at the level. -/
def Fits (level : Level) : Piece → Prop
  | .valued option value spelling =>
    (OptionKind.valued option).BelongsTo level ∧ (spelling = .separate → Plain value)
  | .flag f => (OptionKind.flag f).BelongsTo level
  | .letters cs => ∃ c rest, cs = c :: rest ∧ c ≠ '-'
  | .file path => level ≠ .beforeVerb ∧ Plain path

/-- Adds the piece to what was given before. -/
def add (level : Level) (g : Given) : Piece → Except Early Given
  | .valued option value _ => g.setValue option value
  | .flag f => g.setFlag f
  | .letters cs => g.setLetters level cs
  | .file path => g.setFile path

end Piece

/-! ## Taking pieces off -/

/-- Takes a piece off the front of the words. -/
def takePiece? (level : Level) : List String → Option (Piece × List String)
  | [] => none
  | word :: rest =>
    match Word.ofString word with
    | .endOfOptions => none
    | .plain => if level = .beforeVerb then none else some (.file word, rest)
    | .letters cs => some (.letters cs, rest)
    | .long name attached =>
      match option? level name, attached, rest with
      | some (.valued option), some value, rest => some (.valued option value .attached, rest)
      | some (.valued option), none, value :: rest =>
        if canBeValue value then some (.valued option value .separate, rest) else none
      | some (.flag f), none, rest => some (.flag f, rest)
      | _, _, _ => none

theorem takePiece?_words {level : Level} {p : Piece} (h : p.Fits level) (rest : List String) :
    takePiece? level (p.words ++ rest) = some (p, rest) := by
  cases p with
  | valued option value spelling =>
    have hoption : option? level option.name = some (.valued option) :=
      option?_eq_some_iff.mpr ⟨rfl, h.1⟩
    have hname := (OptionKind.valued option).plain_name
    cases spelling with
    | attached =>
      have hword : Word.ofString ("--" ++ option.name ++ "=" ++ value) =
          .long option.name (some value) :=
        Word.ofString_eq_iff.mpr (.attached hname.2)
      simp only [Piece.words, List.singleton_append, takePiece?, hword, hoption]
    | separate =>
      have hword : Word.ofString ("--" ++ option.name) = .long option.name none :=
        Word.ofString_eq_iff.mpr (.long hname.1 hname.2)
      have hvalue : canBeValue value = true := canBeValue_iff.mpr (h.2 rfl)
      simp only [Piece.words, List.cons_append, List.nil_append, takePiece?, hword, hoption,
        hvalue, if_true]
  | flag f =>
    have hoption : option? level f.name = some (.flag f) := option?_eq_some_iff.mpr ⟨rfl, h⟩
    have hname := (OptionKind.flag f).plain_name
    have hword : Word.ofString ("--" ++ f.name) = .long f.name none :=
      Word.ofString_eq_iff.mpr (.long hname.1 hname.2)
    simp only [Piece.words, List.singleton_append, takePiece?, hword, hoption]
  | letters cs =>
    obtain ⟨c, cs, rfl, hc⟩ := h
    have hword : Word.ofString (String.ofList ('-' :: c :: cs)) = .letters (c :: cs) :=
      Word.ofString_eq_iff.mpr (.letters hc)
    simp only [Piece.words, List.singleton_append, takePiece?, hword]
  | file path =>
    have hword := Word.ofString_eq_iff.mpr (.plain h.2)
    simp only [Piece.words, List.singleton_append, takePiece?, hword, h.1, if_false]

theorem fits_of_takePiece? {level : Level} {words rest : List String} {p : Piece}
    (h : takePiece? level words = some (p, rest)) : p.Fits level ∧ words = p.words ++ rest := by
  cases words with
  | nil => cases h
  | cons word words =>
    have hword := Word.writes_ofString word
    simp only [takePiece?] at h
    split at h
    · cases h
    · next hform =>
      rw [hform] at hword
      split at h
      · cases h
      · next hlevel =>
        cases h
        cases hword with
        | plain hplain => exact ⟨⟨hlevel, hplain⟩, rfl⟩
    · next cs hform =>
      rw [hform] at hword
      cases h
      cases hword with
      | letters hletter => exact ⟨⟨_, _, rfl, hletter⟩, rfl⟩
    · next name attached hform =>
      rw [hform] at hword
      split at h
      · next option value rest' hoption =>
        obtain ⟨rfl, hlevel⟩ := option?_eq_some_iff.mp hoption
        cases h
        cases hword
        exact ⟨⟨hlevel, by simp⟩, rfl⟩
      · next option value rest' hoption =>
        obtain ⟨rfl, hlevel⟩ := option?_eq_some_iff.mp hoption
        split at h
        · next hvalue =>
          cases h
          cases hword
          exact ⟨⟨hlevel, fun _ => canBeValue_iff.mp hvalue⟩, rfl⟩
        · cases h
      · next f rest' hoption =>
        obtain ⟨rfl, hlevel⟩ := option?_eq_some_iff.mp hoption
        cases h
        cases hword
        exact ⟨hlevel, rfl⟩
      · cases h

theorem length_lt_of_takePiece? {level : Level} {words rest : List String} {p : Piece}
    (h : takePiece? level words = some (p, rest)) : rest.length < words.length := by
  have hwords : 0 < p.words.length := by
    unfold Piece.words
    split <;> simp
  rw [(fits_of_takePiece? h).2, List.length_append]
  omega

end GlyphHint.Command
