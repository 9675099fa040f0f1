import GlyphHint.Proofs.Command.Line
set_option autoImplicit false

/-!
# What the pieces of a command line give

A piece that is accepted fills one place of what was given and leaves the others alone
(`Piece.Adds`): an option, the program file and `--json` want their place free, so that none of them
counts twice.  What a level gives for a limit is therefore what one of its pieces sets
(`Given.Reflects`), and neither the order of the pieces nor the place where their values stand
matters (`Line.Rearranged.arguments_eq`).
-/

namespace GlyphHint

namespace Settings

theorem set_comm (s : Settings) {field other : Limits.Field} (h : field ≠ other) (n m : Nat) :
    (s.set field n).set other m = (s.set other m).set field n := by
  cases field <;> cases other <;> first | rfl | exact absurd rfl h

end Settings

namespace Command

/-! ## What a piece adds -/

/-- What a piece that is accepted adds to what was given before. -/
inductive Piece.Adds (g : Given) : Piece → Given → Prop where
  | config {value : String} {spelling : Spelling} (free : g.config = none) :
      Adds g (.valued .config value spelling) { g with config := some value }
  | limit {field : Limits.Field} {value : String} {spelling : Spelling} {n : Nat}
      (free : g.settings.get? field = none) (number : Text.signedNatural? value.toList = some n) :
      Adds g (.valued (.limit field) value spelling)
        { g with settings := g.settings.set field n }
  | hex {value : String} {spelling : Spelling} (free : g.hex = none) :
      Adds g (.valued .hex value spelling) { g with hex := some value }
  | verbose : Adds g (.flag .verbose) { g with verbosity := g.verbosity + 1 }
  | json (free : g.json = false) : Adds g (.flag .json) { g with json := true }
  | letters {cs : List Char} (verbose : ∀ c ∈ cs, c = 'v') :
      Adds g (.letters cs) { g with verbosity := g.verbosity + cs.length }
  | file {path : String} (free : g.file = none) :
      Adds g (.file path) { g with file := some path }

theorem shortFlag?_setFlag_eq_ok_iff {level : Level} {g g' : Given} {c : Char} :
    (∃ f, shortFlag? level c = some f ∧ g.setFlag f = .ok g') ↔
      c = 'v' ∧ g' = { g with verbosity := g.verbosity + 1 } := by
  constructor
  · rintro ⟨f, hf, hset⟩
    unfold shortFlag? at hf
    split at hf <;> cases hf
    all_goals cases hset
    exact ⟨rfl, rfl⟩
  · rintro ⟨rfl, rfl⟩
    exact ⟨.verbose, rfl, rfl⟩

/-- A row of letters is accepted if all of them ask for verbosity. -/
theorem setLetters_eq_ok_iff {level : Level} {g g' : Given} {cs : List Char} :
    g.setLetters level cs = .ok g' ↔
      (∀ c ∈ cs, c = 'v') ∧ g' = { g with verbosity := g.verbosity + cs.length } := by
  induction cs generalizing g with
  | nil =>
    rw [Given.setLetters, Except.ok.injEq]
    simp [eq_comm]
  | cons c cs ih =>
    rw [Given.setLetters]
    constructor
    · intro h
      split at h
      · cases h
      · next f hf =>
        obtain ⟨g₁, hset, hrest⟩ := exists_of_bind_eq_ok h
        obtain ⟨rfl, rfl⟩ := shortFlag?_setFlag_eq_ok_iff.mp ⟨f, hf, hset⟩
        obtain ⟨hcs, rfl⟩ := ih.mp hrest
        refine ⟨List.forall_mem_cons.mpr ⟨rfl, hcs⟩, ?_⟩
        rw [List.length_cons, Nat.add_comm cs.length 1, Nat.add_assoc]
    · rintro ⟨hall, rfl⟩
      obtain ⟨rfl, hcs⟩ := List.forall_mem_cons.mp hall
      refine ih.mpr ⟨hcs, ?_⟩
      rw [List.length_cons, Nat.add_comm cs.length 1, Nat.add_assoc]

theorem add_eq_ok_iff {level : Level} {p : Piece} {g g' : Given} :
    p.add level g = .ok g' ↔ p.Adds g g' := by
  constructor
  · intro h
    cases p with
    | valued option value spelling =>
      cases option with
      | config =>
        simp only [Piece.add, Given.setValue] at h
        split at h
        · cases h
        · next free =>
          cases h
          exact .config (by simpa using free)
      | limit field =>
        simp only [Piece.add, Given.setValue] at h
        split at h
        · next free number =>
          cases h
          exact .limit free number
        · cases h
      | hex =>
        simp only [Piece.add, Given.setValue] at h
        split at h
        · cases h
        · next free =>
          cases h
          exact .hex (by simpa using free)
    | flag f =>
      cases f with
      | verbose => cases h; exact .verbose
      | json =>
        simp only [Piece.add, Given.setFlag] at h
        split at h
        · cases h
        · next free =>
          cases h
          exact .json (by simpa using free)
      | version => cases h
      | help => cases h
    | letters cs =>
      obtain ⟨hcs, rfl⟩ := setLetters_eq_ok_iff.mp h
      exact .letters hcs
    | file path =>
      simp only [Piece.add, Given.setFile] at h
      split at h
      · cases h
      · next free =>
        cases h
        exact .file (by simpa using free)
  · intro h
    cases h with
    | config free => simp [Piece.add, Given.setValue, free]
    | limit free number => simp [Piece.add, Given.setValue, free, number]
    | hex free => simp [Piece.add, Given.setValue, free]
    | verbose => rfl
    | json free => simp [Piece.add, Given.setFlag, free]
    | letters verbose => exact setLetters_eq_ok_iff.mpr ⟨verbose, rfl⟩
    | file free => simp [Piece.add, Given.setFile, free]

/-- Two pieces that are accepted one after the other are accepted the other way round. -/
theorem Piece.Adds.swap {p q : Piece} {g g₁ g₂ : Given} (hp : p.Adds g g₁) (hq : q.Adds g₁ g₂) :
    ∃ g', q.Adds g g' ∧ p.Adds g' g₂ := by
  cases hp <;> cases hq
  -- A place that is filled is not free for a second piece.
  case config.config taken => cases taken
  case hex.hex taken => cases taken
  case json.json taken => cases taken
  case file.file taken => cases taken
  case limit.limit field _ _ n free number other _ _ m free' number' =>
    have hne : field ≠ other := by
      rintro rfl
      simp [Settings.get?_set] at free'
    have hfree : g.settings.get? other = none := by
      simpa [Settings.get?_set, hne] using free'
    refine ⟨_, .limit hfree number', ?_⟩
    rw [Settings.set_comm g.settings hne]
    exact .limit (by simp [Settings.get?_set, hne.symm, free]) number
  -- Verbosity adds up.
  case verbose.letters hletters =>
    refine ⟨_, .letters hletters, ?_⟩
    dsimp only
    rw [Nat.add_right_comm]
    exact .verbose
  case letters.verbose hletters =>
    refine ⟨_, .verbose, ?_⟩
    dsimp only
    rw [Nat.add_right_comm]
    exact .letters hletters
  case letters.letters cs hletters cs' hletters' =>
    refine ⟨_, .letters hletters', ?_⟩
    dsimp only
    rw [Nat.add_right_comm]
    exact .letters hletters
  -- All others fill different places.
  all_goals exact ⟨_, by constructor <;> assumption, by constructor <;> assumption⟩

/-! ## Order and spelling -/

/-- The piece without the choice of where its value stands. -/
def Piece.unspelled : Piece → Piece
  | .valued option value _ => .valued option value .separate
  | p => p

theorem add_unspelled (level : Level) (g : Given) (p : Piece) :
    p.unspelled.add level g = p.add level g := by
  cases p <;> rfl

theorem foldlM_add_unspelled (level : Level) (g : Given) (pieces : List Piece) :
    (pieces.map Piece.unspelled).foldlM (Piece.add level) g =
      pieces.foldlM (Piece.add level) g := by
  rw [List.foldlM_map]
  simp only [add_unspelled]

/-- Pieces are accepted in any order.  The errors of a refused piece need not be the same in both
orders, so steps commute only where they succeed. -/
theorem foldlM_add_of_perm {level : Level} {pieces pieces' : List Piece} {g g' : Given}
    (h : pieces.Perm pieces') (hadded : pieces.foldlM (Piece.add level) g = .ok g') :
    pieces'.foldlM (Piece.add level) g = .ok g' := by
  induction h generalizing g with
  | nil => exact hadded
  | cons p h ih =>
    rw [List.foldlM_cons] at hadded ⊢
    obtain ⟨g₁, hp, hrest⟩ := exists_of_bind_eq_ok hadded
    rw [hp]
    exact ih hrest
  | swap p q rest =>
    rw [List.foldlM_cons] at hadded
    obtain ⟨g₁, hq, hadded⟩ := exists_of_bind_eq_ok hadded
    rw [List.foldlM_cons] at hadded
    obtain ⟨g₂, hp, hrest⟩ := exists_of_bind_eq_ok hadded
    obtain ⟨g₁', hp', hq'⟩ := (add_eq_ok_iff.mp hq).swap (add_eq_ok_iff.mp hp)
    rw [List.foldlM_cons, add_eq_ok_iff.mpr hp']
    exact (congrArg (· >>= fun g => rest.foldlM (Piece.add level) g)
      (add_eq_ok_iff.mpr hq')).trans hrest
  | trans _ _ ih ih' => exact ih' (ih hadded)

/-- Pieces that differ in their order and in the spelling of their values are accepted alike. -/
theorem foldlM_add_of_rearranged {level : Level} {pieces pieces' : List Piece} {g g' : Given}
    (h : (pieces.map Piece.unspelled).Perm (pieces'.map Piece.unspelled))
    (hadded : pieces.foldlM (Piece.add level) g = .ok g') :
    pieces'.foldlM (Piece.add level) g = .ok g' := by
  rw [← foldlM_add_unspelled] at hadded ⊢
  exact foldlM_add_of_perm h hadded

/-! ## Values of options -/

/-- The pieces give the option that value, in either spelling. -/
def Gives (pieces : List Piece) (option : ValueOption) (value : String) : Prop :=
  ∃ spelling, .valued option value spelling ∈ pieces

/-- The pieces set the limit to that number. -/
def Sets (pieces : List Piece) (field : Limits.Field) (n : Nat) : Prop :=
  ∃ value, Gives pieces (.limit field) value ∧ Text.signedNatural? value.toList = some n

theorem gives_cons {p : Piece} {pieces : List Piece} {option : ValueOption} {value : String} :
    Gives (p :: pieces) option value ↔ Gives [p] option value ∨ Gives pieces option value := by
  simp only [Gives, List.mem_cons, List.not_mem_nil, or_false, exists_or]

theorem sets_cons {p : Piece} {pieces : List Piece} {field : Limits.Field} {n : Nat} :
    Sets (p :: pieces) field n ↔ Sets [p] field n ∨ Sets pieces field n := by
  rw [Sets, Sets, Sets, ← exists_or]
  simp only [← or_and_right]
  exact exists_congr fun value => and_congr_left' gives_cons

theorem gives_valued {option option' : ValueOption} {value value' : String} {spelling : Spelling} :
    Gives [.valued option value spelling] option' value' ↔ option' = option ∧ value' = value := by
  simp [Gives]

theorem Piece.Adds.get?_iff {p : Piece} {g g' : Given} (h : p.Adds g g') (field : Limits.Field)
    (n : Nat) :
    g'.settings.get? field = some n ↔ g.settings.get? field = some n ∨ Sets [p] field n := by
  cases h with
  | @limit other value spelling m free number =>
    rw [Settings.get?_set]
    by_cases hfield : other = field
    · subst hfield
      simp [Sets, gives_valued, free, number]
    · simp [Sets, gives_valued, hfield, Ne.symm hfield]
  | config | hex => simp [Sets, gives_valued]
  | verbose | json | letters | file => simp [Sets, Gives]

theorem Piece.Adds.config_iff {p : Piece} {g g' : Given} (h : p.Adds g g') (path : String) :
    g'.config = some path ↔ g.config = some path ∨ Gives [p] .config path := by
  cases h with
  | config free => simp [gives_valued, free, eq_comm]
  | limit | hex => simp [gives_valued]
  | verbose | json | letters | file => simp [Gives]

theorem Piece.Adds.exists_number {p : Piece} {g g' : Given} (h : p.Adds g g')
    {field : Limits.Field} {value : String} (hgives : Gives [p] (.limit field) value) :
    ∃ n, Text.signedNatural? value.toList = some n := by
  cases h with
  | limit free number =>
    obtain ⟨-, rfl⟩ := gives_valued.mp hgives
    exact ⟨_, number⟩
  | config | hex => simp [gives_valued] at hgives
  | verbose | json | letters | file => simp [Gives] at hgives

section Added

variable {level : Level} {pieces : List Piece} {g g' : Given}

/-- What is given for a limit was given before or is set by a piece. -/
theorem get?_of_added (h : pieces.foldlM (Piece.add level) g = .ok g') (field : Limits.Field)
    (n : Nat) :
    g'.settings.get? field = some n ↔
      g.settings.get? field = some n ∨ Sets pieces field n := by
  induction pieces generalizing g with
  | nil =>
    cases h
    simp [Sets, Gives]
  | cons p rest ih =>
    obtain ⟨g₁, hp, hrest⟩ := exists_of_bind_eq_ok h
    rw [ih hrest, (add_eq_ok_iff.mp hp).get?_iff, or_assoc, ← sets_cons]

theorem config_of_added (h : pieces.foldlM (Piece.add level) g = .ok g') (path : String) :
    g'.config = some path ↔ g.config = some path ∨ Gives pieces .config path := by
  induction pieces generalizing g with
  | nil =>
    cases h
    simp [Gives]
  | cons p rest ih =>
    obtain ⟨g₁, hp, hrest⟩ := exists_of_bind_eq_ok h
    rw [ih hrest, (add_eq_ok_iff.mp hp).config_iff, or_assoc, ← gives_cons]

/-- The value of a limit's option is a number. -/
theorem exists_number_of_added (h : pieces.foldlM (Piece.add level) g = .ok g')
    {field : Limits.Field} {value : String} (hgives : Gives pieces (.limit field) value) :
    ∃ n, Text.signedNatural? value.toList = some n := by
  induction pieces generalizing g with
  | nil => simp [Gives] at hgives
  | cons p rest ih =>
    obtain ⟨g₁, hp, hrest⟩ := exists_of_bind_eq_ok h
    rcases gives_cons.mp hgives with hfirst | hlater
    · exact (add_eq_ok_iff.mp hp).exists_number hfirst
    · exact ih hrest hlater

end Added

/-- File names give nothing but the program file. -/
theorem settings_of_files {files : List String} {g g' : Given}
    (h : files.foldlM Given.setFile g = .ok g') :
    g'.settings = g.settings ∧ g'.config = g.config := by
  induction files generalizing g with
  | nil =>
    cases h
    exact ⟨rfl, rfl⟩
  | cons file rest ih =>
    obtain ⟨g₁, hfile, hrest⟩ := exists_of_bind_eq_ok h
    obtain ⟨hsettings, hconfig⟩ := ih hrest
    unfold Given.setFile at hfile
    split at hfile
    · cases hfile
    · cases hfile
      exact ⟨hsettings, hconfig⟩

/-- What was given at a level is what its pieces give. -/
structure Given.Reflects (g : Given) (pieces : List Piece) : Prop where
  limit : ∀ field n, g.settings.get? field = some n ↔ Sets pieces field n
  config : ∀ path, g.config = some path ↔ Gives pieces .config path
  /-- the values of limits are numbers -/
  number : ∀ field value, Gives pieces (.limit field) value →
    ∃ n, Text.signedNatural? value.toList = some n

theorem reflects_of_added {level : Level} {pieces : List Piece} {g : Given}
    (h : pieces.foldlM (Piece.add level) {} = .ok g) : g.Reflects pieces where
  limit field n := by
    have hopen : ({} : Given).settings.get? field = none := by
      cases field <;> rfl
    rw [get?_of_added h, hopen]
    simp
  config path := by
    rw [config_of_added h]
    simp
  number _ _ := exists_number_of_added h

theorem Given.Reflects.not_gives_iff {g : Given} {pieces : List Piece} (h : g.Reflects pieces)
    (field : Limits.Field) :
    g.settings.get? field = none ↔ ∀ value, ¬ Gives pieces (.limit field) value := by
  constructor
  · intro hopen value hgives
    obtain ⟨n, hnumber⟩ := h.number field value hgives
    have hset := (h.limit field n).mpr ⟨value, hgives, hnumber⟩
    rw [hopen] at hset
    cases hset
  · intro habsent
    rw [Option.eq_none_iff_forall_ne_some]
    intro n hset
    obtain ⟨value, hgives, -⟩ := (h.limit field n).mp hset
    exact habsent value hgives

/-! ## Whole lines -/

/-- What is read from a line reflects its pieces at both levels. -/
theorem reflects_of_arguments {l : Line} {a : Arguments} (h : l.arguments = .ok a) :
    a.before.Reflects l.before ∧ a.behind.Reflects l.behind := by
  obtain ⟨-, hbefore, ⟨g, hbehind, hnamed⟩, -⟩ := Line.arguments_eq_ok_iff.mp h
  refine ⟨reflects_of_added hbefore, ?_⟩
  obtain ⟨hsettings, hconfig⟩ := settings_of_files hnamed
  have hreflects := reflects_of_added hbehind
  exact ⟨hsettings ▸ hreflects.limit, hconfig ▸ hreflects.config, hreflects.number⟩

/-- The second line has the pieces of the first one, in any order at each level and with the values
of options in either place. -/
structure Line.Rearranged (l l' : Line) : Prop where
  verb : l'.verb = l.verb
  before : (l.before.map Piece.unspelled).Perm (l'.before.map Piece.unspelled)
  behind : (l.behind.map Piece.unspelled).Perm (l'.behind.map Piece.unspelled)
  files : l'.files = l.files

theorem Line.Rearranged.arguments_eq {l l' : Line} (h : l.Rearranged l') {a : Arguments}
    (ha : l.arguments = .ok a) : l'.arguments = .ok a := by
  obtain ⟨before, hbefore, hrest⟩ := exists_of_bind_eq_ok ha
  obtain ⟨behind, hbehind, hrest⟩ := exists_of_bind_eq_ok hrest
  rw [Line.arguments, h.verb, h.files, foldlM_add_of_rearranged h.before hbefore,
    foldlM_add_of_rearranged h.behind hbehind]
  exact hrest

end Command

end GlyphHint
