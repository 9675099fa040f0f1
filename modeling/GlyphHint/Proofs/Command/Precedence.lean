import GlyphHint.Command.Invocation
import GlyphHint.Proofs.Command.Decision
import GlyphHint.Proofs.Command.Given
import Mathlib.Data.List.Basic
set_option autoImplicit false

/-!
# Where the limits come from

Each limit is settled by the first of its sources that sets it: the option behind the subcommand,
the option before it, the environment variable, the document, and at last the limit that a run has
without any of them (`Settles`).  The sources of one limit decide nothing about another, and neither
the order of the options nor the spelling of their values counts (`limits_follow_precedence`).
-/

namespace GlyphHint.Command

/-! ## The first source of a value -/

/-- The value of an option on a command line: behind the subcommand before in front of it. -/
inductive Line.Has (l : Line) (option : ValueOption) : String → Prop where
  | behind {value : String} (given : Gives l.behind option value) : Has l option value
  | before {value : String} (absent : ∀ other, ¬ Gives l.behind option other)
      (given : Gives l.before option value) : Has l option value

/-- The value that the first source of a limit settles. -/
inductive Settles (l : Line) (lookup : String → Option String) (document : Settings)
    (field : Limits.Field) : Nat → Prop where
  | option {value : String} {n : Nat} (given : l.Has (.limit field) value)
      (number : Text.signedNatural? value.toList = some n) : Settles l lookup document field n
  | environment {value : String} {n : Nat} (absent : ∀ other, ¬ l.Has (.limit field) other)
      (set : lookup (environmentName field) = some value)
      (number : Text.signedNatural? value.toList = some n) : Settles l lookup document field n
  | document {n : Nat} (absent : ∀ other, ¬ l.Has (.limit field) other)
      (unset : lookup (environmentName field) = none) (told : document.get? field = some n) :
      Settles l lookup document field n
  | standard (absent : ∀ other, ¬ l.Has (.limit field) other)
      (unset : lookup (environmentName field) = none) (silent : document.get? field = none) :
      Settles l lookup document field (({} : Limits).get field)

/-- Two command lines with their environments and documents have the same sources of a limit. -/
structure SameSources (field : Limits.Field) (l l' : Line) (lookup lookup' : String → Option String)
    (document document' : Settings) : Prop where
  behind : ∀ value, Gives l'.behind (.limit field) value ↔ Gives l.behind (.limit field) value
  before : ∀ value, Gives l'.before (.limit field) value ↔ Gives l.before (.limit field) value
  environment : lookup' (environmentName field) = lookup (environmentName field)
  document : document'.get? field = document.get? field

namespace SameSources

variable {field : Limits.Field} {l l' : Line} {lookup lookup' : String → Option String}
  {document document' : Settings}

theorem symm (h : SameSources field l l' lookup lookup' document document') :
    SameSources field l' l lookup' lookup document' document where
  behind value := (h.behind value).symm
  before value := (h.before value).symm
  environment := h.environment.symm
  document := h.document.symm

theorem has (h : SameSources field l l' lookup lookup' document document') {value : String}
    (hhas : l.Has (.limit field) value) : l'.Has (.limit field) value := by
  cases hhas with
  | behind given => exact .behind ((h.behind value).mpr given)
  | before absent given =>
    refine .before ?_ ((h.before value).mpr given)
    intro other hother
    exact absent other ((h.behind other).mp hother)

theorem settles (h : SameSources field l l' lookup lookup' document document') {n : Nat}
    (hsettles : Settles l lookup document field n) : Settles l' lookup' document' field n := by
  have habsent : (∀ other, ¬ l.Has (.limit field) other) →
      ∀ other, ¬ l'.Has (.limit field) other := by
    intro absent other hother
    exact absent other (h.symm.has hother)
  cases hsettles with
  | option given number => exact .option (h.has given) number
  | environment absent set number =>
    exact .environment (habsent absent) (h.environment.trans set) number
  | document absent unset told =>
    exact .document (habsent absent) (h.environment.trans unset) (h.document.trans told)
  | standard absent unset silent =>
    exact .standard (habsent absent) (h.environment.trans unset) (h.document.trans silent)

end SameSources

/-! ## Options at two levels -/

/-- Where a level behind the subcommand goes first, the value is the one that the line has. -/
theorem orElse_eq_some_iff {α : Type} {l : Line} {option : ValueOption} {behind before : Option α}
    {P : String → α → Prop}
    (hbehind : ∀ v, behind = some v ↔ ∃ value, Gives l.behind option value ∧ P value v)
    (hbefore : ∀ v, before = some v ↔ ∃ value, Gives l.before option value ∧ P value v)
    (habsent : behind = none ↔ ∀ value, ¬ Gives l.behind option value) (v : α) :
    (behind <|> before) = some v ↔ ∃ value, l.Has option value ∧ P value v := by
  cases behind with
  | some w =>
    change some w = some v ↔ _
    rw [hbehind]
    constructor
    · rintro ⟨value, given, means⟩
      exact ⟨value, .behind given, means⟩
    · rintro ⟨value, ⟨given⟩ | ⟨absent, -⟩, means⟩
      · exact ⟨value, given, means⟩
      · cases habsent.mpr absent
  | none =>
    have habsent := habsent.mp rfl
    change before = some v ↔ _
    rw [hbefore]
    constructor
    · rintro ⟨value, given, means⟩
      exact ⟨value, .before habsent given, means⟩
    · rintro ⟨value, ⟨given⟩ | ⟨-, given⟩, means⟩
      · exact absurd given (habsent value)
      · exact ⟨value, given, means⟩

section Options

variable {l : Line} {a : Arguments}

theorem has_config_iff (h : l.arguments = .ok a) (path : String) :
    (a.behind.config <|> a.before.config) = some path ↔ l.Has .config path := by
  obtain ⟨hbefore, hbehind⟩ := reflects_of_arguments h
  have habsent : a.behind.config = none ↔ ∀ value, ¬ Gives l.behind .config value := by
    simp only [Option.eq_none_iff_forall_ne_some, ne_eq, hbehind.config]
  rw [orElse_eq_some_iff (P := Eq) (by simp [hbehind.config]) (by simp [hbefore.config]) habsent]
  simp

theorem has_limit_iff (h : l.arguments = .ok a) (field : Limits.Field) (n : Nat) :
    (a.behind.settings.get? field <|> a.before.settings.get? field) = some n ↔
      ∃ value, l.Has (.limit field) value ∧ Text.signedNatural? value.toList = some n := by
  obtain ⟨hbefore, hbehind⟩ := reflects_of_arguments h
  exact orElse_eq_some_iff (hbehind.limit field) (hbefore.limit field)
    (hbehind.not_gives_iff field) n

theorem not_has_limit_iff (h : l.arguments = .ok a) (field : Limits.Field) :
    (a.behind.settings.get? field <|> a.before.settings.get? field) = none ↔
      ∀ value, ¬ l.Has (.limit field) value := by
  obtain ⟨hbefore, hbehind⟩ := reflects_of_arguments h
  rw [Option.eq_none_iff_forall_ne_some]
  constructor
  · intro hnone value hhas
    have hnumber : ∃ n, Text.signedNatural? value.toList = some n := by
      cases hhas with
      | behind given => exact hbehind.number field value given
      | before _ given => exact hbefore.number field value given
    obtain ⟨n, hnumber⟩ := hnumber
    exact hnone n ((has_limit_iff h field n).mpr ⟨value, hhas, hnumber⟩)
  · intro habsent n hset
    obtain ⟨value, hhas, -⟩ := (has_limit_iff h field n).mp hset
    exact habsent value hhas

end Options

/-! ## The environment -/

/-- What an understood command line sets for a limit: its option, else the variable. -/
inductive Arguments.Setting (a : Arguments) (lookup : String → Option String)
    (field : Limits.Field) : Option Nat → Prop where
  | option {n : Nat}
      (given : (a.behind.settings.get? field <|> a.before.settings.get? field) = some n) :
      Setting a lookup field (some n)
  | environment {value : String} {n : Nat}
      (absent : (a.behind.settings.get? field <|> a.before.settings.get? field) = none)
      (set : lookup (environmentName field) = some value)
      (number : Text.signedNatural? value.toList = some n) : Setting a lookup field (some n)
  | nothing (absent : (a.behind.settings.get? field <|> a.before.settings.get? field) = none)
      (unset : lookup (environmentName field) = none) : Setting a lookup field none

theorem setting_of_setting? {a : Arguments} {lookup : String → Option String}
    {field : Limits.Field} {setting : Option Nat} (h : a.setting? lookup field = .ok setting) :
    a.Setting lookup field setting := by
  simp only [Arguments.setting?] at h
  split at h
  · next hboth =>
    cases h
    obtain ⟨n, hbehind⟩ := Option.isSome_iff_exists.mp (Bool.and_eq_true_iff.mp hboth).1
    rw [hbehind]
    exact .option (by rw [hbehind]; rfl)
  · split at h
    · next hunset =>
      cases h
      cases hgiven : a.behind.settings.get? field <|> a.before.settings.get? field with
      | some n => exact .option hgiven
      | none => exact .nothing hgiven hunset
    · next value hset =>
      split at h
      · cases h
      · next n hnumber =>
        cases h
        have hassoc : (a.behind.settings.get? field <|> a.before.settings.get? field <|> some n) =
            ((a.behind.settings.get? field <|> a.before.settings.get? field) <|> some n) := by
          cases a.behind.settings.get? field <;> rfl
        rw [hassoc]
        cases hgiven : a.behind.settings.get? field <|> a.before.settings.get? field with
        | some m => exact .option hgiven
        | none => exact .environment hgiven hset hnumber

theorem setting_of_settings? {a : Arguments} {lookup : String → Option String}
    {settings : Settings} (h : a.settings? lookup = .ok settings) (field : Limits.Field) :
    a.Setting lookup field (settings.get? field) := by
  apply setting_of_setting?
  obtain ⟨length, hlength, h⟩ := exists_of_bind_eq_ok h
  obtain ⟨capacity, hcapacity, h⟩ := exists_of_bind_eq_ok h
  obtain ⟨steps, hsteps, h⟩ := exists_of_bind_eq_ok h
  cases h
  cases field with
  | maxProgramLength => exact hlength
  | stackCapacity => exact hcapacity
  | maxSteps => exact hsteps

/-- A written line is understood if it is accepted and the environment is valid. -/
theorem read_words_eq_ok_iff {lookup : String → Option String} {l : Line} {i : Invocation}
    (hl : l.WellFormed) :
    Invocation.read lookup l.words = .ok i ↔
      ∃ a, l.arguments = .ok a ∧ a.settings? lookup = .ok i.settings ∧ i.verb = a.verb ∧
        i.source = a.behind.source ∧ i.json = a.behind.json ∧
        i.verbosity =
          (if a.behind.verbosity = 0 then a.before.verbosity else a.behind.verbosity) ∧
        i.config = (a.behind.config <|> a.before.config) := by
  rw [Invocation.read, readWords_words hl]
  constructor
  · intro h
    obtain ⟨a, ha, h⟩ := exists_of_bind_eq_ok h
    obtain ⟨settings, hsettings, h⟩ := exists_of_bind_eq_ok h
    cases h
    exact ⟨a, ha, hsettings, rfl, rfl, rfl, rfl, rfl⟩
  · rintro ⟨a, ha, hsettings, hverb, hsource, hjson, hverbosity, hconfig⟩
    simp only [ha, hsettings, bind, Except.bind, pure, Except.pure, ← hverb, ← hsource, ← hjson,
      ← hverbosity, ← hconfig]

theorem exists_arguments_of_understood {lookup : String → Option String} {l : Line}
    {i : Invocation} (hl : l.WellFormed) (h : Invocation.read lookup l.words = .ok i) :
    ∃ a, l.arguments = .ok a ∧ a.settings? lookup = .ok i.settings ∧
      i.config = (a.behind.config <|> a.before.config) := by
  obtain ⟨a, ha, hsettings, -, -, -, -, hconfig⟩ := (read_words_eq_ok_iff hl).mp h
  exact ⟨a, ha, hsettings, hconfig⟩

/-! ## Limits -/

/-- On a line that is understood, there is one settled value. -/
theorem Settles.unique {l : Line} {a : Arguments} (ha : l.arguments = .ok a)
    {lookup : String → Option String} {document : Settings} {field : Limits.Field} {n m : Nat}
    (h : Settles l lookup document field n) (h' : Settles l lookup document field m) : n = m := by
  cases h with
  | option given number =>
    cases h' with
    | option given' number' =>
      have hn := (has_limit_iff ha field n).mpr ⟨_, given, number⟩
      have hm := (has_limit_iff ha field m).mpr ⟨_, given', number'⟩
      exact Option.some.inj (hn.symm.trans hm)
    | environment absent | document absent | standard absent => exact absurd given (absent _)
  | environment absent set number =>
    cases h' with
    | option given => exact absurd given (absent _)
    | environment _ set' number' =>
      cases set.symm.trans set'
      exact Option.some.inj (number.symm.trans number')
    | document _ unset | standard _ unset => cases set.symm.trans unset
  | document absent unset told =>
    cases h' with
    | option given => exact absurd given (absent _)
    | environment _ set => cases unset.symm.trans set
    | document _ _ told' => exact Option.some.inj (told.symm.trans told')
    | standard _ _ silent => cases told.symm.trans silent
  | standard absent unset silent =>
    cases h' with
    | option given => exact absurd given (absent _)
    | environment _ set => cases unset.symm.trans set
    | document _ _ told => cases silent.symm.trans told
    | standard => rfl

section Understood

variable {lookup : String → Option String} {l : Line} {i : Invocation}

theorem settles_get_limits (hl : l.WellFormed) (h : Invocation.read lookup l.words = .ok i)
    (document : Settings) (field : Limits.Field) :
    Settles l lookup document field ((i.limits document).get field) := by
  obtain ⟨a, ha, hsettings, -⟩ := exists_arguments_of_understood hl h
  have hsetting := setting_of_settings? hsettings field
  rw [Invocation.limits, Settings.get_applyTo, Settings.get?_orElse]
  generalize i.settings.get? field = setting at hsetting
  cases hsetting with
  | option given =>
    obtain ⟨value, hhas, number⟩ := (has_limit_iff ha field _).mp given
    exact .option hhas number
  | environment absent set number =>
    exact .environment ((not_has_limit_iff ha field).mp absent) set number
  | nothing absent unset =>
    have habsent := (not_has_limit_iff ha field).mp absent
    cases htold : document.get? field with
    | some n => exact .document habsent unset htold
    | none => exact .standard habsent unset htold

/-- The limit of an invocation is the one that its first source settles. -/
theorem get_limits_eq_iff (hl : l.WellFormed) (h : Invocation.read lookup l.words = .ok i)
    (document : Settings) (field : Limits.Field) (n : Nat) :
    (i.limits document).get field = n ↔ Settles l lookup document field n := by
  have hsettles := settles_get_limits hl h document field
  constructor
  · rintro rfl
    exact hsettles
  · intro hn
    obtain ⟨a, ha, -⟩ := exists_arguments_of_understood hl h
    exact hsettles.unique ha hn

theorem config_eq_some_iff (hl : l.WellFormed) (h : Invocation.read lookup l.words = .ok i)
    (path : String) : i.config = some path ↔ l.Has .config path := by
  obtain ⟨a, ha, -, hconfig⟩ := exists_arguments_of_understood hl h
  rw [hconfig, has_config_iff ha]

/-- A rearranged line is the same invocation. -/
theorem read_of_rearranged {l' : Line} (hl : l.WellFormed) (hl' : l'.WellFormed)
    (hsame : l.Rearranged l') (h : Invocation.read lookup l.words = .ok i) :
    Invocation.read lookup l'.words = .ok i := by
  obtain ⟨a, ha, -⟩ := exists_arguments_of_understood hl h
  rw [Invocation.read, readWords_words hl, ha] at h
  rw [Invocation.read, readWords_words hl', hsame.arguments_eq ha]
  exact h

end Understood

/-- How a command line comes by the limits of its run. -/
structure Resolved (around : Surroundings Id) (l : Line) (i : Invocation) (document : Settings) :
    Prop where
  /-- the document is the one that the command line names -/
  config : ∀ path, i.config = some path ↔ l.Has .config path
  /-- each limit is settled by its first source -/
  limit : ∀ field n,
    (i.limits document).get field = n ↔ Settles l around.lookup document field n
  /-- these are the limits that the command works with -/
  performed : ∀ program, Supplies around i program →
    execute around l.words =
      pure (.response (perform (wantsColour around.lookup) i (i.limits document) program))
  /-- what runs is a new interpreter with these limits: its outcome is reported and its events are
  logged -/
  ran : i.verb = .run → ∀ program, Supplies around i program →
    execute around l.words =
      pure (.response (respond (wantsColour around.lookup)
        (showLog i.verbosity (runLog (i.limits document) program))
        (outcomeReport (wantsColour around.lookup) i.json
          ((Interpreter.new (i.limits document)).run program).1)))
  /-- the order of the pieces and the places of values change nothing -/
  rearranged : ∀ l' : Line, l'.WellFormed → l.Rearranged l' →
    Invocation.read around.lookup l'.words = .ok i
  /-- nothing but its own sources counts for a limit -/
  independent : ∀ (lookup' : String → Option String) (l' : Line) (i' : Invocation)
    (document' : Settings) (field : Limits.Field),
    l'.WellFormed → Invocation.read lookup' l'.words = .ok i' →
    SameSources field l l' around.lookup lookup' document document' →
    (i'.limits document').get field = (i.limits document).get field

/-- Every command line that is understood is a written line, and its limits follow one precedence,
each limit on its own: option behind the subcommand, option before it, environment, document,
standard limit. -/
theorem limits_follow_precedence (around : Surroundings Id) (words : List String) (i : Invocation)
    (document : Settings) (understood : Invocation.read around.lookup words = .ok i)
    (said : DocumentSays around i document) :
    (∃ l : Line, l.WellFormed ∧ l.words = words) ∧
      ∀ l : Line, l.WellFormed → l.words = words → Resolved around l i document := by
  constructor
  · rw [Invocation.read] at understood
    obtain ⟨a, ha, -⟩ := exists_of_bind_eq_ok understood
    exact exists_line_of_readWords ha
  · rintro l hl rfl
    have hperformed : ∀ program, Supplies around i program → execute around l.words =
        pure (.response (perform (wantsColour around.lookup) i (i.limits document) program)) := by
      intro program supplies
      rw [execute_of_understood understood, invoke_of_supplies said supplies]
      rfl
    refine ⟨config_eq_some_iff hl understood, get_limits_eq_iff hl understood document, hperformed,
      ?_, ?_, ?_⟩
    · intro verb program supplies
      rw [hperformed program supplies, perform_eq, Invocation.taskLog, Invocation.taskReport, verb,
        ← report_runProgram]
    · intro l' hl' hsame
      exact read_of_rearranged hl hl' hsame understood
    · intro lookup' l' i' document' field hl' understood' hsame
      rw [get_limits_eq_iff hl' understood']
      exact hsame.settles (settles_get_limits hl understood document field)

/-- Surroundings with a variable for one limit and with documents for all of them. -/
def limitedPlace : Surroundings Id where
  lookup name := if name = "HINTX_STACK_CAPACITY" then some "4" else none
  readFile _ := .ok "[5,6,7]".toUTF8.data
  readInput := .ok #[]

/-- An invocation with an option for one limit, in these surroundings. -/
def limitedRun : Invocation :=
  ⟨.run, .input, false, 0, some "limits.json", ⟨none, some 4, some 9⟩⟩

/-- An option at both levels, a variable and a document settle one limit each. -/
theorem limits_follow_precedence_everySource :
    let words := ["--max-steps=8", "--config", "limits.json", "run", "--max-steps", "9"]
    let document : Settings := ⟨some 5, some 6, some 7⟩
    Invocation.read limitedPlace.lookup words = .ok limitedRun ∧
      DocumentSays limitedPlace limitedRun document ∧
      limitedRun.limits document = ⟨5, 4, 9⟩ ∧
      ∃ l : Line, l.WellFormed ∧ l.words = words ∧ Resolved limitedPlace l limitedRun document := by
  intro words document
  have understood : Invocation.read limitedPlace.lookup
      ["--max-steps=8", "--config", "limits.json", "run", "--max-steps", "9"] =
        .ok limitedRun := by
    decide +kernel
  have decoded : String.fromUTF8? ⟨"[5,6,7]".toUTF8.data⟩ = some "[5,6,7]" := by
    decide +kernel
  have told : Limits.Document.ofText? "[5,6,7]" = some ⟨some 5, some 6, some 7⟩ := by
    decide +kernel
  have said : DocumentSays limitedPlace limitedRun document := .settings rfl rfl decoded told
  obtain ⟨⟨l, hl, hwords⟩, hresolved⟩ :=
    limits_follow_precedence limitedPlace words limitedRun document understood said
  exact ⟨understood, said, rfl, l, hl, hwords, hresolved l hl hwords⟩

end GlyphHint.Command
