import GlyphHint.Proofs.Command.Precedence
import GlyphHint.Proofs.Text.Spelling
set_option autoImplicit false

/-!
# Ways to supply a program

A command line names its program as hexadecimal text, by a file before or behind `--`, or not at
all, which stands for standard input as the file `-` does (`Naming`).  A line that names no program
is completed by any of these ways, and all of them that lead to one program get the same response
(`ways_of_supply_agree`): what the line says besides decides everything else.
-/

namespace GlyphHint.Command

/-! ## Naming a program -/

/-- The piece names a program. -/
def Piece.NamesProgram : Piece → Prop
  | .valued .hex _ _ => True
  | .file _ => True
  | _ => False

/-- The command line names no program. -/
structure Line.Unnamed (l : Line) : Prop where
  behind : ∀ p ∈ l.behind, ¬ p.NamesProgram
  files : l.files.getD [] = []

/-- A way to name the program on a command line. -/
inductive Naming where
  /-- as hexadecimal text -/
  | hexText (text : String)
  /-- by a file, among the options -/
  | file (path : String)
  /-- by a file behind `--` -/
  | marked (path : String)
  /-- not at all -/
  | nothing
  deriving DecidableEq, Repr, Inhabited

namespace Naming

/-- The line with the program named at its end. -/
def addTo (l : Line) : Naming → Line
  | .hexText text => { l with behind := l.behind ++ [.valued .hex text .attached] }
  | .file path => { l with behind := l.behind ++ [.file path] }
  | .marked path => { l with files := some [path] }
  | .nothing => l

/-- What was given, with the program. -/
def give (g : Given) : Naming → Given
  | .hexText text => { g with hex := some text }
  | .file path => { g with file := some path }
  | .marked path => { g with file := some path }
  | .nothing => g

/-- The source that the way stands for. -/
def source : Naming → Source
  | .hexText text => .hexText text
  | .file path => if path = "-" then .input else .file path
  | .marked path => if path = "-" then .input else .file path
  | .nothing => .input

/-- The bytes that the way leads to. -/
inductive LeadsTo (around : Surroundings Id) (program : Program) : Naming → Prop where
  | hexText {text : String} (spelled : Hex.Spells text program) :
      LeadsTo around program (.hexText text)
  | file {path : String} (named : path ≠ "-") (reading : around.readFile path = .ok program) :
      LeadsTo around program (.file path)
  | marked {path : String} (named : path ≠ "-") (reading : around.readFile path = .ok program) :
      LeadsTo around program (.marked path)
  | dash (reading : around.readInput = .ok program) : LeadsTo around program (.file "-")
  | markedDash (reading : around.readInput = .ok program) : LeadsTo around program (.marked "-")
  | nothing (reading : around.readInput = .ok program) : LeadsTo around program .nothing

theorem source_give (way : Naming) {g : Given} (hhex : g.hex = none) (hfile : g.file = none) :
    (way.give g).source = way.source := by
  cases way <;> simp [give, source, Given.source, hhex, hfile]

theorem settings?_give (way : Naming) (a : Arguments) (lookup : String → Option String) :
    Arguments.settings? { a with behind := way.give a.behind } lookup = a.settings? lookup := by
  cases way <;> rfl

end Naming

/-! ## Lines with a program -/

/-- A piece that names no program leaves the program open. -/
theorem Piece.Adds.unnamed {p : Piece} {g g' : Given} (h : p.Adds g g') (hp : ¬ p.NamesProgram) :
    g'.hex = g.hex ∧ g'.file = g.file := by
  cases h with
  | hex | file => exact absurd trivial hp
  | config | limit | verbose | json | letters => exact ⟨rfl, rfl⟩

theorem unnamed_of_added {level : Level} {pieces : List Piece} {g g' : Given}
    (hunnamed : ∀ p ∈ pieces, ¬ p.NamesProgram)
    (h : pieces.foldlM (Piece.add level) g = .ok g') : g'.hex = g.hex ∧ g'.file = g.file := by
  induction pieces generalizing g with
  | nil =>
    cases h
    exact ⟨rfl, rfl⟩
  | cons p rest ih =>
    obtain ⟨hp, hrest⟩ := List.forall_mem_cons.mp hunnamed
    obtain ⟨g₁, hadd, hadded⟩ := exists_of_bind_eq_ok h
    obtain ⟨hhex, hfile⟩ := (add_eq_ok_iff.mp hadd).unnamed hp
    obtain ⟨hhex', hfile'⟩ := ih hrest hadded
    exact ⟨hhex'.trans hhex, hfile'.trans hfile⟩

theorem added_append {level : Level} {pieces : List Piece} {p : Piece} {g g₁ g' : Given}
    (h : pieces.foldlM (Piece.add level) g = .ok g₁) (hp : p.Adds g₁ g') :
    (pieces ++ [p]).foldlM (Piece.add level) g = .ok g' := by
  rw [List.foldlM_append, h]
  exact congrArg (· >>= pure) (add_eq_ok_iff.mpr hp)

section Unnamed

variable {l : Line} {a : Arguments}

/-- A line without a program leaves the program open, and its pieces are all that counts. -/
theorem Line.Unnamed.arguments (hunnamed : l.Unnamed) (h : l.arguments = .ok a) :
    l.behind.foldlM (Piece.add (.behind l.verb)) {} = .ok a.behind ∧
      a.behind.hex = none ∧ a.behind.file = none := by
  obtain ⟨-, -, ⟨g, hbehind, hnamed⟩, -⟩ := Line.arguments_eq_ok_iff.mp h
  rw [hunnamed.files] at hnamed
  cases hnamed
  exact ⟨hbehind, unnamed_of_added hunnamed.behind hbehind⟩

/-- A line with a program gives what it gave without, and the program. -/
theorem arguments_addTo (hunnamed : l.Unnamed) (h : l.arguments = .ok a) (way : Naming) :
    (way.addTo l).arguments = .ok { a with behind := way.give a.behind } := by
  obtain ⟨hbehind, hhex, hfile⟩ := hunnamed.arguments h
  obtain ⟨hverb, hbefore, -⟩ := Line.arguments_eq_ok_iff.mp h
  apply Line.arguments_eq_ok_iff.mpr
  cases way with
  | nothing => exact Line.arguments_eq_ok_iff.mp h
  | hexText text =>
    refine ⟨hverb, hbefore, ⟨{ a.behind with hex := some text }, ?_, ?_⟩, Or.inl hfile⟩
    · exact added_append hbehind (.hex hhex)
    · rw [Naming.addTo, hunnamed.files]
      rfl
  | file path =>
    refine ⟨hverb, hbefore, ⟨{ a.behind with file := some path }, ?_, ?_⟩, Or.inr hhex⟩
    · exact added_append hbehind (.file hfile)
    · rw [Naming.addTo, hunnamed.files]
      rfl
  | marked path =>
    refine ⟨hverb, hbefore, ⟨a.behind, hbehind, ?_⟩, Or.inr hhex⟩
    rw [Naming.addTo]
    simp [Given.setFile, hfile, Naming.give]

end Unnamed

/-- A line completed by a way to name the program is the same invocation, up to its source. -/
theorem read_of_completed {lookup : String → Option String} {base l : Line} {i : Invocation}
    (hbase : base.WellFormed) (hunnamed : base.Unnamed) (hl : l.WellFormed) {way : Naming}
    (hsame : (way.addTo base).Rearranged l)
    (h : Invocation.read lookup base.words = .ok i) :
    Invocation.read lookup l.words = .ok { i with source := way.source } := by
  obtain ⟨a, ha, hsettings, hverb, -, hjson, hverbosity, hconfig⟩ :=
    (read_words_eq_ok_iff hbase).mp h
  obtain ⟨-, hhex, hfile⟩ := hunnamed.arguments ha
  have harguments := hsame.arguments_eq (arguments_addTo hunnamed ha way)
  have hsource : way.source = (way.give a.behind).source := (way.source_give hhex hfile).symm
  refine (read_words_eq_ok_iff hl).mpr
    ⟨_, harguments, (way.settings?_give a lookup).trans hsettings, hverb, hsource, ?_⟩
  cases way <;> exact ⟨hjson, hverbosity, hconfig⟩

/-! ## One program, one response -/

theorem Naming.LeadsTo.supplies {around : Surroundings Id} {program : Program} {way : Naming}
    (h : way.LeadsTo around program) (i : Invocation) :
    Supplies around { i with source := way.source } program := by
  cases h with
  | hexText spelled => exact .hexText rfl (Hex.decode_of_spells spelled)
  | file named reading | marked named reading => exact .file (if_neg named) reading
  | dash reading | markedDash reading | nothing reading => exact .input rfl reading

/-- Surroundings with the same environment and the same document. -/
structure SameElsewhere (around : Surroundings Id) (i : Invocation) (around' : Surroundings Id) :
    Prop where
  lookup : around'.lookup = around.lookup
  document : ∀ path, i.config = some path → around'.readFile path = around.readFile path

/-- A command line that is understood without a program gets one response to a program, whichever
way the program is supplied: spelled in hexadecimal, as a file among the options or behind `--`, or
on standard input, as the file `-` or without naming it. -/
theorem ways_of_supply_agree (around : Surroundings Id) (base : Line) (i : Invocation)
    (program : Program) (wellFormed : base.WellFormed) (unnamed : base.Unnamed)
    (understood : Invocation.read around.lookup base.words = .ok i) :
    ∃ r, ∀ (around' : Surroundings Id) (way : Naming) (l : Line),
      SameElsewhere around i around' → way.LeadsTo around' program →
      l.WellFormed → (way.addTo base).Rearranged l →
      execute around' l.words = pure (.response r) := by
  have hcompleted : ∀ {around' : Surroundings Id} {way : Naming} {l : Line},
      SameElsewhere around i around' → l.WellFormed → (way.addTo base).Rearranged l →
      execute around' l.words =
        pure (.response (invoke around' { i with source := way.source })) := by
    intro around' way l helse hl hsame
    apply execute_of_understood
    rw [helse.lookup]
    exact read_of_completed wellFormed unnamed hl hsame understood
  obtain ⟨f, hproblem⟩ | ⟨document, hsaid⟩ := exists_documentProblem_or_said around i
  · refine ⟨respond (wantsColour around.lookup) "" (.error f), ?_⟩
    intro around' way l helse hleads hl hsame
    have hdocument : SameDocument around i around' { i with source := way.source } :=
      ⟨rfl, helse.document⟩
    rw [hcompleted helse hl hsame, invoke_of_documentProblem (hdocument.problem hproblem),
      helse.lookup]
    rfl
  · refine ⟨perform (wantsColour around.lookup) i (i.limits document) program, ?_⟩
    intro around' way l helse hleads hl hsame
    have hdocument : SameDocument around i around' { i with source := way.source } :=
      ⟨rfl, helse.document⟩
    rw [hcompleted helse hl hsame, invoke_of_supplies (hdocument.said hsaid) (hleads.supplies i),
      helse.lookup]
    rfl

/-- Surroundings with a program in a file and on standard input. -/
def pushPlace : Surroundings Id where
  lookup _ := none
  readFile _ := .ok #[0xB0, 5]
  readInput := .ok #[0xB0, 5]

/-- A command line that names no program. -/
def loggedRun : Line :=
  ⟨[.letters ['v']], .run, [.flag .json], none⟩

/-- One program spelled with blanks inside its mark and its digits, in a file, and on standard
input. -/
theorem ways_of_supply_agree_pushOne :
    ∃ r, execute pushPlace ["-v", "run", "--hex", "0 xB\t0 05", "--json"] = pure (.response r) ∧
      execute pushPlace ["-v", "run", "--json", "glyph.bin"] = pure (.response r) ∧
      execute pushPlace ["-v", "run", "-", "--json"] = pure (.response r) ∧
      execute pushPlace ["-v", "run", "--json"] = pure (.response r) := by
  have hpieces : ∀ l : Line, l.before = [.letters ['v']] → l.verb = .run →
      (∀ p ∈ l.behind, p ∈ [.valued .hex "0 xB\t0 05" .separate, .flag .json,
        .file "glyph.bin", .file "-"]) → l.WellFormed := by
    intro l hbefore hverb hbehind
    constructor
    · rw [hbefore]
      simp [Piece.Fits]
    · intro p hp
      have hmem := hbehind p hp
      simp only [List.mem_cons, List.not_mem_nil, or_false] at hmem
      rcases hmem with rfl | rfl | rfl | rfl <;>
        simp +decide [Piece.Fits, OptionKind.BelongsTo, Plain, hverb]
  have hunnamed : loggedRun.Unnamed := by
    constructor
    · simp [loggedRun, Piece.NamesProgram]
    · rfl
  have understood : Invocation.read pushPlace.lookup loggedRun.words =
      .ok ⟨.run, .input, true, 1, none, {}⟩ := by
    decide +kernel
  have spelled : Hex.Spells "0 xB\t0 05" #[0xB0, 5] := by
    refine ⟨['B', '0', '0', '5'], ?_, Or.inr ?_⟩ <;> decide +kernel
  have hbase : loggedRun.WellFormed := hpieces _ rfl rfl (by decide)
  obtain ⟨r, hr⟩ := ways_of_supply_agree pushPlace loggedRun _ #[0xB0, 5] hbase hunnamed understood
  have helse : SameElsewhere pushPlace ⟨.run, .input, true, 1, none, {}⟩ pushPlace :=
    ⟨rfl, fun _ _ => rfl⟩
  refine ⟨r, ?_, ?_, ?_, ?_⟩
  · exact hr pushPlace (.hexText "0 xB\t0 05")
      ⟨[.letters ['v']], .run, [.valued .hex "0 xB\t0 05" .separate, .flag .json], none⟩
      helse (.hexText spelled) (hpieces _ rfl rfl (by decide))
      ⟨rfl, by decide, by decide, rfl⟩
  · exact hr pushPlace (.file "glyph.bin")
      ⟨[.letters ['v']], .run, [.flag .json, .file "glyph.bin"], none⟩
      helse (.file (by decide) rfl) (hpieces _ rfl rfl (by decide))
      ⟨rfl, by decide, by decide, rfl⟩
  · exact hr pushPlace (.file "-") ⟨[.letters ['v']], .run, [.file "-", .flag .json], none⟩
      helse (.dash rfl) (hpieces _ rfl rfl (by decide)) ⟨rfl, by decide, by decide, rfl⟩
  · exact hr pushPlace .nothing loggedRun helse (.nothing rfl) hbase
      ⟨rfl, .refl _, .refl _, rfl⟩

end GlyphHint.Command
