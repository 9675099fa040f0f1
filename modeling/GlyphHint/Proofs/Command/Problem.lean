import GlyphHint.Command.Execute
set_option autoImplicit false

/-!
# What can go wrong with a command

An understood command line still has a limits document, a program and a task.  Each of them is right
or has a problem, and what it says or what its problem is follows from the surroundings alone
(`DocumentProblem` and `DocumentSays`, `ProgramProblem` and `Supplies`, `TaskProblem`).  The reading
functions of a command decide between the two.

The first problem in the order document, program, task is the one that counts (`FirstProblem`), and
there is one first problem at most (`FirstProblem.unique`).
-/

namespace GlyphHint

theorem Settings.orElse_empty (s : Settings) : s.orElse {} = s := by
  obtain ⟨length, capacity, steps⟩ := s
  cases length <;> cases capacity <;> cases steps <;> rfl

namespace Command

section Problems

variable (around : Surroundings Id) (i : Invocation)

/-- The limits document cannot be read as text or is not understood. -/
inductive DocumentProblem : Failure → Prop where
  | unreadable {path : String} {fault : ReadFault} (named : i.config = some path)
      (reading : around.readFile path = .error fault) :
      DocumentProblem (.configUnreadable path fault)
  | notText {path : String} {bytes : Array UInt8} (named : i.config = some path)
      (reading : around.readFile path = .ok bytes) (undecoded : String.fromUTF8? ⟨bytes⟩ = none) :
      DocumentProblem (.configRefused path .notText)
  | malformed {path : String} {bytes : Array UInt8} {text : String} (named : i.config = some path)
      (reading : around.readFile path = .ok bytes)
      (decoded : String.fromUTF8? ⟨bytes⟩ = some text)
      (refused : Limits.Document.ofText? text = none) :
      DocumentProblem (.configRefused path .malformed)

/-- The settings that the limits document makes; without a document there are none. -/
inductive DocumentSays : Settings → Prop where
  | nothing (unnamed : i.config = none) : DocumentSays {}
  | settings {path : String} {bytes : Array UInt8} {text : String} {settings : Settings}
      (named : i.config = some path) (reading : around.readFile path = .ok bytes)
      (decoded : String.fromUTF8? ⟨bytes⟩ = some text)
      (understood : Limits.Document.ofText? text = some settings) : DocumentSays settings

/-- The program cannot be read, or its text is not hexadecimal. -/
inductive ProgramProblem : Failure → Prop where
  | hexText {text : String} {fault : Hex.Fault} (source : i.source = .hexText text)
      (refused : Hex.decode text = .error fault) : ProgramProblem (.hexRefused fault)
  | input {fault : ReadFault} (source : i.source = .input)
      (reading : around.readInput = .error fault) : ProgramProblem (.inputUnreadable fault)
  | file {path : String} {fault : ReadFault} (source : i.source = .file path)
      (reading : around.readFile path = .error fault) :
      ProgramProblem (.programUnreadable path fault)

/-- The program that the source of an invocation supplies. -/
inductive Supplies : Program → Prop where
  | hexText {text : String} {program : Program} (source : i.source = .hexText text)
      (decoded : Hex.decode text = .ok program) : Supplies program
  | input {program : Program} (source : i.source = .input)
      (reading : around.readInput = .ok program) : Supplies program
  | file {path : String} {program : Program} (source : i.source = .file path)
      (reading : around.readFile path = .ok program) : Supplies program

/-- The limits of an invocation over what its document says. -/
def Invocation.limits (i : Invocation) (document : Settings) : Limits :=
  (i.settings.orElse document).applyTo {}

/-- The program cannot be listed, or its run fails. -/
inductive TaskProblem (limits : Limits) (program : Program) : Failure → Prop where
  | truncated {truncation : Truncation} (verb : i.verb = .disasm)
      (listing : program.listing = .error truncation) :
      TaskProblem limits program (.truncated truncation)
  | faulted {fault : Fault} (verb : i.verb = .run)
      (run : ((Interpreter.new limits).run program).1.result = .error fault) :
      TaskProblem limits program (.faulted fault)

/-- The first problem of an invocation in the order document, program, task. -/
inductive FirstProblem : Failure → Prop where
  | document {f : Failure} (problem : DocumentProblem around i f) : FirstProblem f
  | program {f : Failure} {document : Settings} (said : DocumentSays around i document)
      (problem : ProgramProblem around i f) : FirstProblem f
  | task {f : Failure} {document : Settings} {program : Program}
      (said : DocumentSays around i document) (supplies : Supplies around i program)
      (problem : TaskProblem i (i.limits document) program f) : FirstProblem f

end Problems

/-! ## Reading decides -/

variable {around : Surroundings Id} {i : Invocation} {f g : Failure} {document : Settings}
  {program : Program}

theorem readLimits_of_problem (h : DocumentProblem around i f) :
    readLimits around i = pure (.error f) := by
  cases h with
  | unreadable named reading =>
    unfold readLimits
    simp only [named, reading]
    rfl
  | @notText path bytes named reading undecoded =>
    have hread : Limits.Document.read bytes = .error .notText := by
      simp only [Limits.Document.read, undecoded]
    unfold readLimits
    simp only [named, bind, reading, hread]
  | @malformed path bytes text named reading decoded refused =>
    have hread : Limits.Document.read bytes = .error .malformed := by
      simp only [Limits.Document.read, decoded, refused]
    unfold readLimits
    simp only [named, bind, reading, hread]

theorem readLimits_of_said (h : DocumentSays around i document) :
    readLimits around i = pure (.ok (i.limits document)) := by
  cases h with
  | nothing unnamed =>
    unfold readLimits Invocation.limits
    simp only [unnamed, Settings.orElse_empty]
  | @settings path bytes text settings named reading decoded understood =>
    have hread : Limits.Document.read bytes = .ok document := by
      simp only [Limits.Document.read, decoded, understood]
    unfold readLimits
    simp only [named, bind, reading, hread]
    rfl

/-- A limits document has a problem or says something. -/
theorem exists_documentProblem_or_said (around : Surroundings Id) (i : Invocation) :
    (∃ f, DocumentProblem around i f) ∨ ∃ document, DocumentSays around i document := by
  cases named : i.config with
  | none => exact Or.inr ⟨_, .nothing named⟩
  | some path =>
    cases reading : around.readFile path with
    | error fault => exact Or.inl ⟨_, .unreadable named reading⟩
    | ok bytes =>
      cases decoded : String.fromUTF8? ⟨bytes⟩ with
      | none => exact Or.inl ⟨_, .notText named reading decoded⟩
      | some text =>
        cases understood : Limits.Document.ofText? text with
        | none => exact Or.inl ⟨_, .malformed named reading decoded understood⟩
        | some settings => exact Or.inr ⟨_, .settings named reading decoded understood⟩

/-- What reading the program gives, by its source. -/
theorem readProgram_eq (around : Surroundings Id) (i : Invocation) :
    readProgram around i = pure (match i.source with
      | .hexText text => (Hex.decode text).mapError .hexRefused
      | .input => Except.mapError .inputUnreadable around.readInput
      | .file path => Except.mapError (.programUnreadable path) (around.readFile path)) := by
  unfold readProgram
  cases i.source <;> rfl

theorem readProgram_of_problem (h : ProgramProblem around i f) :
    readProgram around i = pure (.error f) := by
  rw [readProgram_eq]
  cases h with
  | hexText source refused => simp only [source, refused]; rfl
  | input source reading => simp only [source, reading]; rfl
  | file source reading => simp only [source, reading]; rfl

theorem readProgram_of_supplies (h : Supplies around i program) :
    readProgram around i = pure (.ok program) := by
  rw [readProgram_eq]
  cases h with
  | hexText source decoded => simp only [source, decoded]; rfl
  | input source reading => simp only [source, reading]; rfl
  | file source reading => simp only [source, reading]; rfl

/-- A program has a problem or is supplied. -/
theorem exists_programProblem_or_supplies (around : Surroundings Id) (i : Invocation) :
    (∃ f, ProgramProblem around i f) ∨ ∃ program, Supplies around i program := by
  cases source : i.source with
  | hexText text =>
    cases decoded : Hex.decode text with
    | error fault => exact Or.inl ⟨_, .hexText source decoded⟩
    | ok program => exact Or.inr ⟨_, .hexText source decoded⟩
  | input =>
    cases reading : around.readInput with
    | error fault => exact Or.inl ⟨_, .input source reading⟩
    | ok program => exact Or.inr ⟨_, .input source reading⟩
  | file path =>
    cases reading : around.readFile path with
    | error fault => exact Or.inl ⟨_, .file source reading⟩
    | ok program => exact Or.inr ⟨_, .file source reading⟩

/-- Two invocations name the same document, and where they are executed it reads the same. -/
structure SameDocument (around : Surroundings Id) (i : Invocation) (around' : Surroundings Id)
    (i' : Invocation) : Prop where
  named : i'.config = i.config
  reading : ∀ path, i.config = some path → around'.readFile path = around.readFile path

namespace SameDocument

variable {around' : Surroundings Id} {i' : Invocation}

theorem problem (h : SameDocument around i around' i') (hproblem : DocumentProblem around i f) :
    DocumentProblem around' i' f := by
  cases hproblem with
  | unreadable named reading =>
    exact .unreadable (h.named.trans named) ((h.reading _ named).trans reading)
  | notText named reading undecoded =>
    exact .notText (h.named.trans named) ((h.reading _ named).trans reading) undecoded
  | malformed named reading decoded refused =>
    exact .malformed (h.named.trans named) ((h.reading _ named).trans reading) decoded refused

theorem said (h : SameDocument around i around' i') (hsaid : DocumentSays around i document) :
    DocumentSays around' i' document := by
  cases hsaid with
  | nothing unnamed => exact .nothing (h.named.trans unnamed)
  | settings named reading decoded understood =>
    exact .settings (h.named.trans named) ((h.reading _ named).trans reading) decoded understood

end SameDocument

/-! ## The order of the problems -/

/-- A command line that is understood is invoked. -/
theorem execute_of_understood {words : List String}
    (h : Invocation.read around.lookup words = .ok i) :
    execute around words = pure (.response (invoke around i)) := by
  simp only [execute, h]
  rfl

theorem invoke_of_documentProblem (h : DocumentProblem around i f) :
    invoke around i = pure (respond (wantsColour around.lookup) "" (.error f)) := by
  unfold invoke
  rw [readLimits_of_problem h]
  rfl

theorem invoke_of_programProblem (hsaid : DocumentSays around i document)
    (h : ProgramProblem around i f) :
    invoke around i = pure (respond (wantsColour around.lookup) "" (.error f)) := by
  unfold invoke
  rw [readLimits_of_said hsaid, readProgram_of_problem h]
  rfl

theorem invoke_of_supplies (hsaid : DocumentSays around i document)
    (hsupplies : Supplies around i program) :
    invoke around i =
      pure (perform (wantsColour around.lookup) i (i.limits document) program) := by
  unfold invoke
  rw [readLimits_of_said hsaid, readProgram_of_supplies hsupplies]
  rfl

theorem not_documentProblem_of_said (h : DocumentSays around i document) :
    ¬ DocumentProblem around i f := by
  intro hproblem
  cases (readLimits_of_said h).symm.trans (readLimits_of_problem hproblem)

theorem not_programProblem_of_supplies (h : Supplies around i program) :
    ¬ ProgramProblem around i f := by
  intro hproblem
  cases (readProgram_of_supplies h).symm.trans (readProgram_of_problem hproblem)

theorem DocumentProblem.unique (hf : DocumentProblem around i f) (hg : DocumentProblem around i g) :
    f = g := by
  cases (readLimits_of_problem hf).symm.trans (readLimits_of_problem hg)
  rfl

theorem ProgramProblem.unique (hf : ProgramProblem around i f) (hg : ProgramProblem around i g) :
    f = g := by
  cases (readProgram_of_problem hf).symm.trans (readProgram_of_problem hg)
  rfl

theorem Supplies.unique {other : Program} (h : Supplies around i program)
    (hother : Supplies around i other) : program = other := by
  cases (readProgram_of_supplies h).symm.trans (readProgram_of_supplies hother)
  rfl

theorem DocumentSays.limits_unique {other : Settings} (h : DocumentSays around i document)
    (hother : DocumentSays around i other) : i.limits document = i.limits other := by
  have hlimits := (readLimits_of_said h).symm.trans (readLimits_of_said hother)
  exact Except.ok.inj hlimits

theorem TaskProblem.unique {limits : Limits} (hf : TaskProblem i limits program f)
    (hg : TaskProblem i limits program g) : f = g := by
  cases hf with
  | truncated verb listing =>
    cases hg with
    | truncated _ listing' => cases listing.symm.trans listing'; rfl
    | faulted verb' _ => cases verb.symm.trans verb'
  | faulted verb run =>
    cases hg with
    | truncated verb' _ => cases verb.symm.trans verb'
    | faulted _ run' => cases run.symm.trans run'; rfl

/-- There is one first problem at most. -/
theorem FirstProblem.unique (hf : FirstProblem around i f) (hg : FirstProblem around i g) :
    f = g := by
  cases hf with
  | document hf =>
    cases hg with
    | document hg => exact hf.unique hg
    | program said _ => exact absurd hf (not_documentProblem_of_said said)
    | task said _ _ => exact absurd hf (not_documentProblem_of_said said)
  | program said hf =>
    cases hg with
    | document hg => exact absurd hg (not_documentProblem_of_said said)
    | program _ hg => exact hf.unique hg
    | task _ supplies _ => exact absurd hf (not_programProblem_of_supplies supplies)
  | task said supplies hf =>
    cases hg with
    | document hg => exact absurd hg (not_documentProblem_of_said said)
    | program _ hg => exact absurd hg (not_programProblem_of_supplies supplies)
    | task said' supplies' hg =>
      rw [said.limits_unique said', supplies.unique supplies'] at hf
      exact hf.unique hg

end Command

end GlyphHint
