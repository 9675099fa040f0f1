import GlyphHint.Limits
set_option autoImplicit false

/-!
# Command lines

A word of a command line is a mark that ends the options, a long option, a row of one-letter flags,
or plain.  Only a plain word can be a subcommand, a file name or the separate value of an option; a
dash alone is plain.

A command line is read word by word, and the first problem decides.  Options may stand before the
subcommand and after it (two `Level`s); an option other than the verbosity flag may be given once
per level.  An option takes its value attached behind `=` or as the next word, which must not look
like an option itself.  A version or help flag takes effect where it stands, if all before it is
valid.

What was given at the two levels is kept apart here; an invocation joins it.
-/

namespace GlyphHint.Command

/-! ## Words -/

/-- The form of a word. -/
inductive Word where
  /-- `--` -/
  | endOfOptions
  /-- a long option with the value attached to it, if any -/
  | long (name : String) (attached : Option String)
  /-- letters behind one dash -/
  | letters (cs : List Char)
  /-- anything else, also a dash alone -/
  | plain
  deriving DecidableEq, Repr, Inhabited

/-- Splits a long option at its first equals sign. -/
def splitAttached (cs : List Char) : Word :=
  match cs.dropWhile (· != '=') with
  | [] => .long (String.ofList cs) none
  | _ :: attached => .long (String.ofList (cs.takeWhile (· != '='))) (some (String.ofList attached))

/-- The form of a word. -/
def Word.ofString (word : String) : Word :=
  match word.toList with
  | ['-', '-'] => .endOfOptions
  | '-' :: '-' :: cs => splitAttached cs
  | '-' :: c :: cs => .letters (c :: cs)
  | _ => .plain

/-- The word can be the separate value of an option. -/
def canBeValue (word : String) : Bool :=
  Word.ofString word == .plain

/-! ## Options and what was given -/

/-- What the command does. -/
inductive Verb where
  /-- execute a program and print the final stack -/
  | run
  /-- print the listing of a program -/
  | disasm
  deriving DecidableEq, Repr, Inhabited

/-- The part of the command line a word stands in. -/
inductive Level where
  | beforeVerb
  | behind (verb : Verb)
  deriving DecidableEq, Repr, Inhabited

/-- What was given at one level. -/
structure Given where
  config : Option String := none
  settings : Settings := {}
  verbosity : Nat := 0
  json : Bool := false
  hex : Option String := none
  file : Option String := none
  deriving DecidableEq, Repr, Inhabited

/-- An option that takes a value. -/
inductive ValueOption where
  | config
  | limit (field : Limits.Field)
  | hex
  deriving DecidableEq, Repr, Inhabited

/-- An option without a value. -/
inductive Flag where
  | verbose
  | json
  | version
  | help
  deriving DecidableEq, Repr, Inhabited

/-- An option by kind. -/
inductive OptionKind where
  | valued (option : ValueOption)
  | flag (flag : Flag)
  deriving DecidableEq, Repr, Inhabited

/-- The option of a long name at a level. -/
def option? (level : Level) (name : String) : Option OptionKind :=
  match level, name with
  | _, "config" => some (.valued .config)
  | _, "max-steps" => some (.valued (.limit .maxSteps))
  | _, "stack-capacity" => some (.valued (.limit .stackCapacity))
  | _, "max-program-len" => some (.valued (.limit .maxProgramLength))
  | _, "verbose" => some (.flag .verbose)
  | _, "help" => some (.flag .help)
  | .beforeVerb, "version" => some (.flag .version)
  | .behind _, "hex" => some (.valued .hex)
  | .behind .run, "json" => some (.flag .json)
  | _, _ => none

/-- The flag of a letter at a level. -/
def shortFlag? (level : Level) (letter : Char) : Option Flag :=
  match level, letter with
  | _, 'v' => some .verbose
  | _, 'h' => some .help
  | .beforeVerb, 'V' => some .version
  | _, _ => none

/-- Why reading ends early. -/
inductive Early where
  /-- the command line is refused -/
  | usageError
  /-- the version is asked for -/
  | version
  /-- help is asked for -/
  | help
  deriving DecidableEq, Repr, Inhabited

namespace Given

/-- Adds the value of an option, unless the level has one or the value is none of its kind. -/
def setValue (g : Given) (option : ValueOption) (value : String) : Except Early Given :=
  match option with
  | .config => if g.config.isSome then .error .usageError else .ok { g with config := some value }
  | .hex => if g.hex.isSome then .error .usageError else .ok { g with hex := some value }
  | .limit field =>
    match g.settings.get? field, Text.signedNatural? value.toList with
    | none, some n => .ok { g with settings := g.settings.set field n }
    | _, _ => .error .usageError

/-- Adds a flag. -/
def setFlag (g : Given) : Flag → Except Early Given
  | .verbose => .ok { g with verbosity := g.verbosity + 1 }
  | .json => if g.json then .error .usageError else .ok { g with json := true }
  | .version => .error .version
  | .help => .error .help

/-- Adds the flags of a row of letters. -/
def setLetters (level : Level) (g : Given) : List Char → Except Early Given
  | [] => .ok g
  | c :: rest =>
    match shortFlag? level c with
    | none => .error .usageError
    | some flag => do
      let g ← g.setFlag flag
      setLetters level g rest

/-- Adds the program file, unless there is one. -/
def setFile (g : Given) (word : String) : Except Early Given :=
  if g.file.isSome then .error .usageError else .ok { g with file := some word }

end Given

/-! ## Whole command lines -/

/-- What a whole command line asks for. -/
structure Arguments where
  before : Given
  verb : Verb
  behind : Given
  deriving DecidableEq, Repr, Inhabited

/-- The subcommand of a word. -/
def verb? : String → Option Verb
  | "run" => some .run
  | "disasm" => some .disasm
  | _ => none

/-- Reads the words behind `--`, which can only name the program file. -/
def readFiles (g : Given) : List String → Except Early Given
  | [] => .ok g
  | word :: rest => do
    let g ← g.setFile word
    readFiles g rest

/-- Reads the words behind a subcommand. -/
def readBehind (verb : Verb) (g : Given) : List String → Except Early Given
  | [] => .ok g
  | word :: rest =>
    match Word.ofString word with
    | .endOfOptions => readFiles g rest
    | .plain => do
      let g ← g.setFile word
      readBehind verb g rest
    | .letters cs => do
      let g ← g.setLetters (.behind verb) cs
      readBehind verb g rest
    | .long name attached =>
      match option? (.behind verb) name, attached, rest with
      | some (.valued option), some value, rest => do
        let g ← g.setValue option value
        readBehind verb g rest
      | some (.valued option), none, value :: rest =>
        if canBeValue value then do
          let g ← g.setValue option value
          readBehind verb g rest
        else .error .usageError
      | some (.flag flag), none, rest => do
        let g ← g.setFlag flag
        readBehind verb g rest
      | _, _, _ => .error .usageError

/-- The program is named once: by a file or as hexadecimal text. -/
def Given.checkSource (g : Given) : Except Early Given :=
  if g.file.isSome && g.hex.isSome then .error .usageError else .ok g

/-- Reads the words behind the word `help`: one subcommand at most. -/
def readHelp : List String → Early
  | [] => .help
  | [word] => if word = "help" || (verb? word).isSome then .help else .usageError
  | _ => .usageError

/-- Reads the words up to the subcommand and behind it. -/
def readWords (g : Given) : List String → Except Early Arguments
  | [] => .error .usageError
  | word :: rest =>
    match Word.ofString word with
    | .endOfOptions => .error .usageError
    | .plain =>
      match verb? word with
      | some verb => do
        let behind ← readBehind verb {} rest
        return ⟨g, verb, ← behind.checkSource⟩
      | none => .error (if word = "help" then readHelp rest else .usageError)
    | .letters cs => do
      let g ← g.setLetters .beforeVerb cs
      readWords g rest
    | .long name attached =>
      match option? .beforeVerb name, attached, rest with
      | some (.valued option), some value, rest => do
        let g ← g.setValue option value
        readWords g rest
      | some (.valued option), none, value :: rest =>
        if canBeValue value then do
          let g ← g.setValue option value
          readWords g rest
        else .error .usageError
      | some (.flag flag), none, rest => do
        let g ← g.setFlag flag
        readWords g rest
      | _, _, _ => .error .usageError

end GlyphHint.Command
