set_option autoImplicit false

/-!
# Surroundings of a command

What a command takes from outside besides its words: the environment, files and standard input.
Reading may have effects, so it happens in a monad `m`; with the identity monad a command is a
plain function of its surroundings.

A `Directory` gives surroundings as data: the files of a working directory, none of which is a
directory itself.
-/

namespace GlyphHint.Command

/-- An error number of the operating system with its text. -/
structure ReadFault where
  number : Nat
  text : String
  deriving DecidableEq, Repr, Inhabited

namespace ReadFault

/-- The report of a failed reading. -/
def message (f : ReadFault) : String :=
  f.text ++ " (os error " ++ toString f.number ++ ")"

/-- There is no such file. -/
def notFound : ReadFault := ⟨2, "No such file or directory"⟩

/-- A file stands where a path needs a directory. -/
def notDirectory : ReadFault := ⟨20, "Not a directory"⟩

/-- A directory has no bytes to read. -/
def isDirectory : ReadFault := ⟨21, "Is a directory"⟩

/-- A name in the path, or the path, is longer than names may be. -/
def nameTooLong : ReadFault := ⟨36, "File name too long"⟩

/-- The file may not be read. -/
def permissionDenied : ReadFault := ⟨13, "Permission denied"⟩

/-- The fault of an error number, with a text for numbers without one of their own. -/
def ofNumber (number : Nat) (text : String) : ReadFault :=
  let known := [notFound, permissionDenied, notDirectory, isDirectory, nameTooLong]
  (known.find? (·.number == number)).getD ⟨number, text⟩

end ReadFault

/-- What a reading gives. -/
abbrev Reading := Except ReadFault (Array UInt8)

/-- What surrounds a command. -/
structure Surroundings (m : Type → Type) where
  /-- the value of an environment variable, if it is set -/
  lookup : String → Option String
  /-- the contents of a file -/
  readFile : String → m Reading
  /-- all of standard input -/
  readInput : m Reading

/-! ## Directories -/

/-- A working directory that holds files only. -/
structure Directory where
  files : List (String × Array UInt8)

namespace Directory

/-- The contents of a file by its name. -/
def contents? (d : Directory) (name : String) : Option (Array UInt8) :=
  d.files.lookup name

/-- Where the walk along a path stands. -/
inductive Spot where
  /-- in the working directory -/
  | here
  /-- in a directory above it -/
  | above
  /-- at a file -/
  | file (contents : Array UInt8)

/-- Walks along the names of a path. -/
def walk (d : Directory) : Spot → List String → Reading
  | .file contents, [] => .ok contents
  | .file _, _ :: _ => .error .notDirectory
  | _, [] => .error .isDirectory
  | spot, name :: rest =>
    if name = "" ∨ name = "." then walk d spot rest
    else if name = ".." then walk d .above rest
    else if 255 < name.utf8ByteSize then .error .nameTooLong
    else
      match spot, d.contents? name with
      | .here, some contents => walk d (.file contents) rest
      | _, _ => .error .notFound

/-- Reads a file by its path. -/
def read (d : Directory) (path : String) : Reading :=
  if path = "" then .error .notFound
  else if 4095 < path.utf8ByteSize then .error .nameTooLong
  else
    match path.splitOn "/" with
    | "" :: names => d.walk .above names
    | names => d.walk .here names

/-- The surroundings of a command that works in a directory. -/
def surroundings (d : Directory) (input : Array UInt8) (lookup : String → Option String) :
    Surroundings Id where
  lookup := lookup
  readFile := d.read
  readInput := .ok input

end Directory

end GlyphHint.Command
