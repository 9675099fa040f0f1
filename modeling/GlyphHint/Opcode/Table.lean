import GlyphHint.Opcode
set_option autoImplicit false

/-!
# The opcode table

Every byte that the instruction set defines belongs to one row of `Opcode.rows`: a range of bytes,
a mnemonic, and either the operation the machine runs or the note that it runs none.  Bytes of one
row share their meaning, except that the bytes of an inline push differ in their count and so have
a row each.  A byte without a row is no instruction at all.
-/

namespace GlyphHint

/-- Whether the machine can execute the instructions of a row. -/
inductive Support where
  /-- the machine runs this operation -/
  | runs (op : Op)
  /-- defined by the instruction set, not executed here -/
  | unimplemented
  deriving DecidableEq, Repr, Inhabited

/-- A row of the opcode table. -/
structure Entry where
  first : UInt8
  last : UInt8
  mnemonic : String
  support : Support
  deriving DecidableEq, Repr, Inhabited

namespace Entry

/-- The byte lies in the row's range. -/
def covers (e : Entry) (byte : UInt8) : Bool :=
  e.first ≤ byte && byte ≤ e.last

/-- A row of one byte with an operation. -/
def single (byte : UInt8) (mnemonic : String) (op : Op) : Entry :=
  ⟨byte, byte, mnemonic, .runs op⟩

/-- A row that the machine does not execute. -/
def reserved (first last : UInt8) (mnemonic : String) : Entry :=
  ⟨first, last, mnemonic, .unimplemented⟩

/-- The eight inline pushes of one width: the `n`-th byte of the range pushes `n + 1` values. -/
def inlinePushes (first : UInt8) (mnemonic : String) (width : Width) : List Entry :=
  (List.range 8).map fun n =>
    single (first + UInt8.ofNat n) mnemonic (.push ⟨width, .inline (n + 1)⟩)

end Entry

/-- An instruction byte. -/
structure Opcode where
  byte : UInt8
  deriving DecidableEq, Repr, Inhabited

namespace Opcode

open Entry

/-- The rows of the table, in ascending order of their bytes. -/
def rows : List Entry :=
  [ reserved 0x00 0x01 "SVTCA",
    reserved 0x02 0x03 "SPVTCA",
    reserved 0x04 0x05 "SFVTCA",
    reserved 0x06 0x07 "SPVTL",
    reserved 0x08 0x09 "SFVTL",
    reserved 0x0A 0x0A "SPVFS",
    reserved 0x0B 0x0B "SFVFS",
    reserved 0x0C 0x0C "GPV",
    reserved 0x0D 0x0D "GFV",
    reserved 0x0E 0x0E "SFVTPV",
    reserved 0x0F 0x0F "ISECT",
    reserved 0x10 0x10 "SRP0",
    reserved 0x11 0x11 "SRP1",
    reserved 0x12 0x12 "SRP2",
    reserved 0x13 0x13 "SZP0",
    reserved 0x14 0x14 "SZP1",
    reserved 0x15 0x15 "SZP2",
    reserved 0x16 0x16 "SZPS",
    reserved 0x17 0x17 "SLOOP",
    reserved 0x18 0x18 "RTG",
    reserved 0x19 0x19 "RTHG",
    reserved 0x1A 0x1A "SMD",
    single 0x1B "ELSE" .elseArm,
    single 0x1C "JMPR" .jump,
    reserved 0x1D 0x1D "SCVTCI",
    reserved 0x1E 0x1E "SSWCI",
    reserved 0x1F 0x1F "SSW",
    single 0x20 "DUP" .dup,
    single 0x21 "POP" .pop,
    single 0x22 "CLEAR" .clear,
    single 0x23 "SWAP" .swap,
    single 0x24 "DEPTH" .depth,
    single 0x25 "CINDEX" .copyIndexed,
    single 0x26 "MINDEX" .moveIndexed,
    reserved 0x27 0x27 "ALIGNPTS",
    reserved 0x29 0x29 "UTP",
    reserved 0x2A 0x2A "LOOPCALL",
    reserved 0x2B 0x2B "CALL",
    reserved 0x2C 0x2C "FDEF",
    reserved 0x2D 0x2D "ENDF",
    reserved 0x2E 0x2F "MDAP",
    reserved 0x30 0x31 "IUP",
    reserved 0x32 0x33 "SHP",
    reserved 0x34 0x35 "SHC",
    reserved 0x36 0x37 "SHZ",
    reserved 0x38 0x38 "SHPIX",
    reserved 0x39 0x39 "IP",
    reserved 0x3A 0x3B "MSIRP",
    reserved 0x3C 0x3C "ALIGNRP",
    reserved 0x3D 0x3D "RTDG",
    reserved 0x3E 0x3F "MIAP",
    single 0x40 "NPUSHB" (.push ⟨.byte, .prefixed⟩),
    single 0x41 "NPUSHW" (.push ⟨.word, .prefixed⟩),
    reserved 0x42 0x42 "WS",
    reserved 0x43 0x43 "RS",
    reserved 0x44 0x44 "WCVTP",
    reserved 0x45 0x45 "RCVT",
    reserved 0x46 0x47 "GC",
    reserved 0x48 0x48 "SCFS",
    reserved 0x49 0x4A "MD",
    reserved 0x4B 0x4B "MPPEM",
    reserved 0x4C 0x4C "MPS",
    reserved 0x4D 0x4D "FLIPON",
    reserved 0x4E 0x4E "FLIPOFF",
    single 0x4F "DEBUG" .debug,
    single 0x50 "LT" (.binary .lt),
    single 0x51 "LTEQ" (.binary .le),
    single 0x52 "GT" (.binary .gt),
    single 0x53 "GTEQ" (.binary .ge),
    single 0x54 "EQ" (.binary .eq),
    single 0x55 "NEQ" (.binary .ne),
    reserved 0x56 0x56 "ODD",
    reserved 0x57 0x57 "EVEN",
    single 0x58 "IF" .ifNonzero,
    single 0x59 "EIF" .endIf,
    single 0x5A "AND" (.binary .and),
    single 0x5B "OR" (.binary .or),
    single 0x5C "NOT" (.unary .not),
    reserved 0x5D 0x5D "DELTAP1",
    reserved 0x5E 0x5E "SDB",
    reserved 0x5F 0x5F "SDS",
    single 0x60 "ADD" (.binary .add),
    single 0x61 "SUB" (.binary .sub),
    single 0x62 "DIV" .divide,
    single 0x63 "MUL" (.binary .mul),
    single 0x64 "ABS" (.unary .abs),
    single 0x65 "NEG" (.unary .neg),
    single 0x66 "FLOOR" (.unary .floor),
    single 0x67 "CEILING" (.unary .ceiling),
    reserved 0x68 0x6B "ROUND",
    reserved 0x6C 0x6F "NROUND",
    reserved 0x70 0x70 "WCVTF",
    reserved 0x71 0x71 "DELTAP2",
    reserved 0x72 0x72 "DELTAP3",
    reserved 0x73 0x73 "DELTAC1",
    reserved 0x74 0x74 "DELTAC2",
    reserved 0x75 0x75 "DELTAC3",
    reserved 0x76 0x76 "SROUND",
    reserved 0x77 0x77 "S45ROUND",
    single 0x78 "JROT" (.jumpWhen true),
    single 0x79 "JROF" (.jumpWhen false),
    reserved 0x7A 0x7A "ROFF",
    reserved 0x7C 0x7C "RUTG",
    reserved 0x7D 0x7D "RDTG",
    reserved 0x7E 0x7E "SANGW",
    reserved 0x7F 0x7F "AA",
    reserved 0x80 0x80 "FLIPPT",
    reserved 0x81 0x81 "FLIPRGON",
    reserved 0x82 0x82 "FLIPRGOFF",
    reserved 0x85 0x85 "SCANCTRL",
    reserved 0x86 0x87 "SDPVTL",
    reserved 0x88 0x88 "GETINFO",
    reserved 0x89 0x89 "IDEF",
    reserved 0x8A 0x8A "ROLL",
    reserved 0x8B 0x8B "MAX",
    reserved 0x8C 0x8C "MIN",
    reserved 0x8D 0x8D "SCANTYPE",
    reserved 0x8E 0x8E "INSTCTRL" ]
  ++ inlinePushes 0xB0 "PUSHB" .byte
  ++ inlinePushes 0xB8 "PUSHW" .word
  ++ [ reserved 0xC0 0xDF "MDRP",
       reserved 0xE0 0xFF "MIRP" ]

/-- The row of an opcode, if the instruction set defines it. -/
def entry? (o : Opcode) : Option Entry :=
  rows.find? (·.covers o.byte)

/-- The operation of an opcode, if the machine runs one. -/
def op? (o : Opcode) : Option Op :=
  match o.entry? with
  | some ⟨_, _, _, .runs op⟩ => some op
  | _ => none

/-- The mnemonic of an opcode, if it has a row. -/
def mnemonic? (o : Opcode) : Option String :=
  o.entry?.map (·.mnemonic)

/-- The operand layout of an opcode, if it is a push. -/
def pushShape? (o : Opcode) : Option PushShape :=
  match o.op? with
  | some (.push shape) => some shape
  | _ => none

/-- The opcode is a push. -/
def isPush (o : Opcode) : Bool :=
  o.pushShape?.isSome

/-- The upper-case hexadecimal digit of a number below sixteen. -/
def hexDigit (n : Nat) : Char :=
  (Nat.digitChar n).toUpper

/-- The mnemonic, or the byte in hexadecimal when there is none. -/
def text (o : Opcode) : String :=
  match o.mnemonic? with
  | some name => name
  | none => String.ofList ['0', 'x', hexDigit (o.byte.toNat / 16), hexDigit (o.byte.toNat % 16)]

end Opcode

end GlyphHint
