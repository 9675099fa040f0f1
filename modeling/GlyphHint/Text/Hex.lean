set_option autoImplicit false

/-!
# Hexadecimal text

Bytes written as pairs of hexadecimal digits of either case.  Blanks may stand anywhere, and the
text may start with `0x`.  What is left after dropping both is read as UTF-8 bytes: an odd number of
them is refused before any digit is looked at, otherwise the first byte that is no digit is
reported with its position.

A refused byte is reported as the character of its number between single quotes, in the printed form
of characters up to U+00FF.  The quote, the backslash and the common control characters have short
escapes; the other characters without a visible form are written with their number.
-/

namespace GlyphHint

namespace Text

/-- The character has no visible form: a control character, the no-break space or the soft
hyphen. -/
def isInvisible (c : Char) : Bool :=
  c.toNat < 0x20 || (0x7F ≤ c.toNat && c.toNat ≤ 0xA0) || c.toNat == 0xAD

/-- The inside of the quoted form. -/
def escaped (c : Char) : List Char :=
  if c = '\x00' then ['\\', '0']
  else if c = '\t' then ['\\', 't']
  else if c = '\r' then ['\\', 'r']
  else if c = '\n' then ['\\', 'n']
  else if c = '\'' then ['\\', '\'']
  else if c = '\\' then ['\\', '\\']
  else if isInvisible c then "\\u\x7b".toList ++ Nat.toDigits 16 c.toNat ++ ['\x7d']
  else [c]

/-- The character between single quotes. -/
def quoted (c : Char) : String :=
  String.ofList ('\'' :: escaped c ++ ['\''])

end Text

namespace Hex

/-- Why a text is not hexadecimal. -/
inductive Fault where
  /-- the digits do not pair up -/
  | oddLength
  /-- the byte at a position is no digit -/
  | badDigit (byte : UInt8) (position : Nat)
  deriving DecidableEq, Repr, Inhabited

/-- The report of a refused text. -/
def Fault.message : Fault → String
  | .oddLength => "Odd number of digits"
  | .badDigit byte position =>
    "Invalid character " ++ Text.quoted (Char.ofUInt8 byte) ++ " at position " ++ toString position

/-- The blanks that may stand anywhere: space, tab, line feed, form feed, carriage return. -/
def isBlank (c : Char) : Bool :=
  c == ' ' || c == '\t' || c == '\n' || c == '\x0c' || c == '\r'

/-- The value of a hexadecimal digit. -/
def digit? (b : UInt8) : Option UInt8 :=
  if '0'.toUInt8 ≤ b && b ≤ '9'.toUInt8 then some (b - '0'.toUInt8)
  else if 'a'.toUInt8 ≤ b && b ≤ 'f'.toUInt8 then some (b - 'a'.toUInt8 + 10)
  else if 'A'.toUInt8 ≤ b && b ≤ 'F'.toUInt8 then some (b - 'A'.toUInt8 + 10)
  else none

/-- Drops one leading `0x`. -/
def dropMark : List Char → List Char
  | '0' :: 'x' :: rest => rest
  | cs => cs

/-- The bytes of a text that should be digits. -/
def digitBytes (text : String) : List UInt8 :=
  (dropMark (text.toList.filter (!isBlank ·))).flatMap String.utf8EncodeChar

/-- Joins pairs of digits, the first of which is at `position`, after the bytes joined so far. -/
def joinPairs (position : Nat) (joined : Array UInt8) : List UInt8 → Except Fault (Array UInt8)
  | hi :: lo :: rest =>
    match digit? hi, digit? lo with
    | none, _ => .error (.badDigit hi position)
    | some _, none => .error (.badDigit lo (position + 1))
    | some h, some l => joinPairs (position + 2) (joined.push (h * 16 + l)) rest
  | _ => .ok joined

/-- The bytes that a hexadecimal text stands for. -/
def decode (text : String) : Except Fault (Array UInt8) :=
  let digits := digitBytes text
  if digits.length % 2 = 1 then .error .oddLength else joinPairs 0 #[] digits

/-- The two digits of a byte in lower case. -/
def pair (b : UInt8) : List Char :=
  [Nat.digitChar (b.toNat / 16), Nat.digitChar (b.toNat % 16)]

/-- The text of bytes in lower case. -/
def encode (bytes : Array UInt8) : String :=
  String.ofList (bytes.toList.flatMap pair)

end Hex

end GlyphHint
