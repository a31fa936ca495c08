/-!
# Bytes of a text

Source text is UTF-8, and all positions in it are byte offsets. This module fixes the byte classes
the scanner and the searches go by.

- `encoded`: the bytes of a text.
- `isBlankByte`, `isWordByte`: blank space, and the bytes an identifier may consist of. Every byte
  of a character beyond ASCII counts as part of a word.
- `isBoundary`: offsets at which a character starts or the text ends.
- `startsAt`: does a byte pattern occur at an offset?
-/

namespace Concretion

namespace Text

/-- The UTF-8 bytes of a text. -/
def encoded (text : String) : Array UInt8 := text.toUTF8.data

/-- The UTF-8 bytes of a search pattern. -/
def pattern (text : String) : List UInt8 := (encoded text).toList

/-- Blank space between tokens: tab, line feed, form feed, carriage return and space. -/
def isBlankByte (b : UInt8) : Bool :=
  b == 0x09 || b == 0x0A || b == 0x0C || b == 0x0D || b == 0x20

/-- ASCII letters. -/
def isLetterByte (b : UInt8) : Bool :=
  (0x41 ≤ b && b ≤ 0x5A) || (0x61 ≤ b && b ≤ 0x7A)

/-- ASCII digits. -/
def isDigitByte (b : UInt8) : Bool := 0x30 ≤ b && b ≤ 0x39

/-- The bytes of identifiers: ASCII letters and digits, `_`, `$`, and all bytes of characters
beyond ASCII. -/
def isWordByte (b : UInt8) : Bool :=
  isLetterByte b || isDigitByte b || b == 0x5F || b == 0x24 || 0x80 ≤ b

/-- The bytes that continue a character of several bytes. -/
def isContinuation (b : UInt8) : Bool := 0x80 ≤ b && b < 0xC0

/-- Is `offset` the start of a character, or the end of the text? -/
def isBoundary (bytes : Array UInt8) (offset : Nat) : Bool :=
  match bytes[offset]? with
  | some b => offset == 0 || !isContinuation b
  | none => offset == bytes.size

/-- Do the bytes from `offset` on begin with the given pattern? -/
def startsAt (bytes : Array UInt8) : List UInt8 → Nat → Bool
  | [], _ => true
  | b :: rest, offset => bytes[offset]? == some b && startsAt bytes rest (offset + 1)

/-- Does a text consist of ASCII letters only? -/
def isAlphabetic (text : String) : Bool := (pattern text).all isLetterByte

end Text

end Concretion
