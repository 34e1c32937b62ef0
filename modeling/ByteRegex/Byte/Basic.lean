/-!
# Bytes

Patterns and buffers are sequences of bytes. This module holds the kinds of bytes that the
wildcards and the word boundary speak of, and the view of a byte as the character with the
same number (`U+0000` to `U+00FF`), which is how a byte is compared with an ASCII mark and how
it is shown in a message.
-/

namespace ByteRegex

/-- A byte of a pattern or of a buffer. -/
abbrev Byte := UInt8

/-- A sequence of bytes with constant-time access, as searched. -/
abbrev Buffer := Array Byte

namespace Byte

/-- The character whose code point is the byte's number. -/
def char (b : Byte) : Char := Char.ofUInt8 b

/-- The byte that separates lines. -/
def newline : Byte := 0x0A

/-- `0` to `9`. -/
def isDigit (b : Byte) : Bool := 0x30 ≤ b && b ≤ 0x39

/-- ASCII letters. -/
def isLetter (b : Byte) : Bool := (0x41 ≤ b && b ≤ 0x5A) || (0x61 ≤ b && b ≤ 0x7A)

/-- Letters, digits and the underscore. -/
def isWord (b : Byte) : Bool := b.isLetter || b.isDigit || b == 0x5F

/-- The blank, and tab, line feed, vertical tab, form feed and carriage return. -/
def isSpace (b : Byte) : Bool := b == 0x20 || (0x09 ≤ b && b ≤ 0x0D)

/-- The value of a digit. -/
def digitValue (b : Byte) : Nat := b.toNat - 0x30

end Byte

end ByteRegex
