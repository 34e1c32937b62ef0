import ByteRegex.Byte.Basic

/-!
# Bytes as text

A byte is written in two ways: quoted, as the character with its number between single quotes,
and in hexadecimal, with two digits. Quoting escapes the quote, the backslash and whatever has
no visible form, so that a quoted byte is never ambiguous.
-/

namespace ByteRegex.Byte

/-! ## Hexadecimal digits -/

/-- The digits of a number in hexadecimal, in lower case and without leading zeros. -/
def hexDigits (n : Nat) : String := String.ofList (Nat.toDigits 16 n)

/-- A byte in hexadecimal with two digits, as in `0x0a`. -/
def hex (b : Byte) : String :=
  (if b < 0x10 then "0x0" else "0x") ++ hexDigits b.toNat

/-! ## Quoting -/

/-- Whether the character of a byte has a visible form: it is neither a control character, nor
the no-break space, nor the soft hyphen. -/
def isVisible (b : Byte) : Bool :=
  (0x20 ≤ b && b ≤ 0x7E) || (0xA1 ≤ b && b != 0xAD)

/-- What stands between the quotes for a byte. -/
def quotedBody (b : Byte) : String :=
  match b.char with
  | '\x00' => "\\0"
  | '\t' => "\\t"
  | '\n' => "\\n"
  | '\r' => "\\r"
  | '\'' => "\\'"
  | '\\' => "\\\\"
  | c => if b.isVisible then c.toString else "\\u\x7b" ++ hexDigits b.toNat ++ "\x7d"

/-- A byte between single quotes. -/
def quoted (b : Byte) : String := "'" ++ b.quotedBody ++ "'"

end ByteRegex.Byte
