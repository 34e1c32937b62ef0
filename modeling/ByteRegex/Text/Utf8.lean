import ByteRegex.Byte.Basic

/-!
# Bytes as UTF-8, with replacement

A sequence of bytes is shown as text by reading it as UTF-8 and putting the replacement character
`U+FFFD` in place of each longest piece that begins like a character but is none. The reader
takes one byte at a time; a byte that does not continue the character begun before is read again
as the first byte of another one.
-/

namespace ByteRegex.Utf8

/-- What stands for bytes that are not UTF-8. -/
def replacement : Char := '\uFFFD'

/-- The state of the reader. -/
inductive Reader where
  /-- Between characters. -/
  | start
  /-- In a character whose code point so far is `value`: `needed` more bytes belong to it, the
  next of which lies between `lo` and `hi`. -/
  | inside (needed value : Nat) (lo hi : Byte)
deriving DecidableEq

/-- The first byte of a character: the state after it, and the character if it is complete. -/
def first (b : Byte) : Reader × List Char :=
  let n := b.toNat
  if n < 0x80 then (.start, [Char.ofNat n])
  else if n < 0xC2 then (.start, [replacement])
  else if n < 0xE0 then (.inside 1 (n - 0xC0) 0x80 0xBF, [])
  else if n < 0xF0 then
    (.inside 2 (n - 0xE0) (if n = 0xE0 then 0xA0 else 0x80) (if n = 0xED then 0x9F else 0xBF), [])
  else if n < 0xF5 then
    (.inside 3 (n - 0xF0) (if n = 0xF0 then 0x90 else 0x80) (if n = 0xF4 then 0x8F else 0xBF), [])
  else (.start, [replacement])

/-- Read one byte. -/
def step : Reader → Byte → Reader × List Char
  | .start, b => first b
  | .inside needed value lo hi, b =>
    if lo ≤ b && b ≤ hi then
      let value := value * 64 + (b.toNat - 0x80)
      if needed ≤ 1 then (.start, [Char.ofNat value])
      else (.inside (needed - 1) value 0x80 0xBF, [])
    else
      let (r, cs) := first b
      (r, replacement :: cs)

/-- The characters of a sequence of bytes, from some state of the reader on. -/
def read : Reader → List Byte → List Char
  | .start, [] => []
  | .inside .., [] => [replacement]
  | r, b :: bs =>
    let (r, cs) := step r b
    cs ++ read r bs

/-- The text of a sequence of bytes. -/
def decodeLossy (bs : List Byte) : String := String.ofList (read .start bs)

end ByteRegex.Utf8
