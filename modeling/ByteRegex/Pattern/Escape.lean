import ByteRegex.Label.Basic

/-!
# Escapes

A backslash gives the byte after it another meaning: marks of the notation stand for themselves,
some letters for control bytes, others for wildcards or for the word boundary: these are all the
escapes that there are (`Escape.ofByte?_eq_some_iff`). `Escape.text` goes the other way: it puts a
backslash before every mark, so that the result matches the text literally.
-/

namespace ByteRegex

/-- What a backslash and the byte after it stand for. -/
inductive Escape where
  | byte (b : Byte)
  | wildcard (w : Wildcard)
  | wordBoundary
deriving DecidableEq

namespace Escape

/-- The characters that stand for themselves after a backslash. -/
def marks : List Char :=
  ['.', '+', '*', '?', '|', '(', ')', '{', '}', '[', ']', '\\', '^', '$', '-']

/-- Whether a byte stands for itself after a backslash. -/
def isMark (b : Byte) : Bool := marks.contains b.char

/-- The meaning of a byte after a backslash, if it has one. -/
def ofByte? (b : Byte) : Option Escape :=
  if isMark b then some (byte b)
  else match b.char with
    | 'n' => some (byte 0x0A)
    | 'r' => some (byte 0x0D)
    | 't' => some (byte 0x09)
    | 'v' => some (byte 0x0B)
    | 'f' => some (byte 0x0C)
    | 'b' => some wordBoundary
    | _ => (Wildcard.ofLetter? b).map wildcard

/-- What is documented: marks, control bytes, wildcards and the word boundary, each with the
character that is written after the backslash. -/
def table : List (Char × Escape) :=
  ".+*?|()\x7b\x7d[]\\^$-".toList.map (fun c => (c, byte (UInt8.ofNat c.toNat))) ++
    [('n', byte 10), ('r', byte 13), ('t', byte 9), ('v', byte 11), ('f', byte 12)] ++
    [('d', wildcard .digit), ('D', wildcard .notDigit), ('w', wildcard .word),
      ('W', wildcard .notWord), ('s', wildcard .space), ('S', wildcard .notSpace)] ++
    [('b', wordBoundary)]

/-- **The escapes are those of the table**, and no others. -/
theorem ofByte?_eq_some_iff {b : Byte} {e : Escape} :
    ofByte? b = some e ↔ (b.char, e) ∈ table := by
  have hsound : ∀ n < 256, (ofByte? (UInt8.ofNat n)).all
      fun e => decide ((Byte.char (UInt8.ofNat n), e) ∈ table) := by decide +kernel
  have hcomplete : ∀ n < 256, ∀ p ∈ table, Byte.char (UInt8.ofNat n) = p.1 →
      ofByte? (UInt8.ofNat n) = some p.2 := by decide +kernel
  rw [← UInt8.ofNat_toNat (x := b)]
  constructor
  · intro h
    have hall := hsound b.toNat b.toNat_lt
    rw [h] at hall
    exact of_decide_eq_true hall
  · intro h
    exact hcomplete b.toNat b.toNat_lt _ h rfl

/-- A character of literal text as it is written in a pattern. -/
def ofChar (c : Char) : List Char := if marks.contains c then ['\\', c] else [c]

/-- A pattern that matches a text literally. -/
def text (s : String) : String := String.ofList (s.toList.flatMap ofChar)

end Escape

end ByteRegex
