import ByteRegex.Byte.ByteSet

/-!
# Predicates on a single byte

A wildcard is a named predicate on bytes, and a byte class is an explicit set of bytes,
possibly negated. A wildcard can also be given as a set (`Wildcard.toSet`), which is how it
becomes part of a class.
-/

namespace ByteRegex

/-! ## Wildcards -/

/-- The predicates written with a dot or with a letter after a backslash. -/
inductive Wildcard where
  /-- `.`: anything but a newline. -/
  | any
  | digit
  | notDigit
  | word
  | notWord
  | space
  | notSpace
deriving DecidableEq

namespace Wildcard

/-- Whether a wildcard accepts a byte. -/
def accepts : Wildcard → Byte → Bool
  | any, b => b != Byte.newline
  | digit, b => b.isDigit
  | notDigit, b => !b.isDigit
  | word, b => b.isWord
  | notWord, b => !b.isWord
  | space, b => b.isSpace
  | notSpace, b => !b.isSpace

/-- The digits as a set. -/
def digits : ByteSet := .ofRanges [(0x30, 0x39)]

/-- The word bytes as a set. -/
def words : ByteSet := .ofRanges [(0x30, 0x39), (0x41, 0x5A), (0x5F, 0x5F), (0x61, 0x7A)]

/-- The blank bytes as a set. -/
def spaces : ByteSet := .ofRanges [(0x09, 0x0D), (0x20, 0x20)]

/-- The bytes that a wildcard accepts. -/
def toSet : Wildcard → ByteSet
  | any => (ByteSet.ofList [Byte.newline]).compl
  | digit => digits
  | notDigit => digits.compl
  | word => words
  | notWord => words.compl
  | space => spaces
  | notSpace => spaces.compl

/-- The wildcard of an escape letter, as in `\d`. -/
def ofLetter? (b : Byte) : Option Wildcard :=
  match b.char with
  | 'd' => some digit
  | 'D' => some notDigit
  | 'w' => some word
  | 'W' => some notWord
  | 's' => some space
  | 'S' => some notSpace
  | _ => none

/-- A wildcard as it is written in a pattern. -/
def text : Wildcard → String
  | any => "."
  | digit => "\\d"
  | notDigit => "\\D"
  | word => "\\w"
  | notWord => "\\W"
  | space => "\\s"
  | notSpace => "\\S"

/-- The place of a wildcard in the order of labels. -/
def rank : Wildcard → Nat
  | any => 0
  | digit => 1
  | notDigit => 2
  | word => 3
  | notWord => 4
  | space => 5
  | notSpace => 6

theorem rank_lt (w : Wildcard) : w.rank < 7 := by cases w <;> decide

theorem rank_inj {v w : Wildcard} (h : v.rank = w.rank) : v = w := by
  cases v <;> cases w <;> first | rfl | simp [rank] at h

theorem contains_digits (b : Byte) : digits.contains b = b.isDigit := by
  simp [digits, ByteSet.ofRanges, Byte.isDigit]

theorem contains_words (b : Byte) : words.contains b = b.isWord := by
  simp only [words, ByteSet.ofRanges, List.foldl_cons, List.foldl_nil,
    ByteSet.contains_insertRange, ByteSet.contains_empty, Bool.false_or, Byte.isWord,
    Byte.isDigit, Byte.isLetter]
  rw [Bool.eq_iff_iff]
  simp only [Bool.or_eq_true, Bool.and_eq_true, decide_eq_true_eq, beq_iff_eq,
    UInt8.le_iff_toNat_le, ← UInt8.toNat_inj]
  simp only [UInt8.reduceToNat]
  omega

theorem contains_spaces (b : Byte) : spaces.contains b = b.isSpace := by
  simp only [spaces, ByteSet.ofRanges, List.foldl_cons, List.foldl_nil,
    ByteSet.contains_insertRange, ByteSet.contains_empty, Bool.false_or, Byte.isSpace]
  rw [Bool.eq_iff_iff]
  simp only [Bool.or_eq_true, Bool.and_eq_true, decide_eq_true_eq, beq_iff_eq,
    UInt8.le_iff_toNat_le, ← UInt8.toNat_inj]
  simp only [UInt8.reduceToNat]
  omega

/-- The set of a wildcard holds exactly what the wildcard accepts. -/
@[simp] theorem contains_toSet (w : Wildcard) (b : Byte) : w.toSet.contains b = w.accepts b := by
  cases w with
  | any =>
    simp only [toSet, accepts, ByteSet.ofList, List.foldl_cons, List.foldl_nil,
      ByteSet.contains_compl, ByteSet.contains_insert, ByteSet.contains_empty, Bool.false_or]
    rw [bne, Bool.beq_comm]
  | digit => simp [toSet, accepts, contains_digits]
  | notDigit => simp [toSet, accepts, contains_digits]
  | word => simp [toSet, accepts, contains_words]
  | notWord => simp [toSet, accepts, contains_words]
  | space => simp [toSet, accepts, contains_spaces]
  | notSpace => simp [toSet, accepts, contains_spaces]

end Wildcard

/-! ## Classes -/

/-- What a bracket expression stands for: its members, or everything else. -/
structure ByteClass where
  negated : Bool
  members : ByteSet
deriving DecidableEq

namespace ByteClass

/-- Whether a class accepts a byte. -/
def accepts (c : ByteClass) (b : Byte) : Bool := c.members.contains b != c.negated

/-- The text of a class, with a caret if it is negated. -/
def text (c : ByteClass) : String :=
  "[" ++ (if c.negated then "^" else "") ++ c.members.text ++ "]"

end ByteClass

end ByteRegex
