import ByteRegex.Byte.Quoted

/-!
# What can be wrong with a pattern

Each constructor is one cause, with what its message needs to say. The wording is in
`SyntaxError.message` alone.
-/

namespace ByteRegex

/-! ## Limits of the notation -/

/-- The greatest length of a pattern, in bytes. -/
def maxPatternLength : Nat := 4096

/-- The greatest value of a repetition count. -/
def maxCount : Nat := 255

/-- The greatest number of digits of a repetition count. -/
def maxCountDigits : Nat := 3

/-! ## Errors -/

/-- Why a text is not a pattern. -/
inductive SyntaxError where
  | patternTooLong (length : Nat)
  | unterminatedEscape
  | invalidEscape (b : Byte)
  | emptyBracket
  | unterminatedBracket
  | invertedRange (lo hi : Byte)
  | incompleteRange
  | invalidRangeBound
  | countNotNumber (b : Byte)
  | countWithoutMinimum
  | countOverLimit
  | countTooManyDigits
  | invertedCount (min max : Nat)
  | unterminatedCount
  | unbalancedParenthesis
  | missingOperand
  | danglingOperands (count : Nat)
deriving DecidableEq

namespace SyntaxError

/-- The message of an error. -/
def message : SyntaxError → String
  | patternTooLong length =>
    "pattern is " ++ toString length ++ " bytes long, the limit is " ++ toString maxPatternLength
  | unterminatedEscape => "incomplete escape at end of pattern"
  | invalidEscape b => "invalid escape '\\" ++ b.char.toString ++ "'"
  | emptyBracket => "empty bracket expression"
  | unterminatedBracket => "unterminated bracket expression"
  | invertedRange lo hi =>
    "range out of order: " ++ lo.quoted ++ " is greater than " ++ hi.quoted
  | incompleteRange => "'-' in bracket expression needs a character on both sides"
  | invalidRangeBound => "a class escape cannot bound a range"
  | countNotNumber b => "invalid character " ++ b.quoted ++ " in duplication count"
  | countWithoutMinimum => "duplication is missing its minimum count"
  | countOverLimit => "duplication count exceeds " ++ toString maxCount
  | countTooManyDigits =>
    "duplication count has more than " ++ toString maxCountDigits ++ " digits"
  | invertedCount min max =>
    "duplication minimum " ++ toString min ++ " is greater than maximum " ++ toString max
  | unterminatedCount => "unterminated duplication count"
  | unbalancedParenthesis => "unbalanced parenthesis"
  | missingOperand => "operator is missing an operand"
  | danglingOperands count =>
    "pattern leaves " ++ toString count ++ " disconnected expressions"

end SyntaxError

end ByteRegex
