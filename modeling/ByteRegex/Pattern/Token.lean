import ByteRegex.Label.Basic

/-!
# Tokens

A pattern is a sequence of tokens: operands by themselves (atoms), operators, repetition counts
and group marks. Juxtaposition is an operator too, `Operator.concat`, although it is written with
nothing; it stands between a token that ends an operand and a token that begins one.
-/

namespace ByteRegex

/-! ## Operators -/

/-- What combines the operands of a pattern. -/
inductive Operator where
  /-- `+` -/
  | plus
  /-- `*` -/
  | star
  /-- `?` -/
  | opt
  /-- Between adjacent operands. -/
  | concat
  /-- `|` -/
  | alternation
  /-- Between the members of a small bracket expression. -/
  | bracketAlternation
deriving DecidableEq

namespace Operator

/-- Whether an operator stands between two operands; the others follow one. -/
def isBinary : Operator → Bool
  | plus | star | opt => false
  | concat | alternation | bracketAlternation => true

/-- How loosely an operator binds: of two operators, the one of lower level binds tighter. -/
def level : Operator → Nat
  | plus | star | opt => 1
  | concat => 2
  | alternation | bracketAlternation => 3

/-- The text of an operator. -/
def text : Operator → String
  | plus => "+"
  | star => "*"
  | opt => "?"
  | concat => "·"
  | alternation => "|"
  | bracketAlternation => "‖"

end Operator

/-! ## Tokens -/

/-- A lexical unit of a pattern. -/
inductive Token where
  | byte (b : Byte)
  | wildcard (w : Wildcard)
  | anchor (a : Anchor)
  | byteClass (c : ByteClass)
  /-- At least `min` and at most `max` copies of the operand before it; no `max` is no bound. -/
  | count (min : Nat) (max : Option Nat)
  | op (o : Operator)
  | openGroup
  | closeGroup
deriving DecidableEq

namespace Token

/-- Whether a token is an operand by itself. -/
def isAtom : Token → Bool
  | byte _ | wildcard _ | anchor _ | byteClass _ => true
  | count _ _ | op _ | openGroup | closeGroup => false

/-- Whether an operand can begin with a token. -/
def beginsOperand : Token → Bool
  | openGroup => true
  | t => t.isAtom

/-- Whether an operand can end with a token. -/
def endsOperand : Token → Bool
  | closeGroup | count _ _ => true
  | op o => !o.isBinary
  | t => t.isAtom

/-- The text of a repetition count. -/
def countText (min : Nat) : Option Nat → String
  | none => "\x7b" ++ toString min ++ ",\x7d"
  | some max =>
    if min = max then "\x7b" ++ toString min ++ "\x7d"
    else "\x7b" ++ toString min ++ "," ++ toString max ++ "\x7d"

/-- The text of a token. -/
def text : Token → String
  | byte b => b.quoted
  | wildcard w => w.text
  | anchor a => a.text
  | byteClass c => c.text
  | count min max => countText min max
  | op o => o.text
  | openGroup => "("
  | closeGroup => ")"

/-- The texts of a list of tokens, separated by blanks. -/
def listText (ts : List Token) : String := " ".intercalate (ts.map text)

/-! ## Juxtaposition -/

/-- Make juxtaposition explicit: a concatenation operator goes between two neighbours of which
the first ends an operand and the second begins one. -/
def joinOperands : List Token → List Token
  | [] => []
  | [t] => [t]
  | t :: u :: ts =>
    if t.endsOperand && u.beginsOperand then t :: op .concat :: joinOperands (u :: ts)
    else t :: joinOperands (u :: ts)

end Token

end ByteRegex
