import ByteRegex.Pattern.Error
import ByteRegex.Pattern.Token

/-!
# Operators after their operands

`Token.reorder` puts the tokens of a pattern into the order in which a tree is built from them:
each operator comes after its operands, and group marks are gone. Operators that follow their
operand and counts are in place already. A binary operator waits on a stack until one that binds
no tighter, a closing group or the end arrives; operators of one level wait for each other, so
that their chains nest to the right.
-/

namespace ByteRegex

/-- What waits for its place: the start of a group, or a binary operator. -/
inductive Waiting where
  | group
  | operator (o : Operator)
deriving DecidableEq

namespace Waiting

/-- Whether a waiting operator binds tighter than another, and so has its operands before it. -/
def bindsTighterThan (o : Operator) : Waiting → Bool
  | group => false
  | operator top => top.level < o.level

/-- Whether an operator waits here, as opposed to the start of a group. -/
def isOperator : Waiting → Bool
  | group => false
  | operator _ => true

/-- The token of a waiting operator. -/
def tokens : Waiting → List Token
  | group => []
  | operator o => [.op o]

end Waiting

namespace Token

/-- Place the rest of the tokens, given the stack of what waits. -/
def place : List Waiting → List Token → Except SyntaxError (List Token)
  | stack, [] =>
    if stack.all Waiting.isOperator then .ok (stack.flatMap Waiting.tokens)
    else .error .unbalancedParenthesis
  | stack, .openGroup :: ts => place (.group :: stack) ts
  | stack, .closeGroup :: ts =>
    match stack.dropWhile Waiting.isOperator with
    | [] => .error .unbalancedParenthesis
    | _ :: below =>
      (place below ts).map
        ((stack.takeWhile Waiting.isOperator).flatMap Waiting.tokens ++ ·)
  | stack, .op o :: ts =>
    if o.isBinary then
      let ready := stack.takeWhile (Waiting.bindsTighterThan o)
      let below := stack.dropWhile (Waiting.bindsTighterThan o)
      (place (.operator o :: below) ts).map (ready.flatMap Waiting.tokens ++ ·)
    else (place stack ts).map (.op o :: ·)
  | stack, t :: ts => (place stack ts).map (t :: ·)

/-- The tokens of a pattern with each operator after its operands, and without group marks. -/
def reorder (ts : List Token) : Except SyntaxError (List Token) := place [] ts

end Token

end ByteRegex
