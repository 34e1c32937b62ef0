import ByteRegex.Pattern.Token

/-!
# Why a tree cannot be compiled

A tree is refused if it is not well formed, or if what it compiles to would be too large.
-/

namespace ByteRegex

/-- The greatest number of states of a fragment. -/
def maxFragmentStates : Nat := 32768

/-- The greatest number of states of an automaton. -/
def maxAutomatonStates : Nat := 4096

/-- Why a syntax tree has no automaton. -/
inductive CompileError where
  /-- A group mark has no place in a tree. -/
  | groupMark (t : Token)
  /-- An operator of the tree lacks an operand. -/
  | withoutOperand (t : Token)
  | budgetExceeded (budget : Nat)
  | automatonTooLarge (states limit : Nat)
deriving DecidableEq

namespace CompileError

/-- The message of an error. -/
def message : CompileError → String
  | groupMark t => "unsupported token in syntax tree: " ++ t.text
  | withoutOperand t => "unsupported token in syntax tree: " ++ t.text ++ " without operand"
  | budgetExceeded budget => "automaton would exceed " ++ toString budget ++ " states"
  | automatonTooLarge states limit =>
    "reduced automaton has " ++ toString states ++ " states, the limit is " ++ toString limit

end CompileError

end ByteRegex
