import ByteRegex.Pattern.Lexer
import ByteRegex.Pattern.Order

/-!
# Syntax trees

A syntax tree is an arena: an array of nodes that name their children by place, and the place of
the root. The tree of the empty pattern has neither nodes nor root.

`Tree.ofOrdered` builds a tree from tokens of which each operator comes after its operands. The
node of the `i`-th token is the `i`-th node, so the children of a node lie before it. An arena
that comes from elsewhere may be of any shape; a child may be missing, superfluous or shared.

`Tree.postorder` lists the places below the root, children first. A path down an arena without
cycles passes through each node at most once, so the number of nodes bounds the depth of the
walk. A loop that keeps a stack lists the same places (`Tree.postorder_of_leads`).
-/

namespace ByteRegex

/-! ## Arenas -/

/-- A node of a syntax tree. The operand of an operator that has one operand is on the left. -/
structure Node where
  token : Token
  left : Option Nat
  right : Option Nat
deriving DecidableEq

/-- A syntax tree as an arena of nodes. -/
structure Tree where
  nodes : Array Node
  root : Option Nat
deriving DecidableEq

namespace Tree

/-- The tree of the empty pattern. -/
def empty : Tree := ⟨#[], none⟩

/-- The number of nodes. -/
def size (t : Tree) : Nat := t.nodes.size

/-! ## Order of the nodes -/

/-- The places below `id`, children before parents, in front of `rest`. The first argument bounds
the depth of the walk. -/
def walk (nodes : Array Node) : Nat → Nat → List Nat → List Nat
  | 0, _, rest => rest
  | depth + 1, id, rest =>
    match nodes[id]? with
    | none => rest
    | some node =>
      let rest := id :: rest
      let rest := match node.right with
        | some r => walk nodes depth r rest
        | none => rest
      match node.left with
      | some l => walk nodes depth l rest
      | none => rest

/-- The places below the root, children before parents, left before right. A node with several
parents is listed once for each. -/
def postorder (t : Tree) : List Nat :=
  match t.root with
  | some r => walk t.nodes t.size r []
  | none => []

end Tree

/-! ## Building -/

/-- How many operands a token takes, and whether it is a group mark. -/
inductive Token.Role where
  | operand
  | unary
  | binary
  | groupMark
deriving DecidableEq

/-- The part that a token plays in a tree. -/
def Token.role : Token → Token.Role
  | .byte _ | .wildcard _ | .anchor _ | .byteClass _ => .operand
  | .count _ _ => .unary
  | .op o => if o.isBinary then .binary else .unary
  | .openGroup | .closeGroup => .groupMark

namespace Tree

/-- Add the nodes of the tokens, given the stack of the operands that have no parent yet. At the
end exactly one operand is left, which is the root. -/
def build (nodes : Array Node) : List Nat → List Token → Except SyntaxError Tree
  | [root], [] => .ok ⟨nodes, some root⟩
  | [], [] => .error .missingOperand
  | stack, [] => .error (.danglingOperands stack.length)
  | stack, t :: ts =>
    match t.role, stack with
    | .operand, stack => build (nodes.push ⟨t, none, none⟩) (nodes.size :: stack) ts
    | .unary, operand :: stack =>
      build (nodes.push ⟨t, some operand, none⟩) (nodes.size :: stack) ts
    | .binary, right :: left :: stack =>
      build (nodes.push ⟨t, some left, some right⟩) (nodes.size :: stack) ts
    | .groupMark, _ => .error .unbalancedParenthesis
    | _, _ => .error .missingOperand

/-- The tree of tokens of which each operator comes after its operands. -/
def ofOrdered (ts : List Token) : Except SyntaxError Tree := build #[] [] ts

/-- The tree of the tokens of a pattern. -/
def ofTokens (ts : List Token) : Except SyntaxError Tree :=
  if ts.isEmpty then .ok empty else do ofOrdered (← Token.reorder ts)

/-- The tree of a pattern. -/
def parse (pattern : List Byte) : Except SyntaxError Tree := do
  ofTokens (← tokenize pattern)

end Tree

end ByteRegex
