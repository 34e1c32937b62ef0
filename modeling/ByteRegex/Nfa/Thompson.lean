import ByteRegex.Nfa.Error
import ByteRegex.Nfa.Fragment
import ByteRegex.Pattern.Tree

/-!
# The fragment of a tree

The nodes of a tree are compiled children first. The fragment of a node is kept in a slot until
the node's parent takes it, so a node with two parents is compiled once for each of them. No
fragment may have more states than the budget allows; repetition counts check it copy by copy.

Classes are kept in a pool, equal classes once, and labels name them by their place there.
-/

namespace ByteRegex

/-- A fragment, and the pool of the classes that its labels name. -/
structure Nfa where
  fragment : Fragment
  classes : Array ByteClass
deriving DecidableEq

namespace Thompson

/-! ## Settings and state -/

/-- What governs the construction. -/
structure Settings where
  /-- The greatest number of states that a fragment may have. -/
  budget : Nat := maxFragmentStates
  /-- Whether an alternative of two states is merged into the other one. -/
  fastUnion : Bool := true

/-- The state of the construction: the pool of classes, and for each node the fragment that its
parent has yet to take. -/
structure Workshop where
  classes : Array ByteClass
  slots : Array (Option Fragment)

/-- The workshop before the first node. -/
def Workshop.start (t : Tree) : Workshop := ⟨#[], Array.replicate t.size none⟩

/-- The place of a class in a pool, to which it is added if it is new. -/
def intern (classes : Array ByteClass) (c : ByteClass) : Array ByteClass × Nat :=
  match classes.idxOf? c with
  | some id => (classes, id)
  | none => (classes.push c, classes.size)

/-- The fragment of a node, if it is there; its slot is empty afterwards. -/
def take (slots : Array (Option Fragment)) (child : Option Nat) (parent : Token) :
    Except CompileError (Fragment × Array (Option Fragment)) :=
  match child.bind (slots[·]?.join) with
  | some f => .ok (f, slots.setIfInBounds (child.getD 0) none)
  | none => .error (.withoutOperand parent)

/-! ## Combinations -/

/-- A fragment, unless it exceeds the budget. -/
def withinBudget (budget : Nat) (f : Fragment) : Except CompileError Fragment :=
  if f.size ≤ budget then .ok f else .error (.budgetExceeded budget)

/-- Either of two fragments. -/
def alternate (fastUnion : Bool) (left right : Fragment) : Fragment :=
  if fastUnion && right.isTwoState then left.fastUnion right
  else if fastUnion && left.isTwoState then right.fastUnion left
  else left.union right

/-- A piece behind what there is already, if anything. -/
def append (budget : Nat) (whole : Option Fragment) (piece : Fragment) :
    Except CompileError Fragment :=
  withinBudget budget <| match whole with
    | none => piece
    | some whole => whole.concat piece

/-- A number of copies behind what there is already. -/
def appendCopies (budget : Nat) (piece : Fragment) :
    Nat → Option Fragment → Except CompileError (Option Fragment)
  | 0, whole => .ok whole
  | n + 1, whole => do
    let whole ← append budget whole piece
    appendCopies budget piece n (some whole)

/-- Put a number of optional copies in front, each around all that follows: `x(x(x)?)?`. -/
def nestOptional (budget : Nat) (piece : Fragment) :
    Nat → Fragment → Except CompileError Fragment
  | 0, tail => .ok tail
  | n + 1, tail => do
    let tail ← withinBudget budget (piece.concat tail).opt
    nestOptional budget piece n tail

/-- From `min` to `max` copies of a fragment; without `max`, any number from `min` on. -/
def repeated (budget : Nat) (piece : Fragment) (min : Nat) (max : Option Nat) :
    Except CompileError Fragment := do
  let whole ← appendCopies budget piece min none
  match max with
  | none => append budget whole piece.star
  | some max =>
    if min < max then
      append budget whole (← nestOptional budget piece (max - min - 1) piece.opt)
    else return whole.getD .epsilon

/-! ## Nodes -/

/-- The fragment of a node whose children have been compiled. -/
def compileNode (cfg : Settings) (w : Workshop) (node : Node) :
    Except CompileError (Fragment × Workshop) :=
  let ⟨classes, slots⟩ := w
  match node.token with
  | .byte b => .ok (.leaf (.byte b), ⟨classes, slots⟩)
  | .wildcard c => .ok (.leaf (.wildcard c), ⟨classes, slots⟩)
  | .anchor a => .ok (.leaf (.anchor a), ⟨classes, slots⟩)
  | .byteClass c =>
    let (classes, id) := intern classes c
    .ok (.leaf (.classRef id), ⟨classes, slots⟩)
  | .op .plus => do
    let (f, slots) ← take slots node.left node.token
    return (f.plus, ⟨classes, slots⟩)
  | .op .star => do
    let (f, slots) ← take slots node.left node.token
    return (f.star, ⟨classes, slots⟩)
  | .op .opt => do
    let (f, slots) ← take slots node.left node.token
    return (f.opt, ⟨classes, slots⟩)
  | .op .concat => do
    let (left, slots) ← take slots node.left node.token
    let (right, slots) ← take slots node.right node.token
    return (left.concat right, ⟨classes, slots⟩)
  | .op .alternation | .op .bracketAlternation => do
    let (left, slots) ← take slots node.left node.token
    let (right, slots) ← take slots node.right node.token
    return (alternate cfg.fastUnion left right, ⟨classes, slots⟩)
  | .count min max => do
    let (f, slots) ← take slots node.left node.token
    return (← repeated cfg.budget f min max, ⟨classes, slots⟩)
  | .openGroup | .closeGroup => .error (.groupMark node.token)

/-- Compile the node at a place, and put its fragment into its slot. -/
def compileAt (cfg : Settings) (nodes : Array Node) (w : Workshop) (id : Nat) :
    Except CompileError Workshop :=
  match nodes[id]? with
  | none => .ok w
  | some node => do
    let (f, w) ← compileNode cfg w node
    let f ← withinBudget cfg.budget f
    return { w with slots := w.slots.setIfInBounds id (some f) }

end Thompson

open Thompson in
/-- The fragment of a tree; without a root, that of the empty text. -/
def Nfa.ofTree (cfg : Thompson.Settings) (t : Tree) : Except CompileError Nfa :=
  match t.root with
  | none => .ok ⟨.epsilon, #[]⟩
  | some root => do
    let w ← t.postorder.foldlM (compileAt cfg t.nodes) (.start t)
    match t.nodes[root]? with
    | none => .ok ⟨.epsilon, w.classes⟩
    | some node =>
      let (f, _) ← take w.slots (some root) node.token
      return ⟨f, w.classes⟩

end ByteRegex
