import ByteRegex.Label.Basic

/-!
# Fragments

A fragment is a piece of an automaton with one start and one accepting state. States are numbered
from 0, and each has the list of its edges in the order in which they were added.

The operations are those of Thompson's construction. They rest on two facts that all of them keep:
no edge enters the start, and no edge leaves the accepting state. So concatenation can let the
accepting state of the left operand take the place of the start of the right one, and a fragment
of two states can be merged into another by copying its edges (`fastUnion`).
-/

namespace ByteRegex

/-- A piece of an automaton with one start and one accepting state. -/
structure Fragment where
  start : Nat
  accept : Nat
  /-- The edges that leave each state, in the order in which they were added. -/
  states : Array (List Edge)
deriving DecidableEq

namespace Fragment

/-- The number of states. -/
def size (f : Fragment) : Nat := f.states.size

/-- Whether there are only a start and an accepting state, so that every edge leads from one to
the other. -/
def isTwoState (f : Fragment) : Bool := f.size == 2

/-- The edges that leave a state. -/
def edges (f : Fragment) (s : Nat) : List Edge := f.states[s]?.getD []

/-! ## Fragments of one edge -/

/-- Two states joined by one edge. -/
def leaf (label : Label) : Fragment := ⟨0, 1, #[[⟨1, label⟩], []]⟩

/-- The fragment of the empty text. -/
def epsilon : Fragment := leaf .epsilon

/-! ## Surgery -/

/-- Add an edge behind those that leave a state. -/
def addEdge (states : Array (List Edge)) (source : Nat) (label : Label) (target : Nat) :
    Array (List Edge) :=
  states.modify source (· ++ [⟨target, label⟩])

/-- Rename the targets of all edges. -/
def renameTargets (rename : Nat → Nat) (states : Array (List Edge)) : Array (List Edge) :=
  states.map (·.map (·.retarget rename))

/-! ## Operations -/

/-- The name of a state of `right` after it was put behind `left`: its start is the accepting
state of `left`, and the others follow the states of `left`. -/
def behind (left right : Fragment) (s : Nat) : Nat :=
  if s < right.start then s + left.size
  else if s = right.start then left.accept
  else s + left.size - 1

/-- One fragment after another. The accepting state of `left` gets the edges of the start of
`right`. -/
def concat (left right : Fragment) : Fragment :=
  let rename := behind left right
  let moved := renameTargets rename right.states
  { start := left.start
    accept := rename right.accept
    states := left.states.setIfInBounds left.accept (moved[right.start]?.getD [])
      ++ moved.eraseIdxIfInBounds right.start }

/-- Either of two fragments, between a new start and a new accepting state. -/
def union (left right : Fragment) : Fragment :=
  let offset := left.size
  let start := left.size + right.size
  let accept := start + 1
  let states := left.states ++ renameTargets (· + offset) right.states
  let states := addEdge states left.accept .epsilon accept
  let states := addEdge states (right.accept + offset) .epsilon accept
  { start, accept
    states := states
      ++ #[[⟨left.start, .epsilon⟩, ⟨right.start + offset, .epsilon⟩], []] }

/-- Either a fragment or one of two states, whose edges are copied between the start and the
accepting state of the first. -/
def fastUnion (left right : Fragment) : Fragment :=
  { left with
    states := left.states.modify left.start
      (· ++ (right.edges right.start).map fun e => ⟨left.accept, e.label⟩) }

/-- Any number of passes through a fragment, between a new start and a new accepting state. -/
def star (f : Fragment) : Fragment :=
  let start := f.size
  let accept := start + 1
  let states := addEdge f.states f.accept .epsilon f.start
  let states := addEdge states f.accept .epsilon accept
  { start, accept, states := states ++ #[[⟨f.start, .epsilon⟩, ⟨accept, .epsilon⟩], []] }

/-- A fragment or nothing. -/
def opt (f : Fragment) : Fragment :=
  { f with states := addEdge f.states f.start .epsilon f.accept }

/-- One or more passes through a fragment. -/
def plus (f : Fragment) : Fragment := f.concat f.star

end Fragment

end ByteRegex
