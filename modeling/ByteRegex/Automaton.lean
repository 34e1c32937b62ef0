import ByteRegex.Label.Basic
import ByteRegex.Nfa.StateSet

/-!
# Automata

An automaton has states numbered from 0, some of which are starts and some finals, and for each
state the row of its edges. It may be nondeterministic, and several edges may join the same two
states. A row is in ascending order of targets; edges with the same target keep the order in
which they were listed.
-/

namespace ByteRegex

/-- An automaton for searching. -/
structure Automaton where
  /-- The edges that leave each state, in ascending order of targets. -/
  rows : Array (List Edge)
  starts : StateSet
  finals : StateSet
  /-- The classes that labels name. -/
  classes : Array ByteClass

namespace Automaton

/-! ## Construction -/

/-- Sort edges by target, and keep the order of those that have the same one. -/
def sortRow (row : List Edge) : List Edge := row.mergeSort fun d e => d.target ≤ e.target

/-- Add listed edges behind those that leave a state. -/
def addRow (rows : Array (List Edge)) (listed : Nat × List Edge) : Array (List Edge) :=
  rows.modify listed.1 (· ++ listed.2)

/-- The automaton with the listed edges. A state may be listed several times. -/
def ofEdges (states : Nat) (listed : List (Nat × List Edge)) (starts finals : StateSet)
    (classes : Array ByteClass) : Automaton :=
  { rows := (listed.foldl addRow (Array.replicate states [])).map sortRow
    starts, finals, classes }

/-! ## Access -/

/-- The number of states. -/
def stateCount (a : Automaton) : Nat := a.rows.size

/-- The edges that leave a state, in ascending order of targets. -/
def edges (a : Automaton) (source : Nat) : List Edge := a.rows[source]?.getD []

/-- The labels of the edges that join two states. -/
def cell (a : Automaton) (source target : Nat) : List Label :=
  ((a.edges source).filter (·.target == target)).map (·.label)

/-- The number of edges. -/
def edgeCount (a : Automaton) : Nat := a.rows.foldl (fun count row => count + row.length) 0

/-- Whether a search may start in a state. -/
def isStart (a : Automaton) (s : Nat) : Bool := a.starts.contains s

/-- Whether a match may end in a state. -/
def isFinal (a : Automaton) (s : Nat) : Bool := a.finals.contains s

end Automaton

end ByteRegex
