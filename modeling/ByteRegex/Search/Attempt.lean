import ByteRegex.Automaton
import ByteRegex.Search.DepthTable

/-!
# The longest match at an offset

An attempt looks for the longest match that starts at one offset of a buffer. It explores pairs of
a state and a position, the newest first, and remembers for each pair the smallest number of edges
after which it was there. A pair is explored again only when it is reached over fewer edges than
before: so a search with a ceiling finds whatever lies below the ceiling on some path, in
whichever order the paths are tried.

A pair at the ceiling is not explored further; the depth at which that happened is reported.

## Termination

Exploring a pair lowers the weight of the depth table, and passing over a pair shortens the
frontier. Positions are bounded by the bytes that remain (`Spot.pos_le`), which is what makes the
weight finite.
-/

namespace ByteRegex

/-- The number of edges after which a search gives up a branch, unless told otherwise. -/
def searchDepthLimit : Nat := 100000

/-! ## Spots -/

/-- Where a search is: a state, a position counted from the offset of the attempt, and the number
of edges followed so far. The positions reach up to `last`. -/
structure Spot (last : Nat) where
  state : Nat
  pos : Nat
  depth : Nat
  pos_le : pos ≤ last

namespace Spot

/-- Where an edge leads from a spot, if it can be followed. -/
def follow? (classes : Array ByteClass) (buffer : Buffer) (offset : Nat)
    (s : Spot (buffer.size - offset)) (e : Edge) : Option (Spot (buffer.size - offset)) :=
  match e.label with
  | .epsilon => some { s with state := e.target, depth := s.depth + 1 }
  | .anchor a =>
    if a.holdsAt buffer (offset + s.pos) then
      some { s with state := e.target, depth := s.depth + 1 }
    else none
  | label =>
    if h : offset + s.pos < buffer.size then
      if label.accepts classes buffer[offset + s.pos] then
        some ⟨e.target, s.pos + 1, s.depth + 1, by omega⟩
      else none
    else none

/-- The spots that the edges of a row lead to, in front of a frontier; the last edge of the row
comes first. -/
def pushAll (classes : Array ByteClass) (buffer : Buffer) (offset : Nat)
    (s : Spot (buffer.size - offset)) (row : List Edge)
    (frontier : List (Spot (buffer.size - offset))) : List (Spot (buffer.size - offset)) :=
  row.foldl (fun frontier e => match s.follow? classes buffer offset e with
    | some s => s :: frontier
    | none => frontier) frontier

end Spot

/-! ## Exploration -/

/-- What an attempt finds. -/
structure Attempt where
  /-- The length of the longest match. -/
  length : Option Nat
  /-- The depths at which branches were given up, in order. -/
  abandoned : Array Nat
deriving DecidableEq

/-- The longer of the best match so far and a match of length `pos`. -/
def longerMatch (best : Option Nat) (pos : Nat) : Option Nat :=
  match best with
  | none => some pos
  | some b => if b < pos then some pos else some b

/-- Explore a frontier, given the depth table, the best match and the branches given up so far. -/
def explore (a : Automaton) (limit : Nat) (buffer : Buffer) (offset : Nat)
    (table : DepthTable) (best : Option Nat) (abandoned : Array Nat) :
    List (Spot (buffer.size - offset)) → Attempt × DepthTable
  | [] => (⟨best, abandoned⟩, table)
  | s :: rest =>
    if _h : table.improves s.pos s.state s.depth = true then
      let table := table.record s.pos s.state s.depth
      let best := if a.isFinal s.state then longerMatch best s.pos else best
      if limit ≤ s.depth then
        explore a limit buffer offset table best (abandoned.push s.depth) rest
      else
        explore a limit buffer offset table best abandoned
          (s.pushAll a.classes buffer offset (a.edges s.state) rest)
    else explore a limit buffer offset table best abandoned rest
termination_by frontier => (table.weight (buffer.size - offset), frontier.length)
decreasing_by
  · exact .left _ _ (DepthTable.weight_record_lt _h s.pos_le)
  · exact .left _ _ (DepthTable.weight_record_lt _h s.pos_le)
  · exact .right _ (by simp)

/-! ## Attempters -/

/-- Makes attempts on one automaton. The depth table is kept from one attempt to the next. -/
structure Attempter where
  automaton : Automaton
  depthLimit : Nat
  table : DepthTable

namespace Attempter

/-- An attempter that has made no attempt. -/
def new (a : Automaton) (depthLimit : Nat) : Attempter := ⟨a, depthLimit, .empty a.stateCount⟩

/-- The spots where an attempt begins, the last start first. -/
def startSpots (a : Automaton) (last : Nat) : List (Spot last) :=
  a.starts.toList.reverse.map fun s => ⟨s, 0, 0, Nat.zero_le _⟩

/-- The longest match at an offset, and the attempter for the next attempt. There is no match
beyond the end of the buffer. -/
def longestMatch : Attempter → Buffer → Nat → Attempt × Attempter
  | ⟨a, depthLimit, table⟩, buffer, offset =>
    if buffer.size < offset then (⟨none, #[]⟩, ⟨a, depthLimit, table⟩)
    else
      let (attempt, table) := explore a depthLimit buffer offset table.clear none #[]
        (startSpots a (buffer.size - offset))
      (attempt, ⟨a, depthLimit, table⟩)

end Attempter

/-- The longest match at an offset, by itself. -/
def Automaton.longestMatch (a : Automaton) (depthLimit : Nat) (buffer : Buffer) (offset : Nat) :
    Attempt :=
  ((Attempter.new a depthLimit).longestMatch buffer offset).1

end ByteRegex
