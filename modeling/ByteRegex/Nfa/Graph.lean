import ByteRegex.Automaton
import ByteRegex.Nfa.Thompson
import ByteRegex.SortedSet

/-!
# Removal of epsilon edges

A graph is a fragment on its way to becoming an automaton: a set of edges for each state, a set of
starts and a set of finals. Reduction goes in four steps.

* `renumber` drops the states that no edge touches and numbers the rest densely.
* `eliminateEpsilons` gives each state the other edges of its closure, which is what it
  reaches over epsilon edges, and drops the epsilon edges. Anchors are not followed.
* `pruneUnreachable` drops the edges of states that nothing enters and that are no starts.
* `renumber` again drops the states that have become isolated.

The closure ends because each state is put on the worklist only when it is newly marked, and
pruning ends because each round empties the edge set of at least one state.
-/

namespace ByteRegex

/-- A fragment that is being reduced. -/
structure Graph where
  edges : Array (SortedSet Edge)
  starts : StateSet
  finals : StateSet

namespace Graph

/-- The number of states. -/
def size (g : Graph) : Nat := g.edges.size

/-- The edges that leave a state. -/
def edgesOf (g : Graph) (s : Nat) : List Edge := (g.edges[s]?.map SortedSet.toList).getD []

/-- The graph of a fragment. -/
def ofFragment (f : Fragment) : Graph :=
  { edges := f.states.map .ofList
    starts := .ofList f.size [f.start]
    finals := .ofList f.size [f.accept] }

/-! ## Dense numbering -/

/-- Which states are entered by an edge from another state. -/
def entered (g : Graph) : Array Bool :=
  (List.range g.size).foldl (fun marks s =>
    (g.edgesOf s).foldl (fun marks e =>
      if e.target = s then marks else marks.setIfInBounds e.target true) marks)
    (Array.replicate g.size false)

/-- Whether a state stays: it is entered, or left, or matches the empty text by itself. -/
def keeps (g : Graph) (entered : Array Bool) (s : Nat) : Bool :=
  entered[s]?.getD false || !(g.edgesOf s).isEmpty
    || (g.starts.contains s && g.finals.contains s)

/-- The states that stay, in ascending order. -/
def keptStates (g : Graph) : List Nat :=
  let marks := g.entered
  (List.range g.size).filter (g.keeps marks)

/-- The new number of each of the states that stay. -/
def numbering (size : Nat) (kept : List Nat) : Array (Option Nat) :=
  kept.zipIdx.foldl (fun numbers p => numbers.setIfInBounds p.1 (some p.2))
    (Array.replicate size none)

/-- An edge with the new number of its target. -/
def renumberEdge (numbers : Array (Option Nat)) (e : Edge) : Option Edge :=
  numbers[e.target]?.join.map fun t => { e with target := t }

/-- The members of a set that stay, under their new numbers. -/
def renumberSet (kept : List Nat) (s : StateSet) : StateSet :=
  .ofList kept.length ((kept.zipIdx.filter fun p => s.contains p.1).map (·.2))

/-- Drop the states without edges, and number the rest densely in the same order. -/
def renumber (g : Graph) : Graph :=
  let kept := g.keptStates
  let numbers := numbering g.size kept
  { edges := (kept.map fun s =>
      SortedSet.ofList ((g.edgesOf s).filterMap (renumberEdge numbers))).toArray
    starts := renumberSet kept g.starts
    finals := renumberSet kept g.finals }

/-! ## Closures -/

/-- Mark the target of an epsilon edge and put it on the worklist, if it is new. -/
def visit (acc : StateSet × List Nat) (e : Edge) : StateSet × List Nat :=
  if e.label = .epsilon && !acc.1.contains e.target && decide (e.target < acc.1.capacity) then
    (acc.1.insert e.target, e.target :: acc.2)
  else acc

theorem visit_cases (acc : StateSet × List Nat) (e : Edge) :
    visit acc e = acc ∨
      (visit acc e).1.room < acc.1.room ∧ (visit acc e).2.length = acc.2.length + 1 := by
  unfold visit
  split
  · next h =>
    simp only [Bool.and_eq_true, Bool.not_eq_true', decide_eq_true_eq] at h
    exact .inr ⟨StateSet.room_insert_lt h.2 h.1.2, rfl⟩
  · exact .inl rfl

/-- Marking never leaves more to do: what the worklist gains, the room loses. -/
theorem room_add_length_foldl_visit (es : List Edge) (acc : StateSet × List Nat) :
    (es.foldl visit acc).1.room + (es.foldl visit acc).2.length
      ≤ acc.1.room + acc.2.length := by
  induction es generalizing acc with
  | nil => simp
  | cons e es ih =>
    refine Nat.le_trans (ih (visit acc e)) ?_
    rcases visit_cases acc e with h | ⟨h₁, h₂⟩
    · exact Nat.le_of_eq (by rw [h])
    · omega

/-- Work through a list of marked states whose epsilon edges have yet to be followed, and collect
them in front of those worked through before. -/
def saturate (g : Graph) (marked : StateSet) (collected : List Nat) : List Nat → List Nat
  | [] => collected
  | s :: todo =>
    let next := (g.edgesOf s).foldl visit (marked, todo)
    saturate g next.1 (s :: collected) next.2
termination_by todo => marked.room + todo.length
decreasing_by
  have h : _ ≤ marked.room + todo.length :=
    room_add_length_foldl_visit (g.edgesOf s) (marked, todo)
  rw [List.length_cons]
  exact Nat.lt_of_le_of_lt h (by omega)

/-- The states that a state reaches over epsilon edges, itself included, each of them once. -/
def closure (g : Graph) (s : Nat) : List Nat :=
  g.saturate (.ofList g.size [s]) [] [s]

/-! ## Elimination -/

/-- The edges other than epsilon edges that leave the states of a list. -/
def properEdges (g : Graph) (states : List Nat) : SortedSet Edge :=
  .ofList <| states.flatMap fun s => (g.edgesOf s).filter (·.label != .epsilon)

/-- Take one more state, in ascending order, into the graph without epsilon edges. -/
def eliminateAt (g : Graph) : Graph → Nat → Graph
  | ⟨edges, starts, finals⟩, s =>
    let closure := g.closure s
    { edges := edges.push (g.properEdges closure)
      starts := if g.starts.contains s then starts.insertMany closure else starts
      finals := if closure.any g.finals.contains then finals.insert s else finals }

/-- Give each state the other edges of its closure, and drop the epsilon edges. What a start
reaches over epsilon edges becomes a start, and what reaches a final one becomes a final. -/
def eliminateEpsilons (g : Graph) : Graph :=
  (List.range g.size).foldl g.eliminateAt ⟨#[], .empty g.size, .empty g.size⟩

/-! ## Pruning -/

/-- Whether the edges of a state are to be dropped: nothing else enters it, and it is no start. -/
def isDead (g : Graph) (entered : Array Bool) (s : Nat) : Bool :=
  !(entered[s]?.getD false) && !g.starts.contains s

/-- One round of pruning. -/
def pruneOnce (g : Graph) : Graph :=
  let marks := g.entered
  { g with edges := g.edges.mapIdx fun s es => if g.isDead marks s then .empty else es }

/-- The number of states that edges leave. -/
def busyCount (g : Graph) : Nat := g.edges.countP fun es => !es.isEmpty

/-- Drop the edges of the states that nothing enters and that are no starts, until there are
none. -/
def pruneUnreachable (g : Graph) : Graph :=
  let pruned := g.pruneOnce
  if pruned.busyCount < g.busyCount then pruned.pruneUnreachable else g
termination_by g.busyCount

/-! ## Reduction -/

/-- The automaton of a graph. -/
def toAutomaton (g : Graph) (classes : Array ByteClass) : Automaton :=
  .ofEdges g.size (g.edges.toList.zipIdx.map fun p => (p.2, p.1.toList)) g.starts g.finals classes

end Graph

/-- What reduction makes of a fragment, and how many states it had to look at. -/
structure Reduction where
  statesBefore : Nat
  graph : Graph

namespace Reduction

/-- Remove the epsilon edges of a fragment. -/
def ofFragment (f : Fragment) : Reduction :=
  let g := (Graph.ofFragment f).renumber
  { statesBefore := g.size, graph := g.eliminateEpsilons.pruneUnreachable.renumber }

/-- The automaton, unless it has more states than the limit allows. -/
def toAutomaton (r : Reduction) (classes : Array ByteClass) (limit : Nat) :
    Except CompileError Automaton :=
  if r.graph.size > limit then .error (.automatonTooLarge r.graph.size limit)
  else .ok (r.graph.toAutomaton classes)

end Reduction

/-- The automaton without epsilon edges of a fragment. -/
def Nfa.reduce (nfa : Nfa) (limit : Nat) : Except CompileError Automaton :=
  (Reduction.ofFragment nfa.fragment).toAutomaton nfa.classes limit

end ByteRegex
