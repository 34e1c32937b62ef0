import ByteRegex.Event
import ByteRegex.Nfa.Graph

/-!
# The stages of compilation, with their events

Each stage is a function of its own (`Tree.parse`, `Nfa.ofTree`, `Nfa.reduce`); here each is paired
with the events that it reports. Reporting does not change what a stage yields.
-/

namespace ByteRegex

/-- The tree of a pattern. The empty pattern has a tree without anything to report. -/
def Tree.parseTraced (pattern : List Byte) : Traced SyntaxError Tree := do
  let tokens ← Traced.ofExcept (tokenize pattern)
  if tokens.isEmpty then return .empty
  let ordered ← Traced.ofExcept (Token.reorder tokens)
  Traced.report (.ordered ordered.length)
  let tree ← Traced.ofExcept (Tree.ofOrdered ordered)
  Traced.report (.treeBuilt tree.size)
  return tree

/-- The fragment of a tree. -/
def Nfa.ofTreeTraced (cfg : Thompson.Settings) (t : Tree) : Traced CompileError Nfa := do
  let nfa ← Traced.ofExcept (Nfa.ofTree cfg t)
  Traced.report (.fragmentBuilt nfa.fragment.size nfa.classes.size)
  return nfa

/-- The automaton of a fragment. It is reported also if it turns out to be too large. -/
def Nfa.reduceTraced (nfa : Nfa) (limit : Nat) : Traced CompileError Automaton := do
  let r := Reduction.ofFragment nfa.fragment
  Traced.report (.reduced r.statesBefore r.graph.size)
  Traced.ofExcept (r.toAutomaton nfa.classes limit)

/-! ## Results -/

theorem Tree.parseTraced_yields (pattern : List Byte) :
    (Tree.parseTraced pattern).Yields (Tree.parse pattern) := by
  refine .bind (Traced.yields_ofExcept _) fun ts => ?_
  unfold ofTokens
  split
  · exact Traced.yields_pure _
  · exact .bind (Traced.yields_ofExcept _) fun us =>
      .report _ (.andThen (Traced.yields_ofExcept _) fun t => .report _ (Traced.yields_pure t))

theorem Nfa.ofTreeTraced_yields (cfg : Thompson.Settings) (t : Tree) :
    (Nfa.ofTreeTraced cfg t).Yields (Nfa.ofTree cfg t) :=
  .andThen (Traced.yields_ofExcept _) fun nfa => .report _ (Traced.yields_pure nfa)

theorem Nfa.reduceTraced_yields (nfa : Nfa) (limit : Nat) :
    (nfa.reduceTraced limit).Yields (nfa.reduce limit) :=
  .report _ (Traced.yields_ofExcept _)

end ByteRegex
