import ByteRegex.Proofs.Automaton
import ByteRegex.Proofs.Graph.Closure
import ByteRegex.Proofs.Graph.Prune
import ByteRegex.Proofs.Graph.Renumber
import Mathlib

/-!
# Reduction keeps the language

The automaton of a well-formed fragment has no epsilon edges, so the words on its paths are the
words that they spell; they are those of the fragment (`language_of_reduce`).

Each step keeps the language of a graph, so the steps together do (`Reduction.language_ofFragment`).
-/

namespace ByteRegex

variable {g : Graph} {f : Fragment} {nfa : Nfa} {a : Automaton} {classes : Array ByteClass}
variable {limit s : Nat} {e : Edge}

/-! ## The automaton of a graph -/

namespace Graph

theorem stateCount_toAutomaton : (g.toAutomaton classes).stateCount = g.size :=
  Automaton.stateCount_ofEdges

theorem mem_edges_toAutomaton : e ∈ (g.toAutomaton classes).edges s ↔ e ∈ g.edgesOf s := by
  rw [toAutomaton, Automaton.mem_edges_ofEdges, mem_edgesOf]
  constructor
  · rintro ⟨hs, p, hp, rfl, he⟩
    obtain ⟨⟨es, i⟩, hes, rfl⟩ := List.mem_map.mp hp
    rw [List.mem_zipIdx_iff_getElem?, Array.getElem?_toList, Array.getElem?_eq_getElem hs] at hes
    exact ⟨hs, Option.some.inj hes ▸ he⟩
  · rintro ⟨hs, he⟩
    refine ⟨hs, _, List.mem_map_of_mem (a := (g.edges[s], s)) ?_, rfl, he⟩
    rw [List.mem_zipIdx_iff_getElem?, Array.getElem?_toList, Array.getElem?_eq_getElem hs]

theorem inRange_toAutomaton (hg : g.InRange) : (g.toAutomaton classes).InRange where
  target_lt he := by
    rw [stateCount_toAutomaton]
    exact hg.target_lt (mem_edges_toAutomaton.mp he)
  start_lt hs := by
    rw [stateCount_toAutomaton]
    exact hg.start_lt hs

/-- Without epsilon edges, the word on a path is the word that it spells. -/
theorem language_toAutomaton (hg : ∀ {s e}, e ∈ g.edgesOf s → e.label ≠ .epsilon) :
    (g.toAutomaton classes).language = g.language := by
  have hdrop : ∀ {s t u}, Path g.edgesOf s u t → dropEpsilons u = u := fun hu =>
    dropEpsilons_eq_self fun l hl => by
      obtain ⟨q, e, he, rfl⟩ := hu.label_mem hl
      exact hg he
  ext w
  constructor
  · rintro ⟨s, t, hs, ht, hw⟩
    have hw : Path g.edgesOf s w t := hw.mono mem_edges_toAutomaton.mp
    exact ⟨s, t, hs, ht, w, hw, hdrop hw⟩
  · rintro ⟨s, t, hs, ht, u, hu, rfl⟩
    rw [hdrop hu]
    exact ⟨s, t, hs, ht, hu.mono mem_edges_toAutomaton.mpr⟩

end Graph

/-! ## Reduction -/

namespace Reduction

theorem inRange_ofFragment (f : Fragment) : (ofFragment f).graph.InRange :=
  Graph.inRange_renumber _

theorem ne_epsilon_of_mem_edgesOf (he : e ∈ (ofFragment f).graph.edgesOf s) :
    e.label ≠ .epsilon := by
  obtain ⟨q, d, -, hd, -, hl⟩ := Graph.mem_edgesOf_renumber.mp he
  rw [hl]
  exact Graph.ne_epsilon_of_mem_edgesOf_eliminateEpsilons (Graph.inRange_renumber _)
    (Graph.mem_edgesOf_of_pruneUnreachable hd)

/-- No label is added. -/
theorem exists_mem_edges (he : e ∈ (ofFragment f).graph.edgesOf s) :
    ∃ q, ∃ d ∈ f.edges q, d.label = e.label := by
  obtain ⟨q, d, -, hd, -, hl⟩ := Graph.mem_edgesOf_renumber.mp he
  obtain ⟨-, p, -, hd, -⟩ := (Graph.mem_edgesOf_eliminateEpsilons (Graph.inRange_renumber _)).mp
    (Graph.mem_edgesOf_of_pruneUnreachable hd)
  obtain ⟨p', d', -, hd', -, hl'⟩ := Graph.mem_edgesOf_renumber.mp hd
  exact ⟨p', d', Graph.mem_edgesOf_ofFragment.mp hd', hl'.symm.trans hl.symm⟩

/-- No state is added. -/
theorem size_ofFragment_le (f : Fragment) : (ofFragment f).graph.size ≤ f.size := by
  refine Nat.le_trans (Graph.size_renumber_le _) ?_
  rw [Graph.size_pruneUnreachable, Graph.size_eliminateEpsilons]
  exact Nat.le_trans (Graph.size_renumber_le _) (Nat.le_of_eq Graph.size_ofFragment)

theorem language_ofFragment (hf : f.WellFormed) : (ofFragment f).graph.language = f.language := by
  have hg := Graph.inRange_renumber (Graph.ofFragment f)
  calc (ofFragment f).graph.language
    _ = (Graph.ofFragment f).renumber.eliminateEpsilons.pruneUnreachable.language :=
      Graph.language_renumber (Graph.inRange_pruneUnreachable (Graph.inRange_eliminateEpsilons hg))
    _ = (Graph.ofFragment f).renumber.eliminateEpsilons.language :=
      Graph.language_pruneUnreachable _
    _ = (Graph.ofFragment f).renumber.language := Graph.language_eliminateEpsilons hg
    _ = (Graph.ofFragment f).language := Graph.language_renumber (Graph.inRange_ofFragment hf)
    _ = f.language := Graph.language_ofFragment hf

end Reduction

namespace Nfa

/-- A fragment can be reduced if its reduced graph is within the limit, to the automaton of that
graph. -/
theorem reduce_eq_ok_iff : nfa.reduce limit = .ok a ↔
    (Reduction.ofFragment nfa.fragment).graph.size ≤ limit ∧
      (Reduction.ofFragment nfa.fragment).graph.toAutomaton nfa.classes = a := by
  unfold reduce Reduction.toAutomaton
  split
  · next hsize => simp [Nat.not_le.mpr hsize]
  · next hsize => simp [Nat.not_lt.mp hsize]

theorem eq_of_reduce (h : nfa.reduce limit = .ok a) :
    a = (Reduction.ofFragment nfa.fragment).graph.toAutomaton nfa.classes :=
  (reduce_eq_ok_iff.mp h).2.symm

theorem classes_of_reduce (h : nfa.reduce limit = .ok a) : a.classes = nfa.classes := by
  rw [eq_of_reduce h]
  rfl

theorem inRange_of_reduce (h : nfa.reduce limit = .ok a) : a.InRange := by
  rw [eq_of_reduce h]
  exact Graph.inRange_toAutomaton (Reduction.inRange_ofFragment _)

theorem language_of_reduce (hf : nfa.fragment.WellFormed) (h : nfa.reduce limit = .ok a) :
    a.language = nfa.fragment.language := by
  rw [eq_of_reduce h, Graph.language_toAutomaton Reduction.ne_epsilon_of_mem_edgesOf,
    Reduction.language_ofFragment hf]

/-- **The automaton of a fragment accepts what the paths of the fragment spell**, and the lengths
of its accepting paths are the numbers of their edges that are not epsilon edges. -/
theorem reduce_accepts_iff (hf : nfa.fragment.Built) (h : nfa.reduce limit = .ok a) :
    (∀ w, (∃ s t, a.isStart s = true ∧ a.isFinal t = true ∧ Path a.edges s w t) ↔
      ∃ u, Path nfa.fragment.edges nfa.fragment.start u nfa.fragment.accept ∧
        dropEpsilons u = w) ∧
    ∀ n, (∃ s t w, a.isStart s = true ∧ a.isFinal t = true ∧ Path a.edges s w t ∧ w.length = n) ↔
      ∃ u, Path nfa.fragment.edges nfa.fragment.start u nfa.fragment.accept ∧
        u.countP (· ≠ .epsilon) = n := by
  have hwords : ∀ w, w ∈ a.language ↔ w ∈ nfa.fragment.language := fun w => by
    rw [language_of_reduce hf.wellFormed h]
  refine ⟨hwords, fun n => ?_⟩
  constructor
  · rintro ⟨s, t, w, hs, ht, hw, rfl⟩
    obtain ⟨u, hu, rfl⟩ := (hwords w).mp ⟨s, t, hs, ht, hw⟩
    exact ⟨u, hu, List.countP_eq_length_filter⟩
  · rintro ⟨u, hu, rfl⟩
    obtain ⟨s, t, hs, ht, hw⟩ := (hwords (dropEpsilons u)).mpr ⟨u, hu, rfl⟩
    exact ⟨s, t, _, hs, ht, hw, List.countP_eq_length_filter.symm⟩

/-- The fragment of `a*`. -/
theorem reduce_accepts_iff_star : ∃ (f : Fragment) (a : Automaton), f.Built ∧
    f = (Fragment.leaf (.byte 0x61)).star ∧ Nfa.reduce ⟨f, #[]⟩ 4 = .ok a ∧
    ∀ w, (∃ s t, a.isStart s = true ∧ a.isFinal t = true ∧ Path a.edges s w t) ↔
      ∃ u, Path f.edges f.start u f.accept ∧ dropEpsilons u = w := by
  have hf : (Fragment.leaf (.byte 0x61)).star.Built := .star (.leaf _)
  have h : Nfa.reduce ⟨(Fragment.leaf (.byte 0x61)).star, #[]⟩ 4 =
      .ok ⟨#[[⟨1, .byte 0x61⟩], [⟨1, .byte 0x61⟩], [⟨1, .byte 0x61⟩], []],
        ⟨#[13]⟩, ⟨#[14]⟩, #[]⟩ := by cbv
  exact ⟨_, _, hf, rfl, h, (reduce_accepts_iff hf h).1⟩

end Nfa

end ByteRegex
