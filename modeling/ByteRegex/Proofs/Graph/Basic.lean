import ByteRegex.Nfa.Graph
import ByteRegex.Proofs.Basic
import ByteRegex.Proofs.Fragment.Language
import ByteRegex.Proofs.StateSet

/-!
# The language of a graph

The words that a graph accepts are those that its paths from a start to a final spell. Each step of
reduction keeps this language, and keeps the graph in range (`Graph.InRange`); the modules beside
this one prove that step by step.
-/

namespace ByteRegex

/-! ## Graphs -/

namespace Graph

/-- Edges lead to states, and starts and finals are states. -/
structure InRange (g : Graph) : Prop where
  target_lt : ∀ {s e}, e ∈ g.edgesOf s → e.target < g.size
  start_lt : ∀ {s}, g.starts.contains s = true → s < g.size
  final_lt : ∀ {s}, g.finals.contains s = true → s < g.size

/-- The words that paths from a start to a final spell. -/
def language (g : Graph) : Language Label :=
  {w | ∃ s t, g.starts.contains s = true ∧ g.finals.contains t = true ∧ Spells g.edgesOf s w t}

variable {g : Graph} {s t : Nat} {e : Edge}

theorem mem_edgesOf : e ∈ g.edgesOf s ↔ ∃ h : s < g.size, e ∈ g.edges[s].toList := by
  unfold edgesOf
  by_cases hs : s < g.size
  · rw [Array.getElem?_eq_getElem hs]
    exact ⟨fun h => ⟨hs, h⟩, fun ⟨_, h⟩ => h⟩
  · rw [Array.getElem?_eq_none (Nat.le_of_not_lt hs)]
    exact ⟨fun h => (List.not_mem_nil h).elim, fun ⟨h, _⟩ => absurd h hs⟩

theorem lt_size_of_mem_edgesOf (h : e ∈ g.edgesOf s) : s < g.size := (mem_edgesOf.mp h).1

theorem InRange.lt_size_of_spells (hg : g.InRange) {w : List Label} (h : Spells g.edgesOf s w t)
    (hs : s < g.size) : t < g.size :=
  h.invariant (P := fun _ t => t < g.size) hs fun _ he => hg.target_lt he

/-! ## States that are entered -/

theorem getD_setIfInBounds_true {marks : Array Bool} (ht : t < marks.size) :
    (marks.setIfInBounds s true)[t]?.getD false = true ↔
      marks[t]?.getD false = true ∨ s = t := by
  rw [Array.getElem?_setIfInBounds]
  by_cases hst : s = t
  · simp [hst, ht]
  · simp [hst]

theorem entered_iff (ht : t < g.size) :
    g.entered[t]?.getD false = true ↔ ∃ s, s ≠ t ∧ ∃ e ∈ g.edgesOf s, e.target = t := by
  -- each state adds the marks of those of its edges that lead elsewhere
  have row : ∀ (marks : Array Bool) (s : Nat), marks.size = g.size →
      let marked := (g.edgesOf s).foldl (fun marks e =>
        if e.target = s then marks else marks.setIfInBounds e.target true) marks
      marked.size = g.size ∧ (marked[t]?.getD false = true ↔
        marks[t]?.getD false = true ∨ ∃ e ∈ g.edgesOf s, s ≠ t ∧ e.target = t) := by
    intro marks s hsize
    refine foldl_iff (I := fun marks : Array Bool => marks.size = g.size)
      (P := fun marks => marks[t]?.getD false = true) hsize fun marks e _ hsize => ?_
    split
    · next h => exact ⟨hsize, (or_iff_left fun ⟨hne, het⟩ => hne (h.symm.trans het)).symm⟩
    · next h =>
      refine ⟨(Array.size_setIfInBounds ..).trans hsize, ?_⟩
      rw [getD_setIfInBounds_true (hsize ▸ ht)]
      exact or_congr_right (iff_and_self.mpr fun het hst => h (het.trans hst.symm))
  refine ((foldl_iff (I := fun marks : Array Bool => marks.size = g.size)
    (P := fun marks => marks[t]?.getD false = true) (Array.size_replicate ..)
    fun marks s _ hsize => row marks s hsize).2).trans ?_
  rw [or_iff_right (by simp [ht])]
  constructor
  · rintro ⟨s, -, e, he, hst, het⟩
    exact ⟨s, hst, e, he, het⟩
  · rintro ⟨s, hst, e, he, het⟩
    exact ⟨s, List.mem_range.mpr (lt_size_of_mem_edgesOf he), e, he, hst, het⟩

/-! ## The graph of a fragment -/

variable {f : Fragment}

@[simp] theorem size_ofFragment : (ofFragment f).size = f.size := Array.size_map ..

theorem mem_edgesOf_ofFragment : e ∈ (ofFragment f).edgesOf s ↔ e ∈ f.edges s := by
  unfold edgesOf ofFragment Fragment.edges
  rw [Array.getElem?_map]
  cases f.states[s]? with
  | none => rfl
  | some es => exact SortedSet.mem_ofList

theorem contains_starts_ofFragment (hf : f.WellFormed) :
    (ofFragment f).starts.contains s = true ↔ s = f.start := by
  refine (StateSet.contains_ofList ?_).trans List.mem_singleton
  simpa using hf.start_lt

theorem contains_finals_ofFragment (hf : f.WellFormed) :
    (ofFragment f).finals.contains s = true ↔ s = f.accept := by
  refine (StateSet.contains_ofList ?_).trans List.mem_singleton
  simpa using hf.accept_lt

theorem inRange_ofFragment (hf : f.WellFormed) : (ofFragment f).InRange where
  target_lt he := by
    rw [size_ofFragment]
    exact hf.target_lt (mem_edgesOf_ofFragment.mp he)
  start_lt hs := by
    rw [size_ofFragment, (contains_starts_ofFragment hf).mp hs]
    exact hf.start_lt
  final_lt hs := by
    rw [size_ofFragment, (contains_finals_ofFragment hf).mp hs]
    exact hf.accept_lt

theorem language_ofFragment (hf : f.WellFormed) : (ofFragment f).language = f.language := by
  ext w
  constructor
  · rintro ⟨s, t, hs, ht, hw⟩
    obtain rfl := (contains_starts_ofFragment hf).mp hs
    obtain rfl := (contains_finals_ofFragment hf).mp ht
    exact hw.mono mem_edgesOf_ofFragment.mp
  · intro hw
    exact ⟨_, _, (contains_starts_ofFragment hf).mpr rfl, (contains_finals_ofFragment hf).mpr rfl,
      hw.mono mem_edgesOf_ofFragment.mpr⟩

end Graph

end ByteRegex
