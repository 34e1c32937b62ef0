import ByteRegex.Proofs.Fragment.Live
import ByteRegex.Proofs.Graph.Reduce

/-!
# Which states reduction keeps

All states of a fragment touch an edge, so the first renumbering changes nothing
(`mem_edgesOf_renumber_ofFragment`). Without epsilon edges, a state is still entered if an edge
other than an epsilon edge enters it, and it is a start if the fragment's start reaches it over
epsilon edges. These states keep edges or end matches themselves, and pruning empties all others. So
the automaton has as many states as the fragment has live ones (`Reduction.size_ofFragment`).
-/

namespace ByteRegex

namespace Graph

variable {f : Fragment} {s t : Nat} {e : Edge} {w : List Label}

/-- The graph of a fragment without epsilon edges. -/
abbrev eliminated (f : Fragment) : Graph := (ofFragment f).renumber.eliminateEpsilons

/-- The graph of a fragment after pruning. -/
abbrev pruned (f : Fragment) : Graph := (eliminated f).pruneUnreachable

/-! ## The first renumbering -/

/-- Every state of the graph of a fragment stays. -/
theorem keptStates_ofFragment (hf : f.WellFormed) (ht : f.Trim) :
    (ofFragment f).keptStates = List.range f.size := by
  have hall : ∀ s < f.size, s ∈ (ofFragment f).keptStates := by
    intro s hs
    rw [mem_keptStates, size_ofFragment]
    refine ⟨hs, ?_⟩
    by_cases hsa : s = f.accept
    · obtain ⟨w, hw⟩ := ht.reached hs
      obtain ⟨q, hq, e, he, het⟩ := hw.exists_entering (hsa ▸ hf.start_ne_accept.symm)
      exact .inl ⟨q, hq, e, mem_edgesOf_ofFragment.mpr he, het⟩
    · obtain ⟨w, hw⟩ := ht.finishes hs
      obtain ⟨e, he⟩ := hw.exists_mem_of_ne (Ne.symm hsa)
      exact .inr (.inl (List.ne_nil_of_mem (mem_edgesOf_ofFragment.mpr he)))
  unfold keptStates at hall ⊢
  rw [size_ofFragment] at hall ⊢
  exact List.filter_eq_self.mpr fun s hs => (List.mem_filter.mp (hall s (List.mem_range.mp hs))).2

theorem getElem?_range_eq_some_iff {n i : Nat} : (List.range n)[i]? = some s ↔ i < n ∧ i = s := by
  rw [List.getElem?_eq_some_iff]
  simp

variable (hf : f.WellFormed) (ht : f.Trim)

include hf ht

theorem size_renumber_ofFragment : (ofFragment f).renumber.size = f.size := by
  rw [size_renumber, keptStates_ofFragment hf ht, List.length_range]

theorem mem_edgesOf_renumber_ofFragment :
    e ∈ (ofFragment f).renumber.edgesOf s ↔ e ∈ f.edges s := by
  rw [mem_edgesOf_renumber, keptStates_ofFragment hf ht]
  simp only [getElem?_range_eq_some_iff, mem_edgesOf_ofFragment]
  constructor
  · rintro ⟨_, d, ⟨-, rfl⟩, hd, ⟨-, htarget⟩, hlabel⟩
    cases e
    cases d
    cases htarget
    cases hlabel
    exact hd
  · intro he
    exact ⟨s, e, ⟨Fragment.lt_size_of_mem_edges he, rfl⟩, he, ⟨hf.target_lt he, rfl⟩, rfl⟩

theorem contains_starts_renumber_ofFragment :
    (ofFragment f).renumber.starts.contains s = true ↔ s = f.start := by
  rw [contains_starts_renumber, keptStates_ofFragment hf ht]
  simp only [getElem?_range_eq_some_iff, contains_starts_ofFragment hf]
  constructor
  · rintro ⟨_, ⟨-, rfl⟩, rfl⟩
    rfl
  · rintro rfl
    exact ⟨_, ⟨hf.start_lt, rfl⟩, rfl⟩

theorem contains_finals_renumber_ofFragment :
    (ofFragment f).renumber.finals.contains s = true ↔ s = f.accept := by
  rw [contains_finals_renumber, keptStates_ofFragment hf ht]
  simp only [getElem?_range_eq_some_iff, contains_finals_ofFragment hf]
  constructor
  · rintro ⟨_, ⟨-, rfl⟩, rfl⟩
    rfl
  · rintro rfl
    exact ⟨_, ⟨hf.accept_lt, rfl⟩, rfl⟩

theorem spells_renumber_ofFragment :
    Spells (ofFragment f).renumber.edgesOf s w t ↔ Spells f.edges s w t :=
  ⟨fun h => h.mono (mem_edgesOf_renumber_ofFragment hf ht).mp,
    fun h => h.mono (mem_edgesOf_renumber_ofFragment hf ht).mpr⟩

/-! ## Without epsilon edges -/

theorem size_eliminated : (eliminated f).size = f.size := by
  rw [size_eliminateEpsilons, size_renumber_ofFragment hf ht]

theorem mem_edgesOf_eliminated :
    e ∈ (eliminated f).edgesOf s ↔
      s < f.size ∧ ∃ q, Spells f.edges s [] q ∧ e ∈ f.edges q ∧ e.label ≠ .epsilon := by
  rw [mem_edgesOf_eliminateEpsilons (inRange_renumber _), size_renumber_ofFragment hf ht]
  simp only [spells_renumber_ofFragment hf ht, mem_edgesOf_renumber_ofFragment hf ht]

theorem contains_starts_eliminated :
    (eliminated f).starts.contains t = true ↔ f.Reads [] t := by
  rw [contains_starts_eliminateEpsilons (inRange_renumber _)]
  simp only [spells_renumber_ofFragment hf ht, contains_starts_renumber_ofFragment hf ht,
    exists_eq_left]
  rfl

theorem contains_finals_eliminated :
    (eliminated f).finals.contains s = true ↔ s < f.size ∧ Spells f.edges s [] f.accept := by
  rw [contains_finals_eliminateEpsilons (inRange_renumber _), size_renumber_ofFragment hf ht]
  simp only [spells_renumber_ofFragment hf ht, contains_finals_renumber_ofFragment hf ht,
    exists_eq_left]

/-! ## After pruning -/

theorem isTarget_of_mem_edgesOf_pruned (he : e ∈ (pruned f).edgesOf s) : f.IsTarget e.target := by
  obtain ⟨-, q, -, he, hne⟩ :=
    (mem_edgesOf_eliminated hf ht).mp (mem_edgesOf_of_pruneUnreachable he)
  exact ⟨q, e, he, hne, rfl⟩

/-- A state that an edge other than an epsilon edge enters is still entered by one, at the end of a
path from the start. -/
theorem exists_spells_pruned (h : f.IsTarget s) :
    ∃ w q, Spells (pruned f).edgesOf f.start w q ∧ ∃ e ∈ (pruned f).edgesOf q, e.target = s := by
  obtain ⟨q, e, he, hne, rfl⟩ := h
  obtain ⟨w, hw⟩ := ht.reached (Fragment.lt_size_of_mem_edges he)
  have hlt : f.start < (ofFragment f).renumber.size :=
    (size_renumber_ofFragment hf ht).symm ▸ hf.start_lt
  obtain ⟨q', hq', hq⟩ := spells_eliminateEpsilons (inRange_renumber _) hlt
    ((spells_renumber_ofFragment hf ht).mpr hw)
  have hq := (spells_renumber_ofFragment hf ht).mp hq
  have hlt' := (inRange_eliminateEpsilons (inRange_renumber _)).lt_size_of_spells hq'
    ((size_eliminated hf ht).symm ▸ hf.start_lt)
  have hedge : e ∈ (eliminated f).edgesOf q' :=
    (mem_edgesOf_eliminated hf ht).mpr ⟨size_eliminated hf ht ▸ hlt', q, hq, he, hne⟩
  have hstart : (eliminated f).starts.contains f.start = true :=
    (contains_starts_eliminated hf ht).mpr .refl
  exact ⟨w, q', spells_pruneUnreachable_of_spells hstart .refl hq', e,
    mem_edgesOf_pruneUnreachable_of_spells hstart hq' hedge, rfl⟩

/-- **The states that stay are the live ones.** -/
theorem mem_keptStates_pruned : s ∈ (pruned f).keptStates ↔ s ∈ f.live True False := by
  have hsize : (pruned f).size = f.size := by
    rw [size_pruneUnreachable, size_eliminated hf ht]
  have hstart : (pruned f).starts.contains s = true ↔ f.Reads [] s := by
    rw [starts_pruneUnreachable, contains_starts_eliminated hf ht]
  rw [mem_keptStates, hsize, hstart]
  constructor
  · rintro ⟨hs, ⟨q, -, e, he, rfl⟩ | hrow | ⟨hreads, -⟩⟩
    · exact .inl (isTarget_of_mem_edgesOf_pruned hf ht he)
    · obtain ⟨d, hd⟩ := List.exists_mem_of_ne_nil _ hrow
      rcases (isDead_eq_false (hsize ▸ hs)).mp (isDead_pruneUnreachable hd) with
        ⟨q, -, e, he, rfl⟩ | hreads
      · exact .inl (isTarget_of_mem_edgesOf_pruned hf ht he)
      · exact .inr (.inl ⟨trivial, hstart.mp hreads⟩)
    · exact .inr (.inl ⟨trivial, hreads⟩)
  · intro h
    refine ⟨hf.lt_size_of_mem_live h, ?_⟩
    rcases h with h | ⟨-, hreads⟩ | ⟨h, -⟩
    · obtain ⟨-, q, -, e, he, rfl⟩ := exists_spells_pruned hf ht h
      by_cases hq : q = e.target
      · exact .inr (.inl (hq ▸ List.ne_nil_of_mem he))
      · exact .inl ⟨q, hq, e, he, rfl⟩
    · -- a start that does not end a match by itself has edges
      have hs := hf.lt_size_of_reads hreads
      obtain ⟨w, hw⟩ := ht.finishes hs
      rcases hw.nil_or_exists with hfinal | ⟨q, e, hq, he, hne⟩
      · refine .inr (.inr ⟨hreads, ?_⟩)
        rw [finals_pruneUnreachable, contains_finals_eliminated hf ht]
        exact ⟨hs, hfinal⟩
      · have hedge := (mem_edgesOf_eliminated hf ht).mpr ⟨hs, q, hq, he, hne⟩
        have hmem := mem_edgesOf_pruneUnreachable_of_spells
          ((contains_starts_eliminated hf ht).mpr hreads) .refl hedge
        exact .inr (.inl (List.ne_nil_of_mem hmem))
    · exact h.elim

end Graph

/-- **The automaton of a fragment has as many states as the fragment has live ones.** -/
theorem Reduction.size_ofFragment {f : Fragment} (hf : f.WellFormed) (ht : f.Trim) :
    (ofFragment f).graph.size = (f.live True False).ncard := by
  have hlive : f.live True False = ((Graph.pruned f).keptStates.toFinset : Set Nat) := by
    ext s
    rw [List.coe_toFinset]
    exact (Graph.mem_keptStates_pruned hf ht).symm
  rw [hlive, Set.ncard_coe_finset, List.toFinset_card_of_nodup (Graph.nodup_keptStates _)]
  exact Graph.size_renumber _

end ByteRegex
