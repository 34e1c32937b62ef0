import ByteRegex.Proofs.Graph.Shape

/-!
# The automaton of a fragment, state by state

Reduction keeps the live states of a fragment in their order, so the automaton can be described in
terms of the fragment alone (`Fragment.Describes`): the `i`-th state stands for the `i`-th live
state, its edges are those that the fragment has behind epsilon edges, and its rows are in strictly
ascending order.

Pruning looks only at whether a state is entered from elsewhere, which a cycle of unreachable states
would pass. There is none: each live state is reached from a start already in the graph before
pruning, and from such a state pruning keeps all paths (`spells_pruneUnreachable_of_spells`).

Main statement: the automaton of a fragment that the operations build is the one described, unless
there are more live states than the limit allows (`Nfa.reduce_describes`).
-/

namespace ByteRegex

/-! ## Rows -/

namespace Automaton

variable {row : List Edge}

theorem sortRow_of_ascending (h : row.Pairwise (compare · · = .lt)) : sortRow row = row := by
  refine List.mergeSort_of_pairwise (h.imp fun {d e} hde => ?_)
  have hlex : (compare d.target e.target).then (compare d.label.rank e.label.rank) = .lt := hde
  rw [decide_eq_true_iff]
  rcases Ordering.then_eq_lt.mp hlex with hlt | ⟨heq, -⟩
  · exact Nat.le_of_lt (Nat.compare_eq_lt.mp hlt)
  · exact Nat.le_of_eq (Nat.compare_eq_eq.mp heq)

end Automaton

namespace Graph

variable {g : Graph} {f : Fragment} {classes : Array ByteClass} {s i : Nat} {e : Edge}

theorem filter_zipIdx {α : Type} {l : List α} {x : α} {n : Nat} (h : l[i]? = some x) :
    (l.zipIdx n).filter (·.2 == n + i) = [(x, n + i)] := by
  induction l generalizing n i with
  | nil => cases h
  | cons y l ih =>
    rw [List.zipIdx_cons]
    cases i with
    | zero =>
      obtain rfl := Option.some.inj h
      rw [List.filter_cons_of_pos (by simp), List.filter_eq_nil_iff.mpr]
      · rfl
      · intro p hp
        have := List.le_snd_of_mem_zipIdx hp
        rw [beq_iff_eq]
        omega
    | succ i =>
      rw [List.filter_cons_of_neg (by simp), show n + (i + 1) = n + 1 + i by omega]
      exact ih h

/-- The rows of the automaton of a graph are the sets of edges of the graph. -/
theorem edges_toAutomaton : (g.toAutomaton classes).edges s = g.edgesOf s := by
  by_cases hs : s < g.size
  · have hrow : g.edges.toList[s]? = some g.edges[s] := by
      rw [Array.getElem?_toList, Array.getElem?_eq_getElem hs]
    have hlisted : (g.edges.toList.zipIdx.map fun p => (p.2, p.1.toList)).filter (·.1 == s) =
        [(s, g.edges[s].toList)] := by
      have h := filter_zipIdx (n := 0) hrow
      rw [Nat.zero_add] at h
      rw [List.filter_map]
      exact congrArg (List.map _) h
    have hedges : g.edgesOf s = g.edges[s].toList := by
      rw [edgesOf, Array.getElem?_eq_getElem hs]
      rfl
    rw [toAutomaton, Automaton.edges_ofEdges hs, hlisted, List.flatMap_singleton, hedges]
    exact Automaton.sortRow_of_ascending g.edges[s].ascending
  · have hedges : g.edgesOf s = [] :=
      List.eq_nil_iff_forall_not_mem.mpr fun e he => hs (lt_size_of_mem_edgesOf he)
    rw [hedges]
    refine List.eq_nil_iff_forall_not_mem.mpr fun e he => hs ?_
    exact lt_size_of_mem_edgesOf (mem_edges_toAutomaton.mp he)

theorem pairwise_edgesOf (g : Graph) (s : Nat) : (g.edgesOf s).Pairwise (compare · · = .lt) := by
  unfold edgesOf
  cases g.edges[s]? with
  | none => exact .nil
  | some row => exact row.ascending

theorem pairwise_keptStates (g : Graph) : g.keptStates.Pairwise (· < ·) :=
  List.pairwise_lt_range.filter _

/-! ## Live states -/

variable (hf : f.WellFormed) (ht : f.Trim)

include hf ht

/-- Every live state is reached from a start. -/
theorem exists_spells_of_live (h : s ∈ f.live True False) :
    ∃ q w, f.Reads [] q ∧ Spells (pruned f).edgesOf q w s := by
  rcases h with h | ⟨-, h⟩ | ⟨h, -⟩
  · obtain ⟨w, q, hq, e, he, rfl⟩ := exists_spells_pruned hf ht h
    exact ⟨f.start, _, .refl, hq.step he⟩
  · exact ⟨s, [], h, .refl⟩
  · exact h.elim

/-- From a live state, pruning keeps all paths. -/
theorem spells_pruned_of_live {w : List Label} {t : Nat} (h : s ∈ f.live True False)
    (hw : Spells (eliminated f).edgesOf s w t) : Spells (pruned f).edgesOf s w t := by
  obtain ⟨q, v, hq, hqs⟩ := exists_spells_of_live hf ht h
  exact spells_pruneUnreachable_of_spells ((contains_starts_eliminated hf ht).mpr hq)
    (hqs.mono mem_edgesOf_of_pruneUnreachable) hw

/-- A live state keeps all edges that it has behind epsilon edges. -/
theorem mem_edgesOf_pruned_iff (h : s ∈ f.live True False) :
    e ∈ (pruned f).edgesOf s ↔
      ∃ q, Spells f.edges s [] q ∧ e ∈ f.edges q ∧ e.label ≠ .epsilon := by
  have heliminated : e ∈ (pruned f).edgesOf s ↔ e ∈ (eliminated f).edgesOf s := by
    refine ⟨mem_edgesOf_of_pruneUnreachable, fun he => ?_⟩
    obtain ⟨q, v, hq, hqs⟩ := exists_spells_of_live hf ht h
    exact mem_edgesOf_pruneUnreachable_of_spells ((contains_starts_eliminated hf ht).mpr hq)
      (hqs.mono mem_edgesOf_of_pruneUnreachable) he
  rw [heliminated, mem_edgesOf_eliminated hf ht]
  exact and_iff_right (hf.lt_size_of_mem_live h)

theorem contains_finals_pruned_iff :
    (pruned f).finals.contains s = true ↔ Spells f.edges s [] f.accept := by
  rw [finals_pruneUnreachable, contains_finals_eliminated hf ht]
  refine and_iff_right_of_imp fun h => ?_
  by_cases hs : s = f.accept
  · exact hs ▸ hf.accept_lt
  · obtain ⟨e, he⟩ := h.exists_mem_of_ne (Ne.symm hs)
    exact Fragment.lt_size_of_mem_edges he

/-- Every live state reaches a final. -/
theorem exists_spells_final_of_live (h : s ∈ f.live True False) :
    ∃ w t, Spells (pruned f).edgesOf s w t ∧ Spells f.edges t [] f.accept := by
  have hs := hf.lt_size_of_mem_live h
  obtain ⟨w, hw⟩ := ht.finishes hs
  obtain ⟨t, hst, htaccept⟩ := spells_eliminateEpsilons (inRange_renumber _)
    ((size_renumber_ofFragment hf ht).symm ▸ hs) ((spells_renumber_ofFragment hf ht).mpr hw)
  exact ⟨w, t, spells_pruned_of_live hf ht h hst, (spells_renumber_ofFragment hf ht).mp htaccept⟩

end Graph

/-! ## The reduced graph -/

namespace Reduction

variable {f : Fragment} {i s t : Nat} {e : Edge} {w : List Label}

theorem exists_getElem?_keptStates (hi : i < (ofFragment f).graph.size) :
    ∃ s, (Graph.pruned f).keptStates[i]? = some s :=
  ⟨_, List.getElem?_eq_getElem (Graph.size_renumber (Graph.pruned f) ▸ hi)⟩

/-- The last renumbering keeps all paths. -/
theorem exists_spells_of_pruned (hw : Spells (Graph.pruned f).edgesOf s w t)
    (hi : (Graph.pruned f).keptStates[i]? = some s) :
    ∃ j, (Graph.pruned f).keptStates[j]? = some t ∧
      Spells (ofFragment f).graph.edgesOf i w j :=
  Graph.spells_renumber (Graph.inRange_pruneUnreachable
    (Graph.inRange_eliminateEpsilons (Graph.inRange_renumber _))) hw hi

variable (hf : f.WellFormed) (ht : f.Trim)

include hf ht

theorem mem_live_of_getElem? (hi : (Graph.pruned f).keptStates[i]? = some s) :
    s ∈ f.live True False :=
  (Graph.mem_keptStates_pruned hf ht).mp (List.mem_of_getElem? hi)

theorem contains_starts_iff : (ofFragment f).graph.starts.contains i = true ↔
    ∃ s, (Graph.pruned f).keptStates[i]? = some s ∧ f.Reads [] s := by
  rw [ofFragment, Graph.contains_starts_renumber, Graph.starts_pruneUnreachable]
  simp only [Graph.contains_starts_eliminated hf ht]

theorem contains_finals_iff : (ofFragment f).graph.finals.contains i = true ↔
    ∃ s, (Graph.pruned f).keptStates[i]? = some s ∧ Spells f.edges s [] f.accept := by
  rw [ofFragment, Graph.contains_finals_renumber]
  simp only [Graph.contains_finals_pruned_iff hf ht]

theorem mem_edgesOf_iff : e ∈ (ofFragment f).graph.edgesOf i ↔
    ∃ s q t, (Graph.pruned f).keptStates[i]? = some s ∧
      (Graph.pruned f).keptStates[e.target]? = some t ∧ Spells f.edges s [] q ∧
      ⟨t, e.label⟩ ∈ f.edges q ∧ e.label ≠ .epsilon := by
  rw [ofFragment, Graph.mem_edgesOf_renumber]
  constructor
  · rintro ⟨s, d, hi, hd, htarget, hlabel⟩
    obtain ⟨q, hq, hd, hne⟩ :=
      (Graph.mem_edgesOf_pruned_iff hf ht (mem_live_of_getElem? hf ht hi)).mp hd
    exact ⟨s, q, d.target, hi, htarget, hq, hlabel ▸ hd, hlabel ▸ hne⟩
  · rintro ⟨s, q, t, hi, htarget, hq, hd, hne⟩
    have hd := (Graph.mem_edgesOf_pruned_iff hf ht (mem_live_of_getElem? hf ht hi)).mpr
      ⟨q, hq, hd, hne⟩
    exact ⟨s, _, hi, hd, htarget, rfl⟩

/-- **Every state is reached from a start.** -/
theorem exists_spells_from_start (hi : i < (ofFragment f).graph.size) :
    ∃ q w, (ofFragment f).graph.starts.contains q = true ∧
      Spells (ofFragment f).graph.edgesOf q w i := by
  obtain ⟨s, hs⟩ := exists_getElem?_keptStates hi
  obtain ⟨q, w, hq, hw⟩ := Graph.exists_spells_of_live hf ht (mem_live_of_getElem? hf ht hs)
  have hkept : q ∈ (Graph.pruned f).keptStates :=
    (Graph.mem_keptStates_pruned hf ht).mpr (.inr (.inl ⟨trivial, hq⟩))
  obtain ⟨k, hk⟩ := List.mem_iff_getElem?.mp hkept
  obtain ⟨j, hj, hu⟩ := exists_spells_of_pruned hw hk
  -- a state has one number
  obtain rfl : j = i := (List.getElem?_inj (List.getElem?_eq_some_iff.mp hj).1
    (Graph.nodup_keptStates _)).mp (hj.trans hs.symm)
  exact ⟨k, w, (contains_starts_iff hf ht).mpr ⟨q, hk, hq⟩, hu⟩

/-- **Every state reaches a final.** -/
theorem exists_spells_to_final (hi : i < (ofFragment f).graph.size) :
    ∃ j w, (ofFragment f).graph.finals.contains j = true ∧
      Spells (ofFragment f).graph.edgesOf i w j := by
  obtain ⟨s, hs⟩ := exists_getElem?_keptStates hi
  obtain ⟨w, t, hw, haccept⟩ :=
    Graph.exists_spells_final_of_live hf ht (mem_live_of_getElem? hf ht hs)
  obtain ⟨j, hj, hu⟩ := exists_spells_of_pruned hw hs
  exact ⟨j, w, (contains_finals_iff hf ht).mpr ⟨t, hj, haccept⟩, hu⟩

end Reduction

/-! ## The automaton -/

/-- An automaton is that of a fragment, with the states of the fragment that a list names: it starts
where the fragment is over epsilon edges, ends where only epsilon edges are left, and follows one
edge of the fragment behind epsilon edges. No state is idle. -/
structure Fragment.Describes (f : Fragment) (names : List Nat) (a : Automaton) : Prop where
  stateCount_eq : a.stateCount = names.length
  isStart_iff : ∀ i, a.isStart i = true ↔ ∃ s, names[i]? = some s ∧ f.Reads [] s
  isFinal_iff : ∀ i, a.isFinal i = true ↔
    ∃ s, names[i]? = some s ∧ Spells f.edges s [] f.accept
  mem_edges_iff : ∀ i e, e ∈ a.edges i ↔ ∃ s q t, names[i]? = some s ∧ names[e.target]? = some t ∧
    Spells f.edges s [] q ∧ ⟨t, e.label⟩ ∈ f.edges q ∧ e.label ≠ .epsilon
  ascending : ∀ i, (a.edges i).Pairwise (compare · · = .lt)
  reached : ∀ i < a.stateCount, ∃ q u, a.isStart q = true ∧ Path a.edges q u i
  finishes : ∀ i < a.stateCount, ∃ t u, a.isFinal t = true ∧ Path a.edges i u t

theorem Reduction.describes_toAutomaton {f : Fragment} (hf : f.WellFormed) (ht : f.Trim)
    (classes : Array ByteClass) :
    f.Describes (Graph.pruned f).keptStates ((ofFragment f).graph.toAutomaton classes) where
  stateCount_eq := Graph.stateCount_toAutomaton.trans (Graph.size_renumber _)
  isStart_iff _ := contains_starts_iff hf ht
  isFinal_iff _ := contains_finals_iff hf ht
  mem_edges_iff _ _ := Graph.mem_edges_toAutomaton.trans (mem_edgesOf_iff hf ht)
  ascending i := by
    rw [Graph.edges_toAutomaton]
    exact Graph.pairwise_edgesOf _ i
  reached i hi := by
    obtain ⟨q, w, hq, u, hu, -⟩ :=
      exists_spells_from_start hf ht (Graph.stateCount_toAutomaton ▸ hi)
    exact ⟨q, u, hq, hu.mono Graph.mem_edges_toAutomaton.mpr⟩
  finishes i hi := by
    obtain ⟨j, w, hj, u, hu, -⟩ :=
      exists_spells_to_final hf ht (Graph.stateCount_toAutomaton ▸ hi)
    exact ⟨j, u, hj, hu.mono Graph.mem_edges_toAutomaton.mpr⟩

namespace Nfa

/-- **The exact shape of the automaton of a fragment.** Its states are those that the start reaches
over epsilon edges and those that other edges enter, in ascending order; the first renumbering drops
none. Only if these are more than the limit allows is there no automaton. -/
theorem reduce_describes {nfa : Nfa} (hf : nfa.fragment.Built) :
    (Graph.ofFragment nfa.fragment).keptStates = List.range nfa.fragment.size ∧
    (Reduction.ofFragment nfa.fragment).statesBefore = nfa.fragment.size ∧
    ∃ names : List Nat, names.Pairwise (· < ·) ∧
      (∀ t, t ∈ names ↔ nfa.fragment.Reads [] t ∨ nfa.fragment.IsTarget t) ∧ ∀ limit,
      (limit < names.length →
        nfa.reduce limit = .error (.automatonTooLarge names.length limit)) ∧
      (names.length ≤ limit →
        ∃ a, nfa.reduce limit = .ok a ∧ nfa.fragment.Describes names a ∧
          ∀ i, ∀ e ∈ a.edges i, e.label ≠ .epsilon) := by
  have hwf := hf.wellFormed
  have htrim := hf.trim
  have hsize : (Reduction.ofFragment nfa.fragment).graph.size =
      (Graph.pruned nfa.fragment).keptStates.length := Graph.size_renumber _
  refine ⟨Graph.keptStates_ofFragment hwf htrim, Graph.size_renumber_ofFragment hwf htrim,
    (Graph.pruned nfa.fragment).keptStates, Graph.pairwise_keptStates _, fun t => ?_,
    fun limit => ⟨fun h => ?_, fun h => ?_⟩⟩
  · rw [Graph.mem_keptStates_pruned hwf htrim]
    show _ ∨ True ∧ _ ∨ False ∧ _ ↔ _
    rw [true_and, false_and, or_false, or_comm]
  · rw [reduce, Reduction.toAutomaton, hsize, if_pos h]
  · refine ⟨_, reduce_eq_ok_iff.mpr ⟨hsize ▸ h, rfl⟩,
      Reduction.describes_toAutomaton hwf htrim _, fun i e he => ?_⟩
    exact Reduction.ne_epsilon_of_mem_edgesOf (Graph.mem_edges_toAutomaton.mp he)

/-- The fragment of `a+`: its states that only epsilon edges enter are dropped. -/
theorem reduce_describes_plus : ∃ nfa : Nfa, nfa.fragment.Built ∧
    nfa = ⟨(Fragment.leaf (.byte 0x61)).plus, #[]⟩ ∧ nfa.fragment.size = 5 ∧
    nfa.reduce 2 = .error (.automatonTooLarge 3 2) ∧
    ∃ names a, names.length = 3 ∧ nfa.reduce 3 = .ok a ∧ nfa.fragment.Describes names a := by
  have hbuilt : (Fragment.leaf (.byte 0x61)).plus.Built := .plus (.leaf _)
  have herror : reduce ⟨(Fragment.leaf (.byte 0x61)).plus, #[]⟩ 2 =
      .error (.automatonTooLarge 3 2) := by cbv
  refine ⟨_, hbuilt, rfl, by cbv, herror, ?_⟩
  obtain ⟨-, -, names, -, -, hlimit⟩ := @reduce_describes ⟨_, #[]⟩ hbuilt
  have hlength : names.length = 3 := by
    rcases Nat.lt_or_ge 2 names.length with h | h
    · have heq := herror.symm.trans ((hlimit 2).1 h)
      exact (CompileError.automatonTooLarge.inj (Except.error.inj heq)).1.symm
    · obtain ⟨a, ha, -⟩ := (hlimit 2).2 h
      cases herror.symm.trans ha
  obtain ⟨a, ha, hdescribes, -⟩ := (hlimit 3).2 (Nat.le_of_eq hlength)
  exact ⟨names, a, hlength, ha, hdescribes⟩

end Nfa

end ByteRegex
