import ByteRegex.Proofs.Graph.Basic

/-!
# Elimination keeps the language

The closure of a state is what it reaches by paths that spell the empty word (`mem_closure`). The
worklist computation has an invariant, `Saturating`: the marked states are those on the worklist
and those worked through, all of them are reached, and the epsilon edges of those worked through
lead to marked states.

A path of the original graph is then a path of the eliminated one up to a last stretch of epsilon
edges, and this stretch is made up for by what counts as a final.
-/

namespace ByteRegex.Graph

variable {g : Graph} {marked : StateSet} {collected todo : List Nat} {s t q : Nat} {e : Edge}
variable {w : List Label}

/-! ## The worklist -/

theorem capacity_visit (acc : StateSet × List Nat) (e : Edge) :
    (visit acc e).1.capacity = acc.1.capacity := by
  unfold visit
  split
  · exact StateSet.capacity_insert ..
  · rfl

theorem contains_visit {acc : StateSet × List Nat} :
    (visit acc e).1.contains q = true ↔
      acc.1.contains q = true ∨ e.label = .epsilon ∧ e.target = q ∧ q < acc.1.capacity := by
  unfold visit
  split
  · next h =>
    simp only [Bool.and_eq_true, decide_eq_true_eq] at h
    obtain ⟨⟨hl, -⟩, hlt⟩ := h
    rw [StateSet.contains_insert, Bool.or_eq_true, Bool.and_eq_true, beq_iff_eq, decide_eq_true_iff]
    exact or_congr_right ⟨fun ⟨h, _⟩ => ⟨hl, h, h ▸ hlt⟩, fun ⟨_, h, _⟩ => ⟨h, hlt⟩⟩
  · next h =>
    refine (or_iff_left_of_imp ?_).symm
    rintro ⟨hl, rfl, hlt⟩
    simpa [hl, hlt] using h

theorem tracks_visit {acc : StateSet × List Nat}
    (h : ∀ q, acc.1.contains q = true ↔ q ∈ collected ∨ q ∈ acc.2) :
    (visit acc e).1.contains q = true ↔ q ∈ collected ∨ q ∈ (visit acc e).2 := by
  unfold visit
  split
  · next hnew =>
    simp only [Bool.and_eq_true, decide_eq_true_eq] at hnew
    rw [StateSet.contains_insert, Bool.or_eq_true, Bool.and_eq_true, beq_iff_eq, h q,
      List.mem_cons, and_iff_left (decide_eq_true hnew.2), eq_comm, or_assoc, or_comm (a := _ = _)]
  · exact h q

/-- The invariant of the worklist. -/
structure Saturating (g : Graph) (s : Nat) (marked : StateSet) (collected todo : List Nat) :
    Prop where
  fits : g.size ≤ marked.capacity
  start : marked.contains s = true
  tracks : ∀ q, marked.contains q = true ↔ q ∈ collected ∨ q ∈ todo
  reached : ∀ q, marked.contains q = true → Spells g.edgesOf s [] q
  followed : ∀ q ∈ collected, ∀ e ∈ g.edgesOf q, e.label = .epsilon →
    marked.contains e.target = true

theorem Saturating.next (hg : g.InRange) (h : Saturating g s marked collected (q :: todo)) :
    Saturating g s ((g.edgesOf q).foldl visit (marked, todo)).1 (q :: collected)
      ((g.edgesOf q).foldl visit (marked, todo)).2 := by
  have htracks : ∀ r, marked.contains r = true ↔ r ∈ q :: collected ∨ r ∈ todo := fun r =>
    (h.tracks r).trans (by rw [List.mem_cons, List.mem_cons, or_left_comm, or_assoc])
  have hvisit := fun r => foldl_iff (f := visit) (l := g.edgesOf q) (b := (marked, todo))
    (I := fun acc => acc.1.capacity = marked.capacity ∧
      ∀ r, acc.1.contains r = true ↔ r ∈ q :: collected ∨ r ∈ acc.2)
    (P := fun acc => acc.1.contains r = true)
    (Q := fun e => e.label = .epsilon ∧ e.target = r ∧ r < marked.capacity) ⟨rfl, htracks⟩
    fun acc e _ hacc => ⟨⟨(capacity_visit acc e).trans hacc.1, fun r => tracks_visit hacc.2⟩,
      hacc.1 ▸ contains_visit⟩
  generalize (g.edgesOf q).foldl visit (marked, todo) = next at hvisit
  obtain ⟨marked', todo'⟩ := next
  have hmarks : ∀ r, marked'.contains r = true ↔ marked.contains r = true ∨
      ∃ e ∈ g.edgesOf q, e.label = .epsilon ∧ e.target = r ∧ r < marked.capacity :=
    fun r => (hvisit r).2
  refine ⟨(hvisit 0).1.1 ▸ h.fits, (hmarks s).mpr (.inl h.start), (hvisit 0).1.2, ?_, ?_⟩
  · intro r hr
    rcases (hmarks r).mp hr with hr | ⟨⟨_, _⟩, he, rfl, rfl, -⟩
    · exact h.reached r hr
    · exact (h.reached q ((htracks q).mpr (.inl List.mem_cons_self))).epsilon he
  · intro p hp e he hl
    rcases List.mem_cons.mp hp with rfl | hp
    · exact (hmarks _).mpr (.inr ⟨e, he, hl, rfl, Nat.lt_of_lt_of_le (hg.target_lt he) h.fits⟩)
    · exact (hmarks _).mpr (.inl (h.followed p hp e he hl))

theorem Saturating.mem_saturate (hg : g.InRange) (h : Saturating g s marked collected todo) :
    t ∈ g.saturate marked collected todo ↔ Spells g.edgesOf s [] t := by
  fun_induction saturate g marked collected todo with
  | case1 marked collected =>
    have hmem : ∀ q, q ∈ collected ↔ marked.contains q = true := fun q =>
      ((h.tracks q).trans (or_iff_left List.not_mem_nil)).symm
    refine ⟨fun ht => h.reached t ((hmem t).mp ht), fun ht => ?_⟩
    -- nothing is left to be worked through, so what is collected is closed
    have key := ht.invariant (P := fun w t => w = [] → t ∈ collected)
      (fun _ => (hmem s).mpr h.start) fun {w q e} ih he hw => by
        obtain ⟨rfl, hl⟩ := List.append_eq_nil_iff.mp hw
        refine (hmem _).mpr (h.followed q (ih rfl) e he ?_)
        by_contra hne
        rw [dropEpsilons_of_ne hne] at hl
        cases hl
    exact key rfl
  | case2 marked collected q todo next ih => exact ih (h.next hg)

/-- **The closure of a state is what it reaches over epsilon edges.** -/
theorem mem_closure (hg : g.InRange) (hs : s < g.size) :
    t ∈ g.closure s ↔ Spells g.edgesOf s [] t := by
  have hmarks : ∀ q, (StateSet.ofList g.size [s]).contains q = true ↔ q ∈ [s] := fun q =>
    StateSet.contains_ofList (by simpa using hs)
  refine Saturating.mem_saturate hg
    ⟨StateSet.le_capacity_ofList .., (hmarks s).mpr List.mem_cons_self, ?_, ?_, ?_⟩
  · exact fun q => (hmarks q).trans (or_iff_right List.not_mem_nil).symm
  · intro q hq
    obtain rfl := List.mem_singleton.mp ((hmarks q).mp hq)
    exact .refl
  · exact fun q hq => absurd hq List.not_mem_nil

/-! ## The eliminated graph -/

theorem edges_foldl_eliminateAt (l : List Nat) (acc : Graph) :
    (l.foldl g.eliminateAt acc).edges =
      acc.edges ++ (l.map fun s => g.properEdges (g.closure s)).toArray := by
  induction l generalizing acc with
  | nil => simp
  | cons s l ih => rw [List.foldl_cons, ih]; simp [eliminateAt]

theorem edges_eliminateEpsilons (g : Graph) :
    g.eliminateEpsilons.edges =
      ((List.range g.size).map fun s => g.properEdges (g.closure s)).toArray :=
  (edges_foldl_eliminateAt ..).trans (Array.empty_append ..)

theorem size_eliminateEpsilons (g : Graph) : g.eliminateEpsilons.size = g.size := by
  rw [size, edges_eliminateEpsilons, List.size_toArray, List.length_map, List.length_range]

/-- The edges of a state are the edges other than epsilon edges of what it reaches over epsilon
edges. -/
theorem mem_edgesOf_eliminateEpsilons (hg : g.InRange) :
    e ∈ g.eliminateEpsilons.edgesOf s ↔
      s < g.size ∧ ∃ q, Spells g.edgesOf s [] q ∧ e ∈ g.edgesOf q ∧ e.label ≠ .epsilon := by
  unfold edgesOf
  rw [edges_eliminateEpsilons, List.getElem?_toArray, List.getElem?_map]
  by_cases hs : s < g.size
  · rw [List.getElem?_range hs, Option.map_some, Option.map_some, Option.getD_some, properEdges,
      SortedSet.mem_ofList]
    simp only [List.mem_flatMap, List.mem_filter, mem_closure hg hs, bne_iff_ne, hs, true_and]
    rfl
  · rw [List.getElem?_eq_none (by simpa using hs)]
    simp [hs]

theorem contains_starts_eliminateEpsilons (hg : g.InRange) :
    g.eliminateEpsilons.starts.contains t = true ↔
      ∃ s, g.starts.contains s = true ∧ Spells g.edgesOf s [] t := by
  refine ((foldl_iff (I := fun acc : Graph => g.size ≤ acc.starts.capacity)
    (P := fun acc => acc.starts.contains t = true)
    (Q := fun s => g.starts.contains s = true ∧ Spells g.edgesOf s [] t)
    (StateSet.le_capacity_empty _) fun ⟨edges, starts, finals⟩ s hs hcap => ?_).2).trans ?_
  · rw [List.mem_range] at hs
    unfold eliminateAt
    dsimp only at hcap ⊢
    split
    · next hstart =>
      rw [StateSet.capacity_insertMany, StateSet.contains_insertMany, mem_closure hg hs]
      refine ⟨hcap, or_congr_right ⟨fun h => ⟨hstart, h.2⟩, fun h => ⟨?_, h.2⟩⟩⟩
      exact Nat.lt_of_lt_of_le (hg.lt_size_of_spells h.2 hs) hcap
    · next hstart => exact ⟨hcap, (or_iff_left fun h => hstart h.1).symm⟩
  · rw [StateSet.contains_empty]
    constructor
    · rintro (h | ⟨s, -, h⟩)
      · cases h
      · exact ⟨s, h⟩
    · rintro ⟨s, h⟩
      exact .inr ⟨s, List.mem_range.mpr (hg.start_lt h.1), h⟩

theorem contains_finals_eliminateEpsilons (hg : g.InRange) :
    g.eliminateEpsilons.finals.contains s = true ↔
      s < g.size ∧ ∃ t, g.finals.contains t = true ∧ Spells g.edgesOf s [] t := by
  refine ((foldl_iff (I := fun acc : Graph => g.size ≤ acc.finals.capacity)
    (P := fun acc => acc.finals.contains s = true)
    (Q := fun q => q = s ∧ ∃ t, g.finals.contains t = true ∧ Spells g.edgesOf s [] t)
    (StateSet.le_capacity_empty _) fun ⟨edges, starts, finals⟩ q hq hcap => ?_).2).trans ?_
  · rw [List.mem_range] at hq
    have hany : (g.closure q).any g.finals.contains = true ↔
        ∃ t, g.finals.contains t = true ∧ Spells g.edgesOf q [] t := by
      simp only [List.any_eq_true, mem_closure hg hq]
      exact exists_congr fun t => and_comm
    unfold eliminateAt
    dsimp only at hcap ⊢
    split
    · next hfinal =>
      rw [StateSet.capacity_insert, StateSet.contains_insert, Bool.or_eq_true, Bool.and_eq_true,
        beq_iff_eq, decide_eq_true_iff, and_iff_left (Nat.lt_of_lt_of_le hq hcap)]
      exact ⟨hcap, or_congr_right (iff_self_and.mpr fun h => h ▸ hany.mp hfinal)⟩
    · next hfinal =>
      refine ⟨hcap, (or_iff_left ?_).symm⟩
      rintro ⟨rfl, h⟩
      exact hfinal (hany.mpr h)
  · rw [StateSet.contains_empty]
    constructor
    · rintro (h | ⟨q, hq, rfl, h⟩)
      · cases h
      · exact ⟨List.mem_range.mp hq, h⟩
    · rintro ⟨hs, h⟩
      exact .inr ⟨s, List.mem_range.mpr hs, rfl, h⟩

theorem inRange_eliminateEpsilons (hg : g.InRange) : g.eliminateEpsilons.InRange where
  target_lt he := by
    obtain ⟨-, q, -, he, -⟩ := (mem_edgesOf_eliminateEpsilons hg).mp he
    rw [size_eliminateEpsilons]
    exact hg.target_lt he
  start_lt hs := by
    obtain ⟨s, hs, ht⟩ := (contains_starts_eliminateEpsilons hg).mp hs
    rw [size_eliminateEpsilons]
    exact hg.lt_size_of_spells ht (hg.start_lt hs)
  final_lt hs := by
    rw [size_eliminateEpsilons]
    exact ((contains_finals_eliminateEpsilons hg).mp hs).1

theorem ne_epsilon_of_mem_edgesOf_eliminateEpsilons (hg : g.InRange)
    (he : e ∈ g.eliminateEpsilons.edgesOf s) : e.label ≠ .epsilon := by
  obtain ⟨-, q, -, -, hl⟩ := (mem_edgesOf_eliminateEpsilons hg).mp he
  exact hl

theorem spells_of_eliminateEpsilons (hg : g.InRange)
    (h : Spells g.eliminateEpsilons.edgesOf s w t) : Spells g.edgesOf s w t := by
  refine h.invariant (P := fun w t => Spells g.edgesOf s w t) .refl fun {w t e} hw he => ?_
  obtain ⟨-, q, hq, he, -⟩ := (mem_edgesOf_eliminateEpsilons hg).mp he
  have hpre := hw.trans hq
  rw [List.append_nil] at hpre
  exact hpre.step he

/-- A path can be followed without epsilon edges up to a last stretch of them. -/
theorem spells_eliminateEpsilons (hg : g.InRange) (hs : s < g.size) (h : Spells g.edgesOf s w t) :
    ∃ q, Spells g.eliminateEpsilons.edgesOf s w q ∧ Spells g.edgesOf q [] t := by
  refine h.invariant (P := fun w t => ∃ q, Spells g.eliminateEpsilons.edgesOf s w q ∧
    Spells g.edgesOf q [] t) ⟨s, .refl, .refl⟩ ?_
  rintro w t ⟨target, label⟩ ⟨q, hq, ht⟩ he
  by_cases hl : label = .epsilon
  · subst hl
    rw [dropEpsilons_epsilon, List.append_nil]
    exact ⟨q, hq, ht.epsilon he⟩
  · have hlt := (inRange_eliminateEpsilons hg).lt_size_of_spells hq
      ((size_eliminateEpsilons g).symm ▸ hs)
    rw [size_eliminateEpsilons] at hlt
    exact ⟨target, hq.step ((mem_edgesOf_eliminateEpsilons hg).mpr ⟨hlt, t, ht, he, hl⟩), .refl⟩

/-- **Elimination keeps the language.** -/
theorem language_eliminateEpsilons (hg : g.InRange) :
    g.eliminateEpsilons.language = g.language := by
  ext w
  constructor
  · rintro ⟨s', t, hs', ht, hw⟩
    obtain ⟨s, hs, hss'⟩ := (contains_starts_eliminateEpsilons hg).mp hs'
    obtain ⟨-, t', ht', htt'⟩ := (contains_finals_eliminateEpsilons hg).mp ht
    -- the stretches of epsilon edges at both ends belong to the original path
    have := (hss'.trans (spells_of_eliminateEpsilons hg hw)).trans htt'
    rw [List.nil_append, List.append_nil] at this
    exact ⟨s, t', hs, ht', this⟩
  · rintro ⟨s, t, hs, ht, hw⟩
    have hlt := hg.start_lt hs
    obtain ⟨q, hq, hqt⟩ := spells_eliminateEpsilons hg hlt hw
    have hqlt := (inRange_eliminateEpsilons hg).lt_size_of_spells hq
      ((size_eliminateEpsilons g).symm ▸ hlt)
    rw [size_eliminateEpsilons] at hqlt
    exact ⟨s, q, (contains_starts_eliminateEpsilons hg).mpr ⟨s, hs, .refl⟩,
      (contains_finals_eliminateEpsilons hg).mpr ⟨hqlt, t, ht, hqt⟩, hq⟩

end ByteRegex.Graph
