import ByteRegex.Proofs.Graph.Basic

/-!
# Pruning keeps the language

Every state on a path from a start is entered by another state, or is the start itself. So no edge
of such a path is dropped.
-/

namespace ByteRegex.Graph

variable {g : Graph} {q s t : Nat} {e : Edge} {v w : List Label}

@[simp] theorem size_pruneOnce (g : Graph) : g.pruneOnce.size = g.size := Array.size_mapIdx ..

theorem mem_edgesOf_pruneOnce :
    e ∈ g.pruneOnce.edgesOf s ↔ e ∈ g.edgesOf s ∧ g.isDead g.entered s = false := by
  unfold pruneOnce edgesOf
  rw [Array.getElem?_mapIdx]
  cases g.edges[s]? with
  | none => simp
  | some es =>
    rw [Option.map_some, Option.map_some, Option.map_some, Option.getD_some, Option.getD_some]
    split
    · next h => simp [h, SortedSet.empty]
    · next h => simp [h]

theorem isDead_eq_false (hs : s < g.size) :
    g.isDead g.entered s = false ↔
      (∃ q, q ≠ s ∧ ∃ e ∈ g.edgesOf q, e.target = s) ∨ g.starts.contains s = true := by
  unfold isDead
  rw [Bool.and_eq_false_iff, Bool.not_eq_false', Bool.not_eq_false', entered_iff hs]

theorem inRange_pruneOnce (hg : g.InRange) : g.pruneOnce.InRange where
  target_lt he := by
    rw [size_pruneOnce]
    exact hg.target_lt (mem_edgesOf_pruneOnce.mp he).1
  start_lt hs := by
    rw [size_pruneOnce]
    exact hg.start_lt hs
  final_lt hs := by
    rw [size_pruneOnce]
    exact hg.final_lt hs

/-- A state that is reached from a start keeps its edges. -/
theorem mem_edgesOf_pruneOnce_of_spells (hs : g.starts.contains s = true)
    (h : Spells g.edgesOf s w t) (he : e ∈ g.edgesOf t) : e ∈ g.pruneOnce.edgesOf t := by
  have hlive : (∃ q, q ≠ t ∧ ∃ e ∈ g.edgesOf q, e.target = t) ∨ g.starts.contains t = true := by
    by_cases hst : t = s
    · exact .inr (hst ▸ hs)
    · exact .inl (h.exists_entering hst)
  exact mem_edgesOf_pruneOnce.mpr ⟨he, (isDead_eq_false (lt_size_of_mem_edgesOf he)).mpr hlive⟩

theorem spells_pruneOnce (hs : g.starts.contains s = true) (h : Spells g.edgesOf s w t) :
    Spells g.pruneOnce.edgesOf s w t := by
  have key := h.invariant (P := fun w t => Spells g.edgesOf s w t ∧
    Spells g.pruneOnce.edgesOf s w t) ⟨.refl, .refl⟩ fun ⟨hw, hw'⟩ he =>
      ⟨hw.step he, hw'.step (mem_edgesOf_pruneOnce_of_spells hs hw he)⟩
  exact key.2

theorem language_pruneOnce (g : Graph) : g.pruneOnce.language = g.language := by
  ext w
  constructor
  · rintro ⟨s, t, hs, ht, hw⟩
    exact ⟨s, t, hs, ht, hw.mono fun he => (mem_edgesOf_pruneOnce.mp he).1⟩
  · rintro ⟨s, t, hs, ht, hw⟩
    exact ⟨s, t, hs, ht, spells_pruneOnce hs hw⟩

/-! ## All rounds -/

theorem size_pruneUnreachable (g : Graph) : g.pruneUnreachable.size = g.size := by
  fun_induction pruneUnreachable g with
  | case1 g pruned _ ih => rw [ih, size_pruneOnce]
  | case2 => rfl

theorem inRange_pruneUnreachable (hg : g.InRange) : g.pruneUnreachable.InRange := by
  fun_induction pruneUnreachable g with
  | case1 g pruned _ ih => exact ih (inRange_pruneOnce hg)
  | case2 => exact hg

/-- **Pruning keeps the language.** -/
theorem language_pruneUnreachable (g : Graph) : g.pruneUnreachable.language = g.language := by
  fun_induction pruneUnreachable g with
  | case1 g pruned _ ih => rw [ih, language_pruneOnce]
  | case2 => rfl

theorem mem_edgesOf_of_pruneUnreachable (he : e ∈ g.pruneUnreachable.edgesOf s) :
    e ∈ g.edgesOf s := by
  fun_induction pruneUnreachable g with
  | case1 g pruned _ ih => exact (mem_edgesOf_pruneOnce.mp (ih he)).1
  | case2 => exact he

theorem starts_pruneUnreachable (g : Graph) : g.pruneUnreachable.starts = g.starts := by
  fun_induction pruneUnreachable g with
  | case1 g pruned _ ih => exact ih
  | case2 => rfl

theorem finals_pruneUnreachable (g : Graph) : g.pruneUnreachable.finals = g.finals := by
  fun_induction pruneUnreachable g with
  | case1 g pruned _ ih => exact ih
  | case2 => rfl

theorem mem_edgesOf_pruneUnreachable_of_spells (hs : g.starts.contains s = true)
    (h : Spells g.edgesOf s w t) (he : e ∈ g.edgesOf t) : e ∈ g.pruneUnreachable.edgesOf t := by
  fun_induction pruneUnreachable g with
  | case1 g pruned _ ih =>
    exact ih hs (spells_pruneOnce hs h) (mem_edgesOf_pruneOnce_of_spells hs h he)
  | case2 => exact he

/-- Beyond a state that is reached from a start, pruning keeps all paths. -/
theorem spells_pruneUnreachable_of_spells (hq : g.starts.contains q = true)
    (hqs : Spells g.edgesOf q v s) (h : Spells g.edgesOf s w t) :
    Spells g.pruneUnreachable.edgesOf s w t := by
  have key := h.invariant (P := fun w t => Spells g.edgesOf q (v ++ w) t ∧
    Spells g.pruneUnreachable.edgesOf s w t) ⟨by rwa [List.append_nil], .refl⟩
    fun {w t e} ⟨hw, hw'⟩ he => by
      refine ⟨?_, hw'.step (mem_edgesOf_pruneUnreachable_of_spells hq hw he)⟩
      rw [← List.append_assoc]
      exact hw.step he
  exact key.2

/-! ## The end of pruning -/

theorem busyCount_eq (g : Graph) :
    g.busyCount = (List.range g.size).countP fun s => !(g.edgesOf s).isEmpty := by
  have hrows : (g.edges.toList.map fun es => !es.isEmpty) =
      (List.range g.size).map fun s => !(g.edgesOf s).isEmpty := by
    refine List.ext_getElem (by simp [size]) fun i hi _ => ?_
    have hlt : i < g.edges.size := by simpa using hi
    simp [edgesOf, hlt, SortedSet.isEmpty]
  calc g.busyCount
    _ = g.edges.toList.countP fun es => !es.isEmpty := Array.countP_toList.symm
    _ = (g.edges.toList.map fun es => !es.isEmpty).countP id := by rw [List.countP_map]; rfl
    _ = ((List.range g.size).map fun s => !(g.edgesOf s).isEmpty).countP id := by rw [hrows]
    _ = _ := by rw [List.countP_map]; rfl

theorem countP_lt_countP {α : Type} {p q : α → Bool} {l : List α} {x : α}
    (h : ∀ y ∈ l, p y = true → q y = true) (hx : x ∈ l) (hp : p x = false) (hq : q x = true) :
    l.countP p < l.countP q := by
  obtain ⟨l₁, l₂, rfl⟩ := List.append_of_mem hx
  have h₁ := List.countP_mono_left fun y hy => h y (List.mem_append_left _ hy)
  have h₂ := List.countP_mono_left fun y hy =>
    h y (List.mem_append_right _ (List.mem_cons_of_mem x hy))
  rw [List.countP_append, List.countP_append, List.countP_cons_of_neg (by simp [hp]),
    List.countP_cons_of_pos hq]
  omega

/-- A round that drops an edge leaves fewer states with edges. -/
theorem busyCount_pruneOnce_lt (he : e ∈ g.edgesOf s) (hdead : g.isDead g.entered s = true) :
    g.pruneOnce.busyCount < g.busyCount := by
  rw [busyCount_eq, busyCount_eq, size_pruneOnce]
  have hmono : ∀ t ∈ List.range g.size, (!(g.pruneOnce.edgesOf t).isEmpty) = true →
      (!(g.edgesOf t).isEmpty) = true := by
    intro t _ ht
    rw [Bool.not_eq_true', List.isEmpty_eq_false_iff_exists_mem] at ht ⊢
    exact ht.imp fun _ he => (mem_edgesOf_pruneOnce.mp he).1
  have hempty : g.pruneOnce.edgesOf s = [] := by
    refine List.eq_nil_iff_forall_not_mem.mpr fun d hd => ?_
    rw [(mem_edgesOf_pruneOnce.mp hd).2] at hdead
    cases hdead
  refine countP_lt_countP hmono (List.mem_range.mpr (lt_size_of_mem_edgesOf he)) ?_ ?_
  · rw [hempty]
    rfl
  · rw [Bool.not_eq_true', List.isEmpty_eq_false_iff_exists_mem]
    exact ⟨e, he⟩

/-- **At the end of pruning, only what is entered or is a start has edges.** -/
theorem isDead_pruneUnreachable (he : e ∈ g.pruneUnreachable.edgesOf s) :
    g.pruneUnreachable.isDead g.pruneUnreachable.entered s = false := by
  fun_induction pruneUnreachable g with
  | case1 g pruned _ ih => exact ih he
  | case2 g pruned hcount =>
    exact Bool.eq_false_iff.mpr fun hdead => hcount (busyCount_pruneOnce_lt he hdead)

end ByteRegex.Graph
