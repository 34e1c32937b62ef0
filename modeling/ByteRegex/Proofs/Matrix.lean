import ByteRegex.Proofs.Automaton

/-!
# The matrix of an automaton

The edges of an automaton can be laid out as a matrix with a cell for each pair of states. The rows
lie one behind another in one array, so the place of a cell is computed from the numbers of its two
states, and each cell that is not blank points to its labels.

Adding an edge between two states keeps all of these places valid (`EdgeMatrix.Sound.add`), and
changes the labels of its own cell only (`EdgeMatrix.labelsAt_add`). So a row that is read off the
matrix is the row of the automaton (`Automaton.row_matrix`): the cells are in ascending order of
targets, and labels of the same cell are in the order of the edges.
-/

namespace ByteRegex

/-- The edges between `width` states, as a matrix. -/
structure EdgeMatrix where
  width : Nat
  /-- Row by row, 0 for no edge, or one more than the place of the labels. -/
  cells : Array Nat
  /-- The labels of the cells that are not blank. -/
  labels : Array (List Label)

namespace EdgeMatrix

/-- A matrix without edges. -/
def blank (width : Nat) : EdgeMatrix := ⟨width, Array.replicate (width * width) 0, #[]⟩

/-- The place of the cell of two states. -/
def place (m : EdgeMatrix) (source target : Nat) : Nat := source * m.width + target

/-- Add an edge behind those of the same cell. -/
def add (m : EdgeMatrix) (source : Nat) (e : Edge) : EdgeMatrix :=
  match m.cells[m.place source e.target]? with
  | none => m
  | some 0 =>
    { m with
      cells := m.cells.setIfInBounds (m.place source e.target) (m.labels.size + 1)
      labels := m.labels.push [e.label] }
  | some (k + 1) => { m with labels := m.labels.modify k (· ++ [e.label]) }

/-- The matrix of listed edges, each with its source. -/
def ofList (width : Nat) (listed : List (Nat × Edge)) : EdgeMatrix :=
  listed.foldl (fun m x => m.add x.1 x.2) (blank width)

/-- The labels of the cell at a place. -/
def labelsAt (m : EdgeMatrix) (p : Nat) : List Label :=
  match m.cells[p]? with
  | some (k + 1) => m.labels[k]?.getD []
  | _ => []

/-- The edges that leave a state, in ascending order of targets. -/
def row (m : EdgeMatrix) (source : Nat) : List Edge :=
  (List.range m.width).flatMap fun t => (m.labelsAt (m.place source t)).map (Edge.mk t)

/-- There is a cell for each pair of states, and each cell that is not blank has its own labels. -/
structure Sound (m : EdgeMatrix) : Prop where
  size_cells : m.cells.size = m.width * m.width
  lt_size : ∀ {p k : Nat}, m.cells[p]? = some (k + 1) → k < m.labels.size
  unique : ∀ {p q k : Nat}, m.cells[p]? = some (k + 1) → m.cells[q]? = some (k + 1) → p = q

variable {m : EdgeMatrix} {n s t source : Nat} {e : Edge} {listed : List (Nat × Edge)}

/-! ## Places -/

theorem place_lt (hs : s < n) (ht : t < n) : s * n + t < n * n :=
  calc s * n + t
    _ < s * n + n := Nat.add_lt_add_left ht _
    _ = (s + 1) * n := (Nat.succ_mul s n).symm
    _ ≤ n * n := Nat.mul_le_mul_right n hs

theorem place_inj {s' t' : Nat} (ht : t < n) (ht' : t' < n) :
    s * n + t = s' * n + t' ↔ s = s' ∧ t = t' := by
  have hn : 0 < n := Nat.zero_lt_of_lt ht
  constructor
  · intro h
    have hdiv := congrArg (· / n) h
    have hmod := congrArg (· % n) h
    simp only [Nat.mul_add_mod_self_right, Nat.mod_eq_of_lt ht, Nat.mod_eq_of_lt ht'] at hmod
    simp only [Nat.mul_comm _ n, Nat.mul_add_div hn, Nat.div_eq_of_lt ht, Nat.div_eq_of_lt ht',
      Nat.add_zero] at hdiv
    exact ⟨hdiv, hmod⟩
  · rintro ⟨rfl, rfl⟩
    rfl

/-! ## Adding edges -/

@[simp] theorem width_add (m : EdgeMatrix) (source : Nat) (e : Edge) :
    (m.add source e).width = m.width := by
  unfold add
  split <;> rfl

/-- A row lies within the cells. -/
theorem Sound.row_le (h : m.Sound) (hs : s < m.width) :
    m.place s 0 + m.width ≤ m.cells.size := by
  rw [h.size_cells, place, Nat.add_zero, ← Nat.succ_mul]
  exact Nat.mul_le_mul_right _ hs

theorem sound_blank (n : Nat) : (blank n).Sound where
  size_cells := Array.size_replicate
  lt_size h := by
    rw [blank, Array.getElem?_replicate] at h
    split at h <;> cases h
  unique h := by
    rw [blank, Array.getElem?_replicate] at h
    split at h <;> cases h

theorem Sound.add (h : m.Sound) (source : Nat) (e : Edge) : (m.add source e).Sound := by
  unfold EdgeMatrix.add
  split
  · exact h
  · next hblank =>
    -- the new labels are those of no other cell
    have hcell : ∀ {p k : Nat},
        (m.cells.setIfInBounds (m.place source e.target) (m.labels.size + 1))[p]? = some (k + 1) →
        p = m.place source e.target ∧ k = m.labels.size ∨ m.cells[p]? = some (k + 1) := by
      intro p k hp
      rw [Array.getElem?_setIfInBounds] at hp
      split at hp
      · next heq =>
        split at hp
        · exact .inl ⟨heq.symm, Nat.succ.inj (Option.some.inj hp).symm⟩
        · cases hp
      · exact .inr hp
    refine ⟨?_, fun hp => ?_, fun hp hq => ?_⟩
    · exact Array.size_setIfInBounds.trans h.size_cells
    · rw [Array.size_push]
      rcases hcell hp with ⟨-, rfl⟩ | hp
      · exact Nat.lt_succ_self _
      · exact Nat.lt_succ_of_lt (h.lt_size hp)
    · rcases hcell hp with ⟨rfl, rfl⟩ | hp
      · rcases hcell hq with ⟨rfl, -⟩ | hq
        · rfl
        · exact absurd (h.lt_size hq) (Nat.lt_irrefl _)
      · rcases hcell hq with ⟨rfl, rfl⟩ | hq
        · exact absurd (h.lt_size hp) (Nat.lt_irrefl _)
        · exact h.unique hp hq
  · refine ⟨h.size_cells, fun hp => ?_, h.unique⟩
    rw [Array.size_modify]
    exact h.lt_size hp

/-- An edge between two states adds its label to their cell and to no other. -/
theorem labelsAt_add (h : m.Sound) (hs : source < m.width) (ht : e.target < m.width) (p : Nat) :
    (m.add source e).labelsAt p =
      m.labelsAt p ++ if m.place source e.target = p then [e.label] else [] := by
  have hlt : m.place source e.target < m.cells.size := h.size_cells ▸ place_lt hs ht
  unfold EdgeMatrix.add
  split
  · next hnone => exact absurd hnone (by simp [hlt])
  · next hblank =>
    unfold labelsAt
    dsimp only
    rw [Array.getElem?_setIfInBounds]
    by_cases hp : m.place source e.target = p
    · subst hp
      rw [if_pos rfl, if_pos rfl, if_pos hlt, hblank]
      dsimp only
      rw [Array.getElem?_push_size]
      rfl
    · rw [if_neg hp, if_neg hp, List.append_nil]
      split
      · next k hk =>
        rw [Array.getElem?_push_lt (h.lt_size hk), ← Array.getElem?_eq_getElem (h.lt_size hk)]
      · rfl
  · next k hk =>
    unfold labelsAt
    dsimp only
    by_cases hp : m.place source e.target = p
    · subst hp
      rw [if_pos rfl, hk]
      dsimp only
      rw [Array.getElem?_modify, if_pos rfl, Array.getElem?_eq_getElem (h.lt_size hk)]
      rfl
    · rw [if_neg hp, List.append_nil]
      split
      · next j hj =>
        have hne : k ≠ j := fun heq => hp (h.unique hk (heq ▸ hj))
        rw [Array.getElem?_modify, if_neg hne]
      · rfl

/-- The edges of a list are between two of `n` states. -/
def Between (n : Nat) (listed : List (Nat × Edge)) : Prop :=
  ∀ x ∈ listed, x.1 < n ∧ x.2.target < n

/-- **What listed edges make of a matrix.** -/
theorem foldl_add (h : m.Sound) (hlisted : Between m.width listed) :
    (listed.foldl (fun m x => m.add x.1 x.2) m).Sound ∧
      (listed.foldl (fun m x => m.add x.1 x.2) m).width = m.width ∧
      ∀ p, (listed.foldl (fun m x => m.add x.1 x.2) m).labelsAt p =
        m.labelsAt p ++ (listed.filter fun x => m.place x.1 x.2.target = p).map (·.2.label) := by
  induction listed generalizing m with
  | nil => exact ⟨h, rfl, fun p => (List.append_nil _).symm⟩
  | cons x listed ih =>
    obtain ⟨hs, ht⟩ := hlisted x List.mem_cons_self
    have hrest : Between (m.add x.1 x.2).width listed := by
      intro y hy
      rw [width_add]
      exact hlisted y (List.mem_cons_of_mem x hy)
    obtain ⟨hsound, hwidth, hlabels⟩ := ih (h.add x.1 x.2) hrest
    refine ⟨hsound, hwidth.trans (width_add ..), fun p => ?_⟩
    have hplace : (m.add x.1 x.2).place = m.place := by
      unfold place
      rw [width_add]
    rw [List.foldl_cons, hlabels, labelsAt_add h hs ht, hplace, List.append_assoc,
      List.filter_cons]
    by_cases hp : m.place x.1 x.2.target = p <;> simp [hp]

theorem labelsAt_blank (n p : Nat) : (blank n).labelsAt p = [] := by
  unfold labelsAt blank
  dsimp only
  rw [Array.getElem?_replicate]
  by_cases hp : p < n * n <;> simp [hp]

theorem sound_ofList (h : Between n listed) : (ofList n listed).Sound :=
  (foldl_add (sound_blank n) h).1

@[simp] theorem width_ofList (h : Between n listed) : (ofList n listed).width = n :=
  (foldl_add (sound_blank n) h).2.1

/-- A cell holds the listed labels of its pair of states. -/
theorem labelsAt_ofList (h : Between n listed) (s : Nat) (ht : t < n) :
    (ofList n listed).labelsAt ((ofList n listed).place s t) =
      (listed.filter fun x => x.1 = s ∧ x.2.target = t).map (·.2.label) := by
  have hlabels : ∀ p, (ofList n listed).labelsAt p = _ := (foldl_add (sound_blank n) h).2.2
  rw [hlabels, labelsAt_blank, List.nil_append, place, width_ofList h]
  refine congrArg (List.map _) (List.filter_congr fun x hx => ?_)
  rw [decide_eq_decide]
  exact place_inj (h x hx).2 ht

/-- A row holds the listed edges of its state, grouped by target. -/
theorem row_ofList (h : Between n listed) (s : Nat) :
    (ofList n listed).row s = (List.range n).flatMap fun t =>
      (listed.filter fun x => x.1 = s ∧ x.2.target = t).map (·.2) := by
  rw [row, width_ofList h]
  refine List.flatMap_congr fun t ht => ?_
  rw [labelsAt_ofList h s (List.mem_range.mp ht), List.map_map]
  refine List.map_congr_left fun x hx => ?_
  have htarget : x.2.target = t := (of_decide_eq_true (List.mem_filter.mp hx).2).2
  exact htarget ▸ rfl

end EdgeMatrix

/-! ## Automata -/

namespace Automaton

/-- The matrix of the edges of an automaton. -/
def matrix (a : Automaton) : EdgeMatrix :=
  .ofList a.stateCount ((List.range a.stateCount).flatMap fun s => (a.edges s).map (s, ·))

variable {a : Automaton} {n s : Nat} {listed : List (Nat × List Edge)} {starts finals : StateSet}
variable {classes : Array ByteClass} {row : List Edge}

theorem between_edges (ha : a.InRange) : EdgeMatrix.Between a.stateCount
    ((List.range a.stateCount).flatMap fun s => (a.edges s).map (s, ·)) := by
  intro x hx
  obtain ⟨s, hs, hx⟩ := List.mem_flatMap.mp hx
  obtain ⟨e, he, rfl⟩ := List.mem_map.mp hx
  exact ⟨List.mem_range.mp hs, ha.target_lt he⟩

theorem sound_matrix (ha : a.InRange) : a.matrix.Sound := EdgeMatrix.sound_ofList (between_edges ha)

theorem width_matrix (ha : a.InRange) : a.matrix.width = a.stateCount :=
  EdgeMatrix.width_ofList (between_edges ha)

theorem filter_target_lt_succ (hrow : row.Pairwise (·.target ≤ ·.target)) (n : Nat) :
    row.filter (·.target < n) ++ row.filter (·.target = n) = row.filter (·.target < n + 1) := by
  induction row with
  | nil => rfl
  | cons e row ih =>
    obtain ⟨hle, hrow⟩ := List.pairwise_cons.mp hrow
    rcases Nat.lt_trichotomy e.target n with hlt | rfl | hgt
    · rw [List.filter_cons_of_pos (by simp; omega), List.filter_cons_of_neg (by simp; omega),
        List.filter_cons_of_pos (by simp; omega), List.cons_append, ih hrow]
    · -- all edges below the target stand in front
      have hnone : row.filter (·.target < e.target) = [] := by
        simpa using hle
      rw [List.filter_cons_of_neg (by simp), List.filter_cons_of_pos (by simp),
        List.filter_cons_of_pos (by simp), ← ih hrow, hnone, List.nil_append, List.nil_append]
    · rw [List.filter_cons_of_neg (by simp; omega), List.filter_cons_of_neg (by simp; omega),
        List.filter_cons_of_neg (by simp; omega), ih hrow]

/-- In a row in ascending order of targets, the edges with the same target stand together. -/
theorem flatMap_filter_target (hrow : row.Pairwise (·.target ≤ ·.target)) (n : Nat) :
    ((List.range n).flatMap fun t => row.filter (·.target = t)) = row.filter (·.target < n) := by
  induction n with
  | zero => simp
  | succ n ih =>
    rw [List.range_succ, List.flatMap_append, ih, List.flatMap_singleton,
      filter_target_lt_succ hrow]

theorem flatMap_range_ite {α : Type} {l : List α} (hs : s < n) :
    ((List.range n).flatMap fun q => if q = s then l else []) = l := by
  have hnone : ∀ m ≤ s, ((List.range m).flatMap fun q => if q = s then l else []) = [] := by
    intro m hm
    refine List.flatMap_eq_nil_iff.mpr fun q hq => if_neg ?_
    exact Nat.ne_of_lt (Nat.lt_of_lt_of_le (List.mem_range.mp hq) hm)
  induction n with
  | zero => cases hs
  | succ n ih =>
    rw [List.range_succ, List.flatMap_append, List.flatMap_singleton]
    rcases Nat.lt_succ_iff_lt_or_eq.mp hs with hlt | rfl
    · rw [ih hlt, if_neg (Nat.ne_of_gt hlt), List.append_nil]
    · rw [hnone s (Nat.le_refl s), if_pos rfl, List.nil_append]

/-- **A row of the matrix is the row of the automaton.** -/
theorem row_matrix (ha : a.InRange) (hs : s < a.stateCount)
    (hrow : (a.edges s).Pairwise (·.target ≤ ·.target)) : a.matrix.row s = a.edges s := by
  -- of the listed edges, those with the source `s` are the row of `s`
  have hsource : ∀ t, (((List.range a.stateCount).flatMap fun s => (a.edges s).map (s, ·)).filter
      fun x => x.1 = s ∧ x.2.target = t).map (·.2) = (a.edges s).filter (·.target = t) := by
    intro t
    rw [List.filter_flatMap, List.map_flatMap]
    refine Eq.trans (List.flatMap_congr fun q _ => ?_) (flatMap_range_ite hs)
    rw [List.filter_map, List.map_map]
    by_cases hq : q = s
    · subst hq
      simp [Function.comp_def]
    · simp [hq, Function.comp_def]
  rw [matrix, EdgeMatrix.row_ofList (between_edges ha), List.flatMap_congr fun t _ => hsource t,
    flatMap_filter_target hrow]
  refine List.filter_eq_self.mpr fun e he => ?_
  exact decide_eq_true (ha.target_lt he)

theorem target_le_trans (d e f : Edge) (h : decide (d.target ≤ e.target) = true)
    (h' : decide (e.target ≤ f.target) = true) : decide (d.target ≤ f.target) = true :=
  decide_eq_true (Nat.le_trans (of_decide_eq_true h) (of_decide_eq_true h'))

theorem target_le_total (d e : Edge) :
    (decide (d.target ≤ e.target) || decide (e.target ≤ d.target)) = true := by
  simp only [Bool.or_eq_true, decide_eq_true_eq]
  exact Nat.le_total _ _

theorem pairwise_sortRow (row : List Edge) : (sortRow row).Pairwise (·.target ≤ ·.target) := by
  have hsorted : (sortRow row).Pairwise fun d e => decide (d.target ≤ e.target) = true :=
    List.pairwise_mergeSort target_le_trans target_le_total row
  exact hsorted.imp of_decide_eq_true

theorem pairwise_edges_ofEdges :
    ((ofEdges n listed starts finals classes).edges s).Pairwise (·.target ≤ ·.target) := by
  by_cases hs : s < n
  · rw [edges_ofEdges hs]
    exact pairwise_sortRow _
  · rw [edges, Array.getElem?_eq_none]
    · exact .nil
    · exact Nat.le_of_not_lt fun hlt => hs (by rwa [← stateCount, stateCount_ofEdges] at hlt)

end Automaton

end ByteRegex
