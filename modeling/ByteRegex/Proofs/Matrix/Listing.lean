import ByteRegex.Proofs.Matrix
import Mathlib.Data.Finset.Card

/-!
# Matrices of listed edges

Edges are listed row by row. A state may have several rows, and edges may be listed again. The
automaton of such a list has all of its edges, and both the automaton and the matrix that is filled
while the list is read give, for each pair of states, the labels that are listed for it in the order
of the list.

A cell holds one more than the place of its labels. There are as many places as pairs of states with
an edge (`EdgeMatrix.counts_ofList`), so a cell is a word of 32 bits if there are fewer than
2 ^ 32 such pairs.

Main statement: `Automaton.ofEdges_represents`.
-/

namespace ByteRegex

/-- Listed edges one by one, each with its source. -/
def listedEdges (listed : List (Nat × List Edge)) : List (Nat × Edge) :=
  listed.flatMap fun row => row.2.map (row.1, ·)

/-- The labels that are listed for a pair of states. -/
def labelsListed (listed : List (Nat × Edge)) (s t : Nat) : List Label :=
  (listed.filter fun x => x.1 = s ∧ x.2.target = t).map (·.2.label)

/-- The pairs of states with an edge. -/
def pairsListed (listed : List (Nat × Edge)) : Finset (Nat × Nat) :=
  (listed.map fun x => (x.1, x.2.target)).toFinset

/-- Items that are added to one of several lists are added to their number. -/
theorem sum_length_modify {α : Type} {ls : List (List α)} {k : Nat} {us : List α}
    (hk : us ≠ [] → k < ls.length) :
    ((ls.modify k (· ++ us)).map List.length).sum = (ls.map List.length).sum + us.length := by
  induction ls generalizing k with
  | nil =>
    have hnil : us = [] := by
      by_contra hne
      cases hk hne
    rw [hnil, List.modify_nil]
    rfl
  | cons l ls ih =>
    cases k with
    | zero =>
      simp only [List.modify_zero_cons, List.map_cons, List.sum_cons, List.length_append]
      omega
    | succ k =>
      simp only [List.modify_succ_cons, List.map_cons, List.sum_cons]
      rw [ih fun hne => Nat.lt_of_succ_lt_succ (hk hne), Nat.add_assoc]

variable {n s t : Nat} {listed : List (Nat × Edge)} {x : Nat × Edge}

/-! ## Matrices -/

namespace EdgeMatrix

variable {m : EdgeMatrix}

/-- The number of edges. -/
def edgeCount (m : EdgeMatrix) : Nat := (m.labels.toList.map List.length).sum

/-- An edge between two states is one more edge. -/
theorem edgeCount_add (h : m.Sound) (hs : s < m.width) {e : Edge} (he : e.target < m.width) :
    (m.add s e).edgeCount = m.edgeCount + 1 := by
  have hlt : m.place s e.target < m.cells.size := h.size_cells ▸ place_lt hs he
  unfold add edgeCount
  split
  · next hnone => exact absurd hnone (by simp [hlt])
  · simp
  · next k hk =>
    rw [Array.toList_modify, sum_length_modify fun _ => by simpa using h.lt_size hk]
    rfl

theorem between_append {us : List (Nat × Edge)} :
    Between n (listed ++ us) ↔ Between n listed ∧ Between n us := List.forall_mem_append

theorem ofList_concat : ofList n (listed ++ [x]) = (ofList n listed).add x.1 x.2 :=
  List.foldl_concat ..

/-- The matrix has all edges that are listed. -/
theorem edgeCount_ofList (h : Between n listed) : (ofList n listed).edgeCount = listed.length := by
  induction listed using List.reverseRecOn with
  | nil => rfl
  | append_singleton listed x ih =>
    obtain ⟨h, hx⟩ := between_append.mp h
    obtain ⟨hs, ht⟩ := hx x List.mem_cons_self
    have hwidth := width_ofList h
    rw [ofList_concat, edgeCount_add (sound_ofList h) (by rwa [hwidth]) (by rwa [hwidth]), ih h,
      List.length_append, List.length_singleton]

/-- There are as many lists of labels as pairs of states with an edge, and the cell of a pair is
blank if there is none. -/
structure Counts (m : EdgeMatrix) (listed : List (Nat × Edge)) : Prop where
  size_labels : m.labels.size = (pairsListed listed).card
  blank_iff : ∀ s < m.width, ∀ t < m.width,
    m.cells[m.place s t]? = some 0 ↔ (s, t) ∉ pairsListed listed

theorem counts_blank (n : Nat) : (blank n).Counts [] where
  size_labels := rfl
  blank_iff s hs t ht := by
    have hzero : (blank n).cells[(blank n).place s t]? = some 0 :=
      Array.getElem?_replicate.trans (if_pos (place_lt hs ht))
    simp [hzero, pairsListed]

/-- An edge of a new pair takes a new list of labels, and any other edge takes none. -/
theorem Counts.add (h : m.Counts listed) (hsound : m.Sound) (hs : x.1 < m.width)
    (ht : x.2.target < m.width) : (m.add x.1 x.2).Counts (listed ++ [x]) := by
  have hpairs : pairsListed (listed ++ [x]) = insert (x.1, x.2.target) (pairsListed listed) := by
    ext p
    simp [pairsListed]
  have hlt : m.place x.1 x.2.target < m.cells.size := hsound.size_cells ▸ place_lt hs ht
  unfold EdgeMatrix.add
  split
  · next hnone => exact absurd hnone (by simp [hlt])
  · next hzero =>
    have hnew := (h.blank_iff _ hs _ ht).mp hzero
    refine ⟨?_, fun s hs' t ht' => ?_⟩
    · rw [hpairs, Array.size_push, h.size_labels, Finset.card_insert_of_notMem hnew]
    · change (m.cells.setIfInBounds (m.place x.1 x.2.target) _)[m.place s t]? = some 0 ↔ _
      rw [hpairs, Finset.mem_insert, Array.getElem?_setIfInBounds]
      by_cases hpair : (s, t) = (x.1, x.2.target)
      · -- the cell of the new pair points to the new labels
        obtain ⟨rfl, rfl⟩ := Prod.mk.inj hpair
        simp [hlt]
      · have hne : m.place x.1 x.2.target ≠ m.place s t := by
          intro heq
          obtain ⟨hsource, htarget⟩ := (place_inj ht ht').mp heq
          exact hpair (Prod.ext hsource.symm htarget.symm)
        rw [if_neg hne, or_iff_right hpair, h.blank_iff s hs' t ht']
  · next k hk =>
    have hold : (x.1, x.2.target) ∈ pairsListed listed := by
      by_contra hnew
      cases hk.symm.trans ((h.blank_iff _ hs _ ht).mpr hnew)
    rw [Finset.insert_eq_of_mem hold] at hpairs
    refine ⟨?_, fun s hs' t ht' => ?_⟩
    · rw [hpairs, Array.size_modify, h.size_labels]
    · rw [hpairs]
      exact h.blank_iff s hs' t ht'

theorem counts_ofList (h : Between n listed) : (ofList n listed).Counts listed := by
  induction listed using List.reverseRecOn with
  | nil => exact counts_blank n
  | append_singleton listed x ih =>
    obtain ⟨h, hx⟩ := between_append.mp h
    obtain ⟨hs, ht⟩ := hx x List.mem_cons_self
    have hwidth := width_ofList h
    rw [ofList_concat]
    exact (ih h).add (sound_ofList h) (by rwa [hwidth]) (by rwa [hwidth])

/-- What a matrix of listed edges between `n` states gives back of them. -/
structure Represents (m : EdgeMatrix) (n : Nat) (listed : List (Nat × Edge)) : Prop where
  labelsAt_place : ∀ s < n, ∀ t < n, m.labelsAt (m.place s t) = labelsListed listed s t
  row_eq : ∀ s < n, m.row s =
    (List.range n).flatMap fun t => (labelsListed listed s t).map (Edge.mk t)
  edgeCount_eq : m.edgeCount = listed.length
  /-- Each cell is a word of 32 bits. -/
  cell_lt : ∀ c ∈ m.cells, c < 2 ^ 32

theorem ofList_represents (h : Between n listed) (hpairs : (pairsListed listed).card < 2 ^ 32) :
    (ofList n listed).Represents n listed where
  labelsAt_place s _ t ht := labelsAt_ofList h s ht
  row_eq s _ := by
    rw [row, width_ofList h]
    exact List.flatMap_congr fun t ht => by rw [labelsAt_ofList h s (List.mem_range.mp ht)]; rfl
  edgeCount_eq := edgeCount_ofList h
  cell_lt c hc := by
    obtain ⟨p, hp⟩ := Array.getElem?_of_mem hc
    cases c with
    | zero => decide
    | succ k =>
      have hk : k < (pairsListed listed).card :=
        (counts_ofList h).size_labels ▸ (sound_ofList h).lt_size hp
      exact Nat.lt_of_le_of_lt hk hpairs

end EdgeMatrix

/-! ## Automata -/

namespace Automaton

variable {rows : List (Nat × List Edge)} {starts finals : StateSet} {classes : Array ByteClass}
  {row : List Edge}

/-- Sorting keeps the order of the edges to one target. -/
theorem filter_target_sortRow :
    (sortRow row).filter (·.target == t) = row.filter (·.target == t) := by
  have hequal : (row.filter (·.target == t)).Pairwise
      fun d e => decide (d.target ≤ e.target) = true := by
    refine List.pairwise_of_forall_mem_list fun d hd e he => decide_eq_true (Nat.le_of_eq ?_)
    rw [beq_iff_eq.mp (List.mem_filter.mp hd).2, beq_iff_eq.mp (List.mem_filter.mp he).2]
  have hsub : (row.filter (·.target == t)).Sublist (sortRow row) :=
    List.sublist_mergeSort target_le_trans target_le_total hequal List.filter_sublist
  have hfilter := hsub.filter (·.target == t)
  simp only [List.filter_filter, Bool.and_self] at hfilter
  refine (hfilter.eq_of_length ?_).symm
  exact ((List.mergeSort_perm row _).filter _).length_eq.symm

/-- The labels that are listed for a pair of states stand in the rows of the first. -/
theorem labelsListed_listedEdges :
    labelsListed (listedEdges rows) s t =
      (((rows.filter (·.1 == s)).flatMap (·.2)).filter (·.target == t)).map (·.label) := by
  induction rows with
  | nil => rfl
  | cons p rows ih =>
    have hcons : labelsListed (listedEdges (p :: rows)) s t =
        labelsListed (p.2.map (p.1, ·)) s t ++ labelsListed (listedEdges rows) s t := by
      rw [listedEdges, List.flatMap_cons, labelsListed, List.filter_append, List.map_append]
      rfl
    rw [hcons, ih, labelsListed, List.filter_map, List.map_map]
    by_cases hp : p.1 = s
    · rw [List.filter_cons_of_pos (by simpa using hp), List.flatMap_cons, List.filter_append,
        List.map_append]
      simp [Function.comp_def, hp, ← beq_eq_decide]
    · rw [List.filter_cons_of_neg (by simpa using hp)]
      simp [Function.comp_def, hp]

/-- **The labels of a pair of states are those that are listed for it**, in the order of the
list. -/
theorem cell_ofEdges (hs : s < n) (t : Nat) :
    (ofEdges n rows starts finals classes).cell s t = labelsListed (listedEdges rows) s t := by
  rw [cell, edges_ofEdges hs, filter_target_sortRow, labelsListed_listedEdges]

/-- **The edges that leave a state are those of its cells**, in ascending order of targets. -/
theorem edges_eq_flatMap_cell {a : Automaton} (htarget : ∀ e ∈ a.edges s, e.target < a.stateCount)
    (hrow : (a.edges s).Pairwise (·.target ≤ ·.target)) :
    a.edges s = (List.range a.stateCount).flatMap fun t => (a.cell s t).map (Edge.mk t) := by
  have hcell : ∀ t, (a.cell s t).map (Edge.mk t) = (a.edges s).filter (·.target = t) := by
    intro t
    simp only [cell, List.map_map, beq_eq_decide]
    have hid : ∀ e ∈ (a.edges s).filter (·.target = t), (Edge.mk t ∘ (·.label)) e = id e := by
      intro e he
      have htarget : e.target = t := of_decide_eq_true (List.mem_filter.mp he).2
      exact htarget ▸ rfl
    rw [List.map_congr_left hid, List.map_id]
  rw [List.flatMap_congr fun t _ => hcell t, flatMap_filter_target hrow]
  exact (List.filter_eq_self.mpr fun e he => decide_eq_true (htarget e he)).symm

/-- Adding listed edges to rows keeps each of them. -/
theorem sum_length_foldl_addRow {lists : Array (List Edge)}
    (h : EdgeMatrix.Between lists.size (listedEdges rows)) :
    ((rows.foldl addRow lists).toList.map List.length).sum =
      (lists.toList.map List.length).sum + (listedEdges rows).length := by
  induction rows generalizing lists with
  | nil => rfl
  | cons p rows ih =>
    rw [listedEdges, List.flatMap_cons] at h
    obtain ⟨hp, hrows⟩ := EdgeMatrix.between_append.mp h
    have hsource : p.2 ≠ [] → p.1 < lists.toList.length := by
      intro hne
      obtain ⟨e, he⟩ := List.exists_mem_of_ne_nil _ hne
      exact (hp _ (List.mem_map_of_mem he)).1
    rw [List.foldl_cons, ih (by rwa [addRow, Array.size_modify]), addRow, Array.toList_modify,
      sum_length_modify hsource, Nat.add_assoc]
    congr 1
    rw [listedEdges, listedEdges, List.flatMap_cons, List.length_append, List.length_map]

/-- **Each listed edge is one edge.** -/
theorem edgeCount_ofEdges (h : EdgeMatrix.Between n (listedEdges rows)) :
    (ofEdges n rows starts finals classes).edgeCount = (listedEdges rows).length := by
  have hsum : ((rows.foldl addRow (Array.replicate n [])).toList.map List.length).sum = _ :=
    sum_length_foldl_addRow (by rwa [Array.size_replicate])
  rw [edgeCount_eq_sum, ofEdges, Array.toList_map, List.map_map]
  have hsort : ∀ row ∈ (rows.foldl addRow (Array.replicate n [])).toList,
      (List.length ∘ sortRow) row = row.length := fun row _ => List.length_mergeSort row
  rw [List.map_congr_left hsort, hsum]
  simp

/-- What an automaton of listed edges between `n` states gives back of them. -/
structure Represents (a : Automaton) (n : Nat) (listed : List (Nat × Edge)) : Prop where
  stateCount_eq : a.stateCount = n
  cell_eq : ∀ s < n, ∀ t < n, a.cell s t = labelsListed listed s t
  edges_eq : ∀ s < n, a.edges s = (List.range n).flatMap fun t => (a.cell s t).map (Edge.mk t)
  edgeCount_eq : a.edgeCount = listed.length

theorem target_lt_of_mem_edges_ofEdges (h : EdgeMatrix.Between n (listedEdges rows)) {e : Edge}
    (he : e ∈ (ofEdges n rows starts finals classes).edges s) : e.target < n := by
  obtain ⟨-, p, hp, -, hep⟩ := mem_edges_ofEdges.mp he
  exact (h (p.1, e) (List.mem_flatMap.mpr ⟨p, hp, List.mem_map_of_mem hep⟩)).2

/-- **Listed edges are represented faithfully**, by the automaton and by the matrix that is filled
while the list is read, and the matrix has the rows of the automaton. -/
theorem ofEdges_represents (n : Nat) (rows : List (Nat × List Edge)) (starts finals : StateSet)
    (classes : Array ByteClass) (h : EdgeMatrix.Between n (listedEdges rows))
    (hpairs : (pairsListed (listedEdges rows)).card < 2 ^ 32) :
    (ofEdges n rows starts finals classes).Represents n (listedEdges rows) ∧
      (EdgeMatrix.ofList n (listedEdges rows)).Represents n (listedEdges rows) ∧
      ∀ s < n, (EdgeMatrix.ofList n (listedEdges rows)).row s =
        (ofEdges n rows starts finals classes).edges s := by
  have hcells : ∀ s < n, (ofEdges n rows starts finals classes).edges s =
      (List.range n).flatMap fun t =>
        ((ofEdges n rows starts finals classes).cell s t).map (Edge.mk t) := by
    intro s _
    have htarget : ∀ e ∈ (ofEdges n rows starts finals classes).edges s,
        e.target < (ofEdges n rows starts finals classes).stateCount := by
      intro e he
      rw [stateCount_ofEdges]
      exact target_lt_of_mem_edges_ofEdges h he
    have hedges := edges_eq_flatMap_cell htarget pairwise_edges_ofEdges
    rwa [stateCount_ofEdges] at hedges
  have hmatrix := EdgeMatrix.ofList_represents h hpairs
  refine ⟨⟨stateCount_ofEdges, fun s hs t _ => cell_ofEdges hs t, hcells, edgeCount_ofEdges h⟩,
    hmatrix, fun s hs => ?_⟩
  rw [hmatrix.row_eq s hs, hcells s hs]
  exact List.flatMap_congr fun t _ => by rw [cell_ofEdges hs]

/-- A state that is listed twice, with the same edge both times. -/
theorem ofEdges_represents_revisited :
    let rows : List (Nat × List Edge) :=
      [(0, [⟨1, .byte 0x61⟩, ⟨1, .byte 0x62⟩]), (1, [⟨1, .byte 0x63⟩]),
        (0, [⟨0, .byte 0x64⟩, ⟨1, .byte 0x61⟩])]
    let a := ofEdges 2 rows (.empty 2) (.empty 2) #[]
    EdgeMatrix.Between 2 (listedEdges rows) ∧ (pairsListed (listedEdges rows)).card < 2 ^ 32 ∧
      a.edges 0 = [⟨0, .byte 0x64⟩, ⟨1, .byte 0x61⟩, ⟨1, .byte 0x62⟩, ⟨1, .byte 0x61⟩] ∧
      a.cell 0 1 = [.byte 0x61, .byte 0x62, .byte 0x61] ∧ a.edgeCount = 5 := by
  intro rows a
  have h : EdgeMatrix.Between 2 (listedEdges rows) := by
    unfold EdgeMatrix.Between
    decide
  have hpairs : (pairsListed (listedEdges rows)).card < 2 ^ 32 := by decide
  obtain ⟨ha, hm, hrow⟩ := ofEdges_represents 2 rows (.empty 2) (.empty 2) #[] h hpairs
  refine ⟨h, hpairs, ?_, ?_, ha.edgeCount_eq⟩
  · rw [← hrow 0 (by decide), hm.row_eq 0 (by decide)]
    decide
  · rw [ha.cell_eq 0 (by decide) 1 (by decide)]
    decide

end Automaton

end ByteRegex
