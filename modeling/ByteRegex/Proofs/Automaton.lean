import ByteRegex.Automaton
import ByteRegex.Proofs.Path
import Mathlib.Algebra.Order.BigOperators.Group.List
import Mathlib.Algebra.Order.Ring.Nat

/-!
# The language of an automaton

The words that an automaton accepts are those on its paths from a start to a final, epsilons
included. Listing edges row by row keeps every listed edge (`mem_edges_ofEdges`), in whichever
order the rows are listed.
-/

namespace ByteRegex.Automaton

/-- Edges lead to states, and starts are states. -/
structure InRange (a : Automaton) : Prop where
  target_lt : ∀ {s e}, e ∈ a.edges s → e.target < a.stateCount
  start_lt : ∀ {s}, a.isStart s = true → s < a.stateCount

/-- The words on paths from a start to a final. -/
def language (a : Automaton) : Language Label :=
  {w | ∃ s t, a.isStart s = true ∧ a.isFinal t = true ∧ Path a.edges s w t}

variable {a : Automaton} {n s : Nat} {listed : List (Nat × List Edge)} {starts finals : StateSet}
variable {classes : Array ByteClass} {rows : Array (List Edge)} {e : Edge}

theorem lt_stateCount_of_mem_edges (he : e ∈ a.edges s) : s < a.stateCount := by
  unfold edges at he
  refine Nat.lt_of_not_le fun h => ?_
  rw [Array.getElem?_eq_none h] at he
  cases he

theorem edgeCount_eq_sum : a.edgeCount = (a.rows.toList.map List.length).sum := by
  rw [edgeCount, ← Array.foldl_toList, ← List.foldl_map, ← List.sum_eq_foldl]

/-- No row is longer than all rows together. -/
theorem length_edges_le : (a.edges s).length ≤ a.edgeCount := by
  unfold edges
  cases hrow : a.rows[s]? with
  | none => exact Nat.zero_le _
  | some row =>
    rw [edgeCount_eq_sum]
    exact List.le_sum_of_mem
      (List.mem_map_of_mem (Array.mem_toList_iff.mpr (Array.mem_of_getElem? hrow)))

theorem size_foldl_addRow : (listed.foldl addRow rows).size = rows.size := by
  induction listed generalizing rows with
  | nil => rfl
  | cons p listed ih => rw [List.foldl_cons, ih, addRow, Array.size_modify]

theorem getElem?_foldl_addRow (hs : s < rows.size) :
    (listed.foldl addRow rows)[s]?.getD [] =
      rows[s]?.getD [] ++ (listed.filter (·.1 == s)).flatMap (·.2) := by
  induction listed generalizing rows with
  | nil => simp
  | cons p listed ih =>
    have hrow : (addRow rows p)[s]?.getD [] = rows[s]?.getD [] ++ if p.1 = s then p.2 else [] := by
      rw [addRow, Array.getElem?_modify, Array.getElem?_eq_getElem hs]
      split <;> simp
    rw [List.foldl_cons, ih (by rwa [addRow, Array.size_modify]), hrow, List.append_assoc]
    by_cases hp : p.1 = s <;> simp [hp]

@[simp] theorem stateCount_ofEdges : (ofEdges n listed starts finals classes).stateCount = n := by
  unfold stateCount ofEdges
  rw [Array.size_map, size_foldl_addRow, Array.size_replicate]

/-- A row holds what is listed for its state, sorted. -/
theorem edges_ofEdges (hs : s < n) :
    (ofEdges n listed starts finals classes).edges s =
      sortRow ((listed.filter (·.1 == s)).flatMap (·.2)) := by
  have hrow : (listed.foldl addRow (Array.replicate n []))[s]?.getD [] = _ :=
    getElem?_foldl_addRow (by rwa [Array.size_replicate])
  have hlt : s < (listed.foldl addRow (Array.replicate n [])).size := by
    rwa [size_foldl_addRow, Array.size_replicate]
  rw [Array.getElem?_replicate, if_pos hs, Option.getD_some, List.nil_append,
    Array.getElem?_eq_getElem hlt, Option.getD_some] at hrow
  rw [edges, ofEdges, Array.getElem?_map, Array.getElem?_eq_getElem hlt, Option.map_some,
    Option.getD_some, hrow]

theorem mem_sortRow {row : List Edge} : e ∈ sortRow row ↔ e ∈ row :=
  (List.mergeSort_perm _ _).mem_iff

theorem mem_edges_ofEdges :
    e ∈ (ofEdges n listed starts finals classes).edges s ↔
      s < n ∧ ∃ p ∈ listed, p.1 = s ∧ e ∈ p.2 := by
  by_cases hs : s < n
  · rw [edges_ofEdges hs, mem_sortRow]
    simp only [List.mem_flatMap, List.mem_filter, beq_iff_eq, and_assoc, hs, true_and]
  · refine iff_of_false (fun he => hs ?_) fun h => hs h.1
    have := lt_stateCount_of_mem_edges he
    rwa [stateCount_ofEdges] at this

end ByteRegex.Automaton
