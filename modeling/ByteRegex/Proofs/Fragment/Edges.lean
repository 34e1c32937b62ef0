import ByteRegex.Nfa.Fragment
import Mathlib.Tactic.Common

/-!
# The edges of a fragment

For each operation on fragments: how many states the result has, and which edges leave each of
its states. The operands have their start and accepting states in range. After this module no
proof looks at the arrays of states again.

The states of the right operand of a concatenation are renamed by `behind`, which is injective
(`behind_inj`) and puts nothing but the right start into the left operand (`lt_size_of_behind`).
-/

namespace ByteRegex.Fragment

variable {f l r : Fragment} {s q : Nat} {e : Edge}

theorem lt_size_of_mem_edges (h : e ∈ f.edges s) : s < f.size := by
  refine Decidable.byContradiction fun hs => ?_
  rw [edges, Array.getElem?_eq_none (Nat.le_of_not_lt hs)] at h
  simp at h

/-! ## Surgery -/

theorem mem_getElem?_addEdge {states : Array (List Edge)} {source target : Nat} {label : Label}
    (hs : source < states.size) :
    e ∈ (addEdge states source label target)[s]?.getD []
      ↔ e ∈ states[s]?.getD [] ∨ s = source ∧ e = ⟨target, label⟩ := by
  rw [addEdge, Array.getElem?_modify]
  by_cases h : source = s
  · subst h
    rw [if_pos rfl, Array.getElem?_eq_getElem hs]
    simp
  · rw [if_neg h]
    simp [Ne.symm h]

theorem mem_getElem?_renameTargets {states : Array (List Edge)} {rename : Nat → Nat} :
    e ∈ (renameTargets rename states)[s]?.getD []
      ↔ ∃ d ∈ states[s]?.getD [], d.retarget rename = e := by
  rw [renameTargets, Array.getElem?_map]
  cases states[s]? <;> simp

/-- A new start with its edges and a new accepting state without edges. -/
theorem mem_getElem?_append_ends {states : Array (List Edge)} {row : List Edge} :
    e ∈ (states ++ #[row, []])[s]?.getD [] ↔
      e ∈ states[s]?.getD [] ∨ s = states.size ∧ e ∈ row := by
  rw [Array.getElem?_append]
  by_cases h : s < states.size
  · rw [if_pos h]
    simp [Nat.ne_of_lt h]
  · rw [if_neg h, Array.getElem?_eq_none (Nat.le_of_not_lt h)]
    obtain ⟨i, rfl⟩ := Nat.exists_eq_add_of_le (Nat.le_of_not_lt h)
    match i with
    | 0 => simp
    | 1 => simp
    | i + 2 => simp

theorem getElem?_eraseIdxIfInBounds {states : Array (List Edge)} {i : Nat} :
    (states.eraseIdxIfInBounds i)[s]? = if s < i then states[s]? else states[s + 1]? := by
  rw [← Array.getElem?_toList, Array.toList_eraseIdxIfInBounds, List.getElem?_eraseIdx,
    Array.getElem?_toList, Array.getElem?_toList]

@[simp] theorem size_addEdge (states : Array (List Edge)) (source target : Nat) (label : Label) :
    (addEdge states source label target).size = states.size := Array.size_modify ..

@[simp] theorem size_renameTargets (rename : Nat → Nat) (states : Array (List Edge)) :
    (renameTargets rename states).size = states.size := Array.size_map ..

/-! ## One edge -/

theorem mem_edges_leaf {label : Label} :
    e ∈ (leaf label).edges s ↔ s = 0 ∧ e = ⟨1, label⟩ := by
  match s with
  | 0 => simp [leaf, edges]
  | 1 => simp [leaf, edges]
  | s + 2 => simp [leaf, edges]

/-! ## Concatenation -/

@[simp] theorem behind_start : behind l r r.start = l.accept := by simp [behind]

theorem lt_size_of_behind (h : behind l r q < l.size) : q = r.start := by
  unfold behind at h
  split at h
  · omega
  · split at h
    · assumption
    · omega

theorem behind_inj (hl : l.accept < l.size) {p : Nat} (h : behind l r p = behind l r q) :
    p = q := by
  unfold behind at h
  split at h <;> split at h <;> (try split at h) <;> (try split at h) <;> omega

theorem behind_lt (hl : l.accept < l.size) (hr : r.start < r.size) (hq : q < r.size) :
    behind l r q < l.size + r.size - 1 := by
  unfold behind
  split
  · omega
  · split <;> omega

theorem size_concat (hr : r.start < r.size) : (l.concat r).size = l.size + r.size - 1 := by
  have h : ((renameTargets (behind l r) r.states).eraseIdxIfInBounds r.start).size
      = r.size - 1 := by
    rw [Array.eraseIdxIfInBounds_eq, dif_pos (by rw [size_renameTargets]; exact hr),
      Array.size_eraseIdx, size_renameTargets]
    rfl
  have hpos : 0 < r.size := Nat.zero_lt_of_lt hr
  show (_ ++ _ : Array (List Edge)).size = _
  rw [Array.size_append, Array.size_setIfInBounds, h]
  show l.size + (r.size - 1) = _
  omega

/-- The accepting state of the left operand has the edges of the right start in place of its own;
all other states keep theirs. -/
theorem mem_edges_concat (hl : l.accept < l.size) :
    e ∈ (l.concat r).edges s ↔ (s ≠ l.accept ∧ e ∈ l.edges s)
      ∨ ∃ q, ∃ d ∈ r.edges q, s = behind l r q ∧ d.retarget (behind l r) = e := by
  have hright : ∀ {q}, (∃ d ∈ r.edges q, d.retarget (behind l r) = e)
      ↔ e ∈ (renameTargets (behind l r) r.states)[q]?.getD [] :=
    mem_getElem?_renameTargets.symm
  show e ∈ (_ ++ _ : Array (List Edge))[s]?.getD [] ↔ _
  rw [Array.getElem?_append, Array.size_setIfInBounds]
  by_cases hs : s < l.states.size
  · rw [if_pos hs, Array.getElem?_setIfInBounds]
    by_cases ha : l.accept = s
    · rw [if_pos ha, if_pos (ha ▸ hs), Option.getD_some, ← hright]
      constructor
      · rintro ⟨d, hd, rfl⟩
        exact .inr ⟨r.start, d, hd, by rw [behind_start, ha], rfl⟩
      · rintro (⟨hne, -⟩ | ⟨q, d, hd, hq, rfl⟩)
        · exact absurd ha.symm hne
        · have : q = r.start := lt_size_of_behind (hq ▸ hs)
          exact ⟨d, this ▸ hd, rfl⟩
    · rw [if_neg ha]
      constructor
      · exact fun h => .inl ⟨Ne.symm ha, h⟩
      · rintro (⟨-, h⟩ | ⟨q, d, hd, hq, rfl⟩)
        · exact h
        · have : q = r.start := lt_size_of_behind (hq ▸ hs)
          rw [hq, this, behind_start] at ha
          exact absurd rfl ha
  · rw [if_neg hs, getElem?_eraseIdxIfInBounds]
    have hnone : e ∉ l.edges s := fun h => hs (lt_size_of_mem_edges h)
    have hsize : l.size ≤ s := Nat.le_of_not_lt hs
    -- the states behind the right start have moved up by one
    have hname : ∀ {q}, s = behind l r q ↔ q = if s - l.size < r.start then s - l.size
        else s - l.size + 1 := by
      intro q
      unfold behind
      split <;> split <;> (try split) <;> omega
    rw [← apply_ite (fun i => (renameTargets (behind l r) r.states)[i]?), ← hright]
    constructor
    · rintro ⟨d, hd, rfl⟩
      exact .inr ⟨_, d, hd, hname.mpr rfl, rfl⟩
    · rintro (⟨-, h⟩ | ⟨q, d, hd, hq, rfl⟩)
      · exact absurd h hnone
      · rw [hname.mp hq] at hd
        exact ⟨d, hd, rfl⟩

/-! ## Alternatives -/

@[simp] theorem size_union : (l.union r).size = l.size + r.size + 2 := by
  simp [union, size]

theorem mem_edges_union (hl : l.accept < l.size) (hr : r.accept < r.size) :
    e ∈ (l.union r).edges s ↔ e ∈ l.edges s
      ∨ (∃ q, ∃ d ∈ r.edges q, s = q + l.size ∧ d.retarget (· + l.size) = e)
      ∨ (s = l.accept ∨ s = r.accept + l.size) ∧ e = ⟨(l.union r).accept, .epsilon⟩
      ∨ s = (l.union r).start ∧ (e = ⟨l.start, .epsilon⟩ ∨ e = ⟨r.start + l.size, .epsilon⟩) := by
  have hjoined : ∀ {i : Nat}, e ∈ (l.states ++ renameTargets (· + l.size) r.states)[i]?.getD []
      ↔ e ∈ l.edges i ∨ ∃ q, ∃ d ∈ r.edges q, i = q + l.size ∧ d.retarget (· + l.size) = e := by
    intro i
    rw [Array.getElem?_append]
    by_cases hi : i < l.states.size
    · rw [if_pos hi]
      refine ⟨.inl, ?_⟩
      rintro (h | ⟨q, d, hd, rfl, -⟩)
      · exact h
      · exact absurd hi (Nat.not_lt.mpr (Nat.le_add_left ..))
    · rw [if_neg hi, mem_getElem?_renameTargets]
      constructor
      · rintro ⟨d, hd, h⟩
        exact .inr ⟨i - l.size, d, hd, (Nat.sub_add_cancel (Nat.le_of_not_lt hi)).symm, h⟩
      · rintro (h | ⟨q, d, hd, rfl, h⟩)
        · exact absurd (lt_size_of_mem_edges h) hi
        · refine ⟨d, ?_, h⟩
          rwa [show q + l.size - l.states.size = q from Nat.add_sub_cancel ..]
  show e ∈ (addEdge (addEdge (_ ++ _) ..) .. ++ _ : Array (List Edge))[s]?.getD [] ↔ _
  have hsize : (l.states ++ renameTargets (· + l.size) r.states).size = l.size + r.size := by
    rw [Array.size_append, size_renameTargets]; rfl
  rw [mem_getElem?_append_ends, mem_getElem?_addEdge (by rw [size_addEdge, hsize]; omega),
    mem_getElem?_addEdge (by rw [hsize]; omega), hjoined, size_addEdge, size_addEdge, hsize]
  show _ ↔ _ ∨ _ ∨ _ ∧ e = ⟨l.size + r.size + 1, _⟩ ∨ s = l.size + r.size ∧ _
  rw [List.mem_cons, List.mem_singleton, or_and_right]
  simp only [or_assoc]

@[simp] theorem size_fastUnion : (l.fastUnion r).size = l.size := by
  simp [fastUnion, size]

theorem mem_edges_fastUnion (hl : l.start < l.size) :
    e ∈ (l.fastUnion r).edges s ↔ e ∈ l.edges s
      ∨ s = l.start ∧ ∃ d ∈ r.edges r.start, e = ⟨l.accept, d.label⟩ := by
  show e ∈ (l.states.modify ..)[s]?.getD [] ↔ e ∈ l.states[s]?.getD [] ∨ _
  rw [Array.getElem?_modify]
  by_cases h : l.start = s
  · subst h
    rw [if_pos rfl, Array.getElem?_eq_getElem hl]
    simp [eq_comm]
  · rw [if_neg h]
    simp [Ne.symm h]

/-! ## Repetition -/

@[simp] theorem size_star : f.star.size = f.size + 2 := by
  simp [star, size]

theorem mem_edges_star (hf : f.accept < f.size) :
    e ∈ f.star.edges s ↔ e ∈ f.edges s
      ∨ (s = f.accept ∨ s = f.star.start)
        ∧ (e = ⟨f.start, .epsilon⟩ ∨ e = ⟨f.star.accept, .epsilon⟩) := by
  show e ∈ (addEdge (addEdge f.states ..) .. ++ _ : Array (List Edge))[s]?.getD [] ↔ _
  rw [mem_getElem?_append_ends, mem_getElem?_addEdge (by rw [size_addEdge]; exact hf),
    mem_getElem?_addEdge hf, size_addEdge, size_addEdge]
  show _ ↔ _ ∨ (_ ∨ s = f.states.size) ∧ (_ ∨ e = ⟨f.states.size + 1, _⟩)
  rw [List.mem_cons, List.mem_singleton, or_and_right]
  simp only [or_assoc, and_or_left]
  rfl

@[simp] theorem size_opt : f.opt.size = f.size := size_addEdge ..

theorem mem_edges_opt (hf : f.start < f.size) :
    e ∈ f.opt.edges s ↔ e ∈ f.edges s ∨ s = f.start ∧ e = ⟨f.accept, .epsilon⟩ :=
  mem_getElem?_addEdge hf

end ByteRegex.Fragment
