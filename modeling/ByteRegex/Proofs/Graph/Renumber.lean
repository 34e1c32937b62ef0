import ByteRegex.Proofs.Graph.Basic

/-!
# Renumbering keeps the language

A state that is dropped has no edges and is not both a start and a final, so no accepting path
goes through it. The others keep their edges, under the numbers that `numbering` gives them; the
state with the number `i` was the one at place `i` of `keptStates`.
-/

namespace ByteRegex.Graph

variable {g : Graph} {kept : List Nat} {numbers : Array (Option Nat)} {s t i j n : Nat} {e : Edge}
variable {w : List Label}

/-! ## States that stay -/

theorem mem_keptStates :
    s ∈ g.keptStates ↔ s < g.size ∧ ((∃ q, q ≠ s ∧ ∃ e ∈ g.edgesOf q, e.target = s) ∨
      g.edgesOf s ≠ [] ∨ g.starts.contains s = true ∧ g.finals.contains s = true) := by
  unfold keptStates keeps
  rw [List.mem_filter, List.mem_range]
  refine and_congr_right fun hs => ?_
  rw [Bool.or_eq_true, Bool.or_eq_true, Bool.and_eq_true, entered_iff hs, or_assoc,
    Bool.not_eq_true', List.isEmpty_eq_false_iff]

theorem nodup_keptStates (g : Graph) : g.keptStates.Nodup := List.nodup_range.filter _

/-! ## Numbers -/

theorem foldl_zipIdx_iff (hk : kept.Nodup) (hlt : ∀ s ∈ kept, s < numbers.size) :
    ((kept.zipIdx n).foldl (fun numbers p => numbers.setIfInBounds p.1 (some p.2)) numbers)[t]?.join
        = some j ↔
      (∃ i, kept[i]? = some t ∧ j = n + i) ∨ t ∉ kept ∧ numbers[t]?.join = some j := by
  induction kept generalizing numbers n with
  | nil => simp
  | cons s kept ih =>
    obtain ⟨hs, hk⟩ := List.nodup_cons.mp hk
    have hsize := hlt s List.mem_cons_self
    rw [List.zipIdx_cons, List.foldl_cons, ih hk fun q hq => by
      rw [Array.size_setIfInBounds]
      exact hlt q (List.mem_cons_of_mem s hq)]
    by_cases hst : s = t
    · -- the state occurs once, so what follows does not overwrite its number
      subst hst
      rw [Array.getElem?_setIfInBounds_self_of_lt hsize, Option.join_some, Option.some_inj]
      constructor
      · rintro (⟨i, hi, -⟩ | ⟨-, rfl⟩)
        · exact absurd (List.mem_of_getElem? hi) hs
        · exact .inl ⟨0, rfl, rfl⟩
      · rintro (⟨i, hi, rfl⟩ | ⟨h, -⟩)
        · cases i with
          | zero => exact .inr ⟨hs, rfl⟩
          | succ i => exact absurd (List.mem_of_getElem? (show kept[i]? = some s from hi)) hs
        · exact absurd List.mem_cons_self h
    · rw [Array.getElem?_setIfInBounds_ne hst]
      constructor
      · rintro (⟨i, hi, rfl⟩ | ⟨ht, h⟩)
        · exact .inl ⟨i + 1, hi, by omega⟩
        · exact .inr ⟨fun h => (List.mem_cons.mp h).elim (fun h => hst h.symm) ht, h⟩
      · rintro (⟨i, hi, rfl⟩ | ⟨ht, h⟩)
        · cases i with
          | zero => exact absurd (Option.some.inj hi) hst
          | succ i => exact .inl ⟨i, hi, by omega⟩
        · exact .inr ⟨fun h => ht (List.mem_cons_of_mem s h), h⟩

theorem numbering_iff (hk : kept.Nodup) (hlt : ∀ s ∈ kept, s < n) :
    (numbering n kept)[t]?.join = some j ↔ kept[j]? = some t := by
  unfold numbering
  rw [foldl_zipIdx_iff hk (by simpa using hlt)]
  constructor
  · rintro (⟨i, hi, rfl⟩ | ⟨-, h⟩)
    · rwa [Nat.zero_add]
    · rw [Array.getElem?_replicate] at h
      split at h <;> cases h
  · exact fun h => .inl ⟨j, h, (Nat.zero_add j).symm⟩

theorem contains_renumberSet {S : StateSet} :
    (renumberSet kept S).contains i = true ↔ ∃ s, kept[i]? = some s ∧ S.contains s = true := by
  unfold renumberSet
  rw [StateSet.contains_ofList]
  · simp only [List.mem_map, List.mem_filter, Prod.exists, List.mem_zipIdx_iff_getElem?]
    constructor
    · rintro ⟨s, _, ⟨hs, h⟩, rfl⟩
      exact ⟨s, hs, h⟩
    · rintro ⟨s, hs, h⟩
      exact ⟨s, i, ⟨hs, h⟩, rfl⟩
  · intro q hq
    simp only [List.mem_map, List.mem_filter, Prod.exists, List.mem_zipIdx_iff_getElem?] at hq
    obtain ⟨s, _, ⟨hs, -⟩, rfl⟩ := hq
    exact (List.getElem?_eq_some_iff.mp hs).1

/-! ## The renumbered graph -/

theorem size_renumber (g : Graph) : g.renumber.size = g.keptStates.length := by
  unfold renumber size
  rw [List.size_toArray, List.length_map]

theorem size_renumber_le (g : Graph) : g.renumber.size ≤ g.size := by
  rw [size_renumber, ← List.length_range (n := g.size)]
  exact List.length_filter_le _ _

/-- The edges of the renumbered graph are those between the states that stay. -/
theorem mem_edgesOf_renumber :
    e ∈ g.renumber.edgesOf i ↔ ∃ s d, g.keptStates[i]? = some s ∧ d ∈ g.edgesOf s ∧
      g.keptStates[e.target]? = some d.target ∧ e.label = d.label := by
  have hlt : ∀ s ∈ g.keptStates, s < g.size := fun s hs => (mem_keptStates.mp hs).1
  unfold renumber edgesOf
  simp only [List.getElem?_toArray, List.getElem?_map]
  cases hi : g.keptStates[i]? with
  | none => simp
  | some s =>
    simp only [Option.map_some, Option.getD_some, SortedSet.mem_ofList, List.mem_filterMap,
      renumberEdge, Option.map_eq_some_iff, numbering_iff (nodup_keptStates g) hlt]
    constructor
    · rintro ⟨d, hd, j, hj, rfl⟩
      exact ⟨s, d, rfl, hd, hj, rfl⟩
    · rintro ⟨q, d, hq, hd, hj, hl⟩
      obtain rfl := Option.some.inj hq
      exact ⟨d, hd, e.target, hj, by rw [← hl]⟩

theorem contains_starts_renumber :
    g.renumber.starts.contains i = true ↔
      ∃ s, g.keptStates[i]? = some s ∧ g.starts.contains s = true := contains_renumberSet

theorem contains_finals_renumber :
    g.renumber.finals.contains i = true ↔
      ∃ s, g.keptStates[i]? = some s ∧ g.finals.contains s = true := contains_renumberSet

theorem inRange_renumber (g : Graph) : g.renumber.InRange where
  target_lt he := by
    obtain ⟨s, d, -, -, ht, -⟩ := mem_edgesOf_renumber.mp he
    rw [size_renumber]
    exact (List.getElem?_eq_some_iff.mp ht).1
  start_lt hs := by
    obtain ⟨s, hs, -⟩ := contains_starts_renumber.mp hs
    rw [size_renumber]
    exact (List.getElem?_eq_some_iff.mp hs).1
  final_lt hs := by
    obtain ⟨s, hs, -⟩ := contains_finals_renumber.mp hs
    rw [size_renumber]
    exact (List.getElem?_eq_some_iff.mp hs).1

/-- A path between states that stay can be renumbered, since an edge enters a state that stays. -/
theorem spells_renumber (hg : g.InRange) (h : Spells g.edgesOf s w t)
    (hi : g.keptStates[i]? = some s) :
    ∃ j, g.keptStates[j]? = some t ∧ Spells g.renumber.edgesOf i w j := by
  refine h.invariant (P := fun w t => ∃ j, g.keptStates[j]? = some t ∧
    Spells g.renumber.edgesOf i w j) ⟨i, hi, .refl⟩ ?_
  rintro w t e ⟨j, hj, hw⟩ he
  have hmem : e.target ∈ g.keptStates := by
    -- a loop does not count as entering, but its state stays anyway
    by_cases het : e.target = t
    · rw [het]
      exact List.mem_of_getElem? hj
    · exact mem_keptStates.mpr ⟨hg.target_lt he, .inl ⟨t, Ne.symm het, e, he, rfl⟩⟩
  obtain ⟨k, hk⟩ := List.mem_iff_getElem?.mp hmem
  have hedge : (⟨k, e.label⟩ : Edge) ∈ g.renumber.edgesOf j :=
    mem_edgesOf_renumber.mpr ⟨t, e, hj, he, hk, rfl⟩
  exact ⟨k, hk, hw.step hedge⟩

theorem spells_of_renumber (h : Spells g.renumber.edgesOf i w j) (hi : g.keptStates[i]? = some s) :
    ∃ t, g.keptStates[j]? = some t ∧ Spells g.edgesOf s w t := by
  refine h.invariant (P := fun w j => ∃ t, g.keptStates[j]? = some t ∧ Spells g.edgesOf s w t)
    ⟨s, hi, .refl⟩ ?_
  rintro w j e ⟨t, hj, hw⟩ he
  obtain ⟨q, d, hq, hd, hk, hl⟩ := mem_edgesOf_renumber.mp he
  obtain rfl := Option.some.inj (hj.symm.trans hq)
  exact ⟨d.target, hk, hl ▸ hw.step hd⟩

/-- **Renumbering keeps the language.** -/
theorem language_renumber (hg : g.InRange) : g.renumber.language = g.language := by
  ext w
  constructor
  · rintro ⟨i, j, hi, hj, hw⟩
    obtain ⟨s, his, hs⟩ := contains_starts_renumber.mp hi
    obtain ⟨t, hjt, ht⟩ := contains_finals_renumber.mp hj
    obtain ⟨t', hjt', hw⟩ := spells_of_renumber hw his
    obtain rfl := Option.some.inj (hjt.symm.trans hjt')
    exact ⟨s, t, hs, ht, hw⟩
  · rintro ⟨s, t, hs, ht, hw⟩
    have hmem : s ∈ g.keptStates := by
      refine mem_keptStates.mpr ⟨hg.start_lt hs, .inr ?_⟩
      by_cases hnil : g.edgesOf s = []
      · -- the path has no edges
        have hst : t = s := by
          refine hw.invariant (P := fun _ t => t = s) rfl ?_
          rintro w _ e rfl he
          rw [hnil] at he
          cases he
        exact .inr ⟨hs, hst ▸ ht⟩
      · exact .inl hnil
    obtain ⟨i, hi⟩ := List.mem_iff_getElem?.mp hmem
    obtain ⟨j, hj, hw⟩ := spells_renumber hg hw hi
    exact ⟨i, j, contains_starts_renumber.mpr ⟨s, hi, hs⟩,
      contains_finals_renumber.mpr ⟨t, hj, ht⟩, hw⟩

end ByteRegex.Graph
