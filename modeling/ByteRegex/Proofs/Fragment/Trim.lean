import ByteRegex.Proofs.Fragment.Language

/-!
# No state of a fragment is idle

Every state of a fragment that the operations build lies on a path from the start to the accepting
state (`Fragment.Built.trim`). The paths to and from a state of an operand are paths of the result,
and new edges extend them to its ends.
-/

namespace ByteRegex.Fragment

/-- Every state is reached from the start, and can reach the accepting state. -/
structure Trim (f : Fragment) : Prop where
  reached : ∀ {s}, s < f.size → ∃ w, f.Reads w s
  finishes : ∀ {s}, s < f.size → ∃ w, Spells f.edges s w f.accept

variable {f l r : Fragment} {s : Nat}

/-- A state that is none of the left operand is one of the right operand. -/
theorem exists_behind (hr : r.start < r.size) (hs : l.size ≤ s) (hlt : s < l.size + r.size - 1) :
    ∃ q < r.size, behind l r q = s := by
  by_cases h : s - l.size < r.start
  · refine ⟨s - l.size, by omega, ?_⟩
    rw [behind, if_pos h]
    omega
  · refine ⟨s - l.size + 1, by omega, ?_⟩
    rw [behind, if_neg (by omega), if_neg (by omega)]
    omega

/-! ## Operations -/

namespace Trim

theorem leaf (label : Label) : (leaf label).Trim := by
  have hedge : (⟨1, label⟩ : Edge) ∈ (Fragment.leaf label).edges 0 := mem_edges_leaf.mpr ⟨rfl, rfl⟩
  have hall : Spells (Fragment.leaf label).edges 0 ([] ++ dropEpsilons [label]) 1 :=
    Spells.refl.step hedge
  constructor
  · intro s hs
    match s, hs with
    | 0, _ => exact ⟨_, .refl⟩
    | 1, _ => exact ⟨_, hall⟩
  · intro s hs
    match s, hs with
    | 0, _ => exact ⟨_, hall⟩
    | 1, _ => exact ⟨_, .refl⟩

theorem concat (hl : l.WellFormed) (hr : r.WellFormed) (htl : l.Trim) (htr : r.Trim) :
    (l.concat r).Trim := by
  have hcases : ∀ s < (l.concat r).size, s < l.size ∨ ∃ q < r.size, behind l r q = s := by
    intro s hs
    rw [size_concat hr.start_lt] at hs
    by_cases hsl : s < l.size
    · exact .inl hsl
    · exact .inr (exists_behind hr.start_lt (Nat.le_of_not_lt hsl) hs)
  constructor
  · intro s hs
    rcases hcases s hs with hsl | ⟨q, hq, rfl⟩
    · obtain ⟨w, hw⟩ := htl.reached hsl
      exact ⟨w, spells_concat_left hl hw⟩
    · obtain ⟨x, hx⟩ := htl.reached hl.accept_lt
      obtain ⟨w, hw⟩ := htr.reached hq
      exact ⟨_, reads_concat_of_reads hl hx hw⟩
  · intro s hs
    rcases hcases s hs with hsl | ⟨q, hq, rfl⟩
    · obtain ⟨w, hw⟩ := htl.finishes hsl
      obtain ⟨y, hy⟩ := htr.finishes hr.start_lt
      have hy := spells_concat_right hl hy
      rw [behind_start] at hy
      exact ⟨_, (spells_concat_left hl hw).trans hy⟩
    · obtain ⟨w, hw⟩ := htr.finishes hq
      exact ⟨w, spells_concat_right hl hw⟩

theorem union (hl : l.WellFormed) (hr : r.WellFormed) (htl : l.Trim) (htr : r.Trim) :
    (l.union r).Trim := by
  obtain ⟨x, hx⟩ := htl.reached hl.accept_lt
  have hall := spells_union_accept hl hr (reads_union_left hl hr hx) (.inl rfl)
  -- a state of the left operand, of the right one, or one of the new ends
  have hcases : ∀ s < (l.union r).size, s < l.size ∨ (∃ q < r.size, q + l.size = s) ∨
      s = (l.union r).start ∨ s = (l.union r).accept := by
    intro s hs
    rw [size_union] at hs
    show _ ∨ _ ∨ s = l.size + r.size ∨ s = l.size + r.size + 1
    by_cases hsl : s < l.size
    · exact .inl hsl
    · by_cases hsr : s < l.size + r.size
      · exact .inr (.inl ⟨s - l.size, by omega, by omega⟩)
      · omega
  constructor
  · intro s hs
    rcases hcases s hs with hsl | ⟨q, hq, rfl⟩ | rfl | rfl
    · exact (htl.reached hsl).imp fun _ => reads_union_left hl hr
    · exact (htr.reached hq).imp fun _ => reads_union_right hl hr
    · exact ⟨_, .refl⟩
    · exact ⟨_, hall⟩
  · intro s hs
    rcases hcases s hs with hsl | ⟨q, hq, rfl⟩ | rfl | rfl
    · obtain ⟨w, hw⟩ := htl.finishes hsl
      exact ⟨w, spells_union_accept hl hr (spells_union_left hl hr hw) (.inl rfl)⟩
    · obtain ⟨w, hw⟩ := htr.finishes hq
      exact ⟨w, spells_union_accept hl hr (spells_union_right hl hr hw) (.inr rfl)⟩
    · exact ⟨_, hall⟩
    · exact ⟨_, .refl⟩

theorem star (hf : f.WellFormed) (ht : f.Trim) : f.star.Trim := by
  have hall := spells_star_accept hf .refl (.inr rfl)
  have hcases : ∀ s < f.star.size, s < f.size ∨ s = f.star.start ∨ s = f.star.accept := by
    intro s hs
    rw [size_star] at hs
    show _ ∨ s = f.size ∨ s = f.size + 1
    omega
  constructor
  · intro s hs
    rcases hcases s hs with hsf | rfl | rfl
    · exact (ht.reached hsf).imp fun _ => reads_star_of_reads hf
    · exact ⟨_, .refl⟩
    · exact ⟨_, hall⟩
  · intro s hs
    rcases hcases s hs with hsf | rfl | rfl
    · obtain ⟨w, hw⟩ := ht.finishes hsf
      exact ⟨w, spells_star_accept hf (spells_star hf hw) (.inl rfl)⟩
    · exact ⟨_, hall⟩
    · exact ⟨_, .refl⟩

theorem opt (hf : f.WellFormed) (ht : f.Trim) : f.opt.Trim where
  reached hs := (ht.reached (size_opt ▸ hs)).imp fun _ => spells_opt hf
  finishes hs := (ht.finishes (size_opt ▸ hs)).imp fun _ => spells_opt hf

theorem fastUnion (hl : l.WellFormed) (ht : l.Trim) : (l.fastUnion r).Trim where
  reached hs :=
    (ht.reached (size_fastUnion (l := l) (r := r) ▸ hs)).imp fun _ => spells_fastUnion hl
  finishes hs :=
    (ht.finishes (size_fastUnion (l := l) (r := r) ▸ hs)).imp fun _ => spells_fastUnion hl

end Trim

/-- **No state of a fragment that the operations build is idle.** -/
theorem Built.trim (h : f.Built) : f.Trim := by
  induction h with
  | leaf label => exact .leaf label
  | epsilon => exact .leaf .epsilon
  | concat hl hr htl htr => exact htl.concat hl.wellFormed hr.wellFormed htr
  | union hl hr htl htr => exact htl.union hl.wellFormed hr.wellFormed htr
  | fastUnion hl _ _ htl _ => exact htl.fastUnion hl.wellFormed
  | star hf ht => exact ht.star hf.wellFormed
  | opt hf ht => exact ht.opt hf.wellFormed
  | plus hf ht => exact ht.concat hf.wellFormed hf.wellFormed.star (ht.star hf.wellFormed)

end ByteRegex.Fragment
