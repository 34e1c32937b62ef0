import ByteRegex.Proofs.Fragment.Live

/-!
# Fragments that do the same with less

A fragment refines another one if it has the same words, and neither more states nor more live
states however it is used (`Fragment.Refines`). All operations keep this, and merging a fragment of
two states refines the union (`Refines.fastUnion_left`, `Refines.fastUnion_right`): the union has an
own start and accepting state, where the merged fragment may at most have one more live state.
-/

open scoped Computability

namespace ByteRegex.Fragment

/-- A fragment has the words of another one, and not more states or live states. -/
structure Refines (f g : Fragment) : Prop where
  built : f.Built
  built_right : g.Built
  language_eq : f.language = g.language
  size_le : f.size ≤ g.size
  live_le : ∀ c a, (f.live c a).ncard ≤ (g.live c a).ncard

variable {f g l r l' r' : Fragment} {c a : Prop}

/-- What is needed of the accepting state counts for one at most. -/
theorem WellFormed.ncard_live_le (hf : f.WellFormed) :
    (f.live c a).ncard ≤ (f.live c False).ncard + oneIf a := by
  have hsubset : f.live c a ⊆ f.live c False ∪ {t | t = f.accept ∧ a} := by
    rintro t (h | h | ⟨ha, rfl⟩)
    · exact .inl (.inl h)
    · exact .inl (.inr (.inl h))
    · exact .inr ⟨rfl, ha⟩
  calc (f.live c a).ncard
    _ ≤ (f.live c False ∪ {t | t = f.accept ∧ a}).ncard :=
      Set.ncard_le_ncard hsubset (hf.finite_live.union (finite_setOf_eq_and ..))
    _ ≤ (f.live c False).ncard + {t | t = f.accept ∧ a}.ncard := Set.ncard_union_le ..
    _ = (f.live c False).ncard + oneIf a := by rw [ncard_setOf_eq_and]

theorem WellFormed.ncard_live_pos (hf : f.WellFormed) (h : ∃ t, f.IsTarget t) :
    0 < (f.live c a).ncard := by
  obtain ⟨t, ht⟩ := h
  exact (Set.ncard_pos hf.finite_live).mpr ⟨t, .inl ht⟩

namespace Refines

theorem refl (hf : f.Built) : f.Refines f :=
  ⟨hf, hf, rfl, Nat.le_refl _, fun _ _ => Nat.le_refl _⟩

theorem concat (hl : l.Refines l') (hr : r.Refines r') : (l.concat r).Refines (l'.concat r') where
  built := .concat hl.built hr.built
  built_right := .concat hl.built_right hr.built_right
  language_eq := by
    rw [language_concat hl.built.wellFormed hr.built.wellFormed, hl.language_eq, hr.language_eq,
      language_concat hl.built_right.wellFormed hr.built_right.wellFormed]
  size_le := by
    rw [size_concat hr.built.wellFormed.start_lt, size_concat hr.built_right.wellFormed.start_lt]
    exact Nat.sub_le_sub_right (Nat.add_le_add hl.size_le hr.size_le) 1
  live_le c a := by
    have h := ncard_live_concat (c := c) (a := a) hl.built.wellFormed hr.built.wellFormed
    have h' := ncard_live_concat (c := c) (a := a) hl.built_right.wellFormed
      hr.built_right.wellFormed
    have hleft := hl.live_le c False
    have hright := hr.live_le (c ∧ [] ∈ l.language) a
    rw [hl.language_eq] at h hright
    omega

theorem union (hl : l.Refines l') (hr : r.Refines r') : (l.union r).Refines (l'.union r') where
  built := .union hl.built hr.built
  built_right := .union hl.built_right hr.built_right
  language_eq := by
    rw [language_union hl.built.wellFormed hr.built.wellFormed, hl.language_eq, hr.language_eq,
      language_union hl.built_right.wellFormed hr.built_right.wellFormed]
  size_le := by
    rw [size_union, size_union]
    exact Nat.add_le_add_right (Nat.add_le_add hl.size_le hr.size_le) 2
  live_le c a := by
    rw [ncard_live_union hl.built.wellFormed hr.built.wellFormed, hl.language_eq, hr.language_eq,
      ncard_live_union hl.built_right.wellFormed hr.built_right.wellFormed]
    have hleft := hl.live_le c False
    have hright := hr.live_le c False
    omega

theorem star (hf : f.Refines g) : f.star.Refines g.star where
  built := .star hf.built
  built_right := .star hf.built_right
  language_eq := by
    rw [language_star hf.built.wellFormed, hf.language_eq, language_star hf.built_right.wellFormed]
  size_le := by
    rw [size_star, size_star]
    exact Nat.add_le_add_right hf.size_le 2
  live_le c a := by
    rw [ncard_live_star hf.built.wellFormed, ncard_live_star hf.built_right.wellFormed]
    have hinside := hf.live_le c False
    omega

theorem opt (hf : f.Refines g) : f.opt.Refines g.opt where
  built := .opt hf.built
  built_right := .opt hf.built_right
  language_eq := by
    rw [language_opt hf.built.wellFormed, hf.language_eq, language_opt hf.built_right.wellFormed]
  size_le := by
    rw [size_opt, size_opt]
    exact hf.size_le
  live_le c a := by
    rw [live_opt hf.built.wellFormed, live_opt hf.built_right.wellFormed]
    exact hf.live_le c (a ∨ c)

theorem plus (hf : f.Refines g) : f.plus.Refines g.plus := hf.concat hf.star

/-! ## Merging -/

/-- The accepting state that merging may make live is made up for by the new states of a union, or
by what the edges of the merged fragment enter there. -/
theorem ncard_live_fastUnion_le (hl : l.Refines l') (hr : r.Refines r')
    (h2 : r.isTwoState = true) :
    ((l.fastUnion r).live c a).ncard ≤ (l'.live c False).ncard + (r'.live c False).ncard +
      oneIf c + oneIf (a ∨ c ∧ [] ∈ l'.language + r'.language) := by
  rw [live_fastUnion hl.built.wellFormed hr.built.wellFormed h2]
  refine Nat.le_trans hl.built.wellFormed.ncard_live_le ?_
  have hleft := hl.live_le c False
  have hright := hr.live_le c False
  have hone := oneIf_le_one (a ∨ (∃ q, r.IsTarget q) ∨ c ∧ [] ∈ r.language)
  by_cases hc : c
  · rw [oneIf_pos hc]
    omega
  · by_cases ha : a
    · rw [oneIf_pos (p := a ∨ c ∧ [] ∈ l'.language + r'.language) (.inl ha)]
      omega
    · by_cases htarget : ∃ q, r.IsTarget q
      · have hpos := hr.built.wellFormed.ncard_live_pos (c := c) (a := False) htarget
        omega
      · rw [oneIf_neg (p := a ∨ (∃ q, r.IsTarget q) ∨ c ∧ [] ∈ r.language) (by tauto)]
        omega

theorem fastUnion_left (hl : l.Refines l') (hr : r.Refines r') (h2 : r.isTwoState = true) :
    (l.fastUnion r).Refines (l'.union r') where
  built := .fastUnion hl.built hr.built h2
  built_right := .union hl.built_right hr.built_right
  language_eq := by
    rw [language_fastUnion hl.built.wellFormed hr.built.wellFormed h2, hl.language_eq,
      hr.language_eq, language_union hl.built_right.wellFormed hr.built_right.wellFormed]
  size_le := by
    have hsize := hl.size_le
    rw [size_fastUnion, size_union]
    omega
  live_le c a := by
    rw [ncard_live_union hl.built_right.wellFormed hr.built_right.wellFormed]
    exact ncard_live_fastUnion_le hl hr h2

theorem fastUnion_right (hl : l.Refines l') (hr : r.Refines r') (h2 : l.isTwoState = true) :
    (r.fastUnion l).Refines (l'.union r') where
  built := .fastUnion hr.built hl.built h2
  built_right := .union hl.built_right hr.built_right
  language_eq := by
    rw [language_fastUnion hr.built.wellFormed hl.built.wellFormed h2, hl.language_eq,
      hr.language_eq, add_comm, language_union hl.built_right.wellFormed hr.built_right.wellFormed]
  size_le := by
    have hsize := hr.size_le
    rw [size_fastUnion, size_union]
    omega
  live_le c a := by
    rw [ncard_live_union hl.built_right.wellFormed hr.built_right.wellFormed, add_comm l'.language,
      Nat.add_comm (l'.live c False).ncard]
    exact ncard_live_fastUnion_le hr hl h2

end Refines

end ByteRegex.Fragment
