import ByteRegex.Proofs.Fragment.Trim
import Mathlib.Data.Set.Card

/-!
# How many states a fragment needs

A state of a fragment matters without epsilon edges if another edge enters it, or if it is reached
over epsilon edges from the start. `Fragment.live` is the set of these states. As a part of a larger
fragment, a fragment may be entered over epsilon edges or not, and its accepting state may be needed
for what comes after it; two flags tell.

For each operation the number of live states of the result is given by those of the operands
(`ncard_live_concat`, `ncard_live_union`, `ncard_live_star`, `live_opt`, `live_fastUnion`).
-/

open scoped Computability

namespace ByteRegex.Fragment

/-- An edge that is no epsilon edge enters a state. -/
def IsTarget (f : Fragment) (t : Nat) : Prop :=
  ∃ s, ∃ e ∈ f.edges s, e.label ≠ .epsilon ∧ e.target = t

/-- The states that an edge other than an epsilon edge enters; with `entered` those that the start
reaches over epsilon edges, and with `needed` the accepting state. -/
def live (f : Fragment) (entered needed : Prop) : Set Nat :=
  {t | f.IsTarget t ∨ entered ∧ f.Reads [] t ∨ needed ∧ t = f.accept}

variable {f l r : Fragment} {s t : Nat} {c a : Prop}

theorem WellFormed.lt_size_of_mem_live (hf : f.WellFormed) (h : t ∈ f.live c a) : t < f.size := by
  rcases h with ⟨s, e, he, -, rfl⟩ | ⟨-, h⟩ | ⟨-, rfl⟩
  · exact hf.target_lt he
  · exact hf.lt_size_of_reads h
  · exact hf.accept_lt

theorem WellFormed.finite_live (hf : f.WellFormed) : (f.live c a).Finite :=
  (Set.finite_lt_nat f.size).subset fun _ h => hf.lt_size_of_mem_live h

theorem WellFormed.not_isTarget_start (hf : f.WellFormed) : ¬ f.IsTarget f.start := by
  rintro ⟨s, e, he, -, h⟩
  exact hf.target_ne_start he h

/-- The start is live only if it may be entered. -/
theorem WellFormed.start_mem_live_iff (hf : f.WellFormed) : f.start ∈ f.live c a ↔ c := by
  constructor
  · rintro (h | ⟨h, -⟩ | ⟨-, h⟩)
    · exact absurd h hf.not_isTarget_start
    · exact h
    · exact absurd h hf.start_ne_accept
  · exact fun h => .inr (.inl ⟨h, .refl⟩)

/-! ## Counting -/

section Count

variable {A B : Set Nat} {n : Nat}

theorem ncard_union_of_lt (hA : ∀ t ∈ A, t < n) (hB : ∀ t ∈ B, n ≤ t) (hfinite : B.Finite) :
    (A ∪ B).ncard = A.ncard + B.ncard := by
  have hdisjoint : Disjoint A B := by
    rw [Set.disjoint_left]
    intro t htA htB
    exact absurd (hA t htA) (Nat.not_lt.mpr (hB t htB))
  exact Set.ncard_union_eq hdisjoint ((Set.finite_lt_nat n).subset hA) hfinite

theorem finite_setOf_eq_and (s : Nat) (p : Prop) : {t | t = s ∧ p}.Finite :=
  (Set.finite_singleton s).subset fun _ h => h.1

open scoped Classical in
/-- The number of states of a kind of which there is at most one. -/
noncomputable def oneIf (p : Prop) : Nat := if p then 1 else 0

theorem oneIf_pos {p : Prop} (h : p) : oneIf p = 1 := if_pos h

theorem oneIf_neg {p : Prop} (h : ¬ p) : oneIf p = 0 := if_neg h

theorem oneIf_le_one (p : Prop) : oneIf p ≤ 1 := by
  by_cases h : p
  · exact Nat.le_of_eq (oneIf_pos h)
  · exact (oneIf_neg h).trans_le (Nat.zero_le 1)

theorem ncard_setOf_eq_and (s : Nat) (p : Prop) : {t | t = s ∧ p}.ncard = oneIf p := by
  by_cases h : p
  · simp [h, oneIf_pos]
  · simp [h, oneIf_neg]

end Count

/-! ## Concatenation -/

theorem isTarget_concat_iff (hl : l.WellFormed) :
    (l.concat r).IsTarget t ↔ l.IsTarget t ∨ ∃ q, r.IsTarget q ∧ behind l r q = t := by
  constructor
  · rintro ⟨s, e, he, hne, rfl⟩
    rcases (mem_edges_concat hl.accept_lt).mp he with ⟨-, he⟩ | ⟨q, d, hd, -, rfl⟩
    · exact .inl ⟨s, e, he, hne, rfl⟩
    · exact .inr ⟨d.target, ⟨q, d, hd, hne, rfl⟩, rfl⟩
  · rintro (⟨s, e, he, hne, rfl⟩ | ⟨_, ⟨s, e, he, hne, rfl⟩, rfl⟩)
    · exact ⟨s, e, (mem_edges_concat hl.accept_lt).mpr (.inl ⟨hl.ne_accept_of_mem_edges he, he⟩),
        hne, rfl⟩
    · exact ⟨_, _, (mem_edges_concat hl.accept_lt).mpr (.inr ⟨_, _, he, rfl, rfl⟩), hne, rfl⟩

theorem reads_nil_concat_iff (hl : l.WellFormed) :
    (l.concat r).Reads [] t ↔
      l.Reads [] t ∨ [] ∈ l.language ∧ ∃ q, r.Reads [] q ∧ behind l r q = t := by
  constructor
  · intro h
    have hin := reads_concat hl h
    generalize hw : ([] : List Label) = w at hin
    cases hin with
    | left h _ => exact .inl (hw ▸ h)
    | right hx hv =>
      obtain ⟨rfl, rfl⟩ := List.append_eq_nil_iff.mp hw.symm
      exact .inr ⟨hx, _, hv, rfl⟩
  · rintro (h | ⟨hnil, q, h, rfl⟩)
    · exact spells_concat_left hl h
    · exact reads_concat_of_reads hl hnil h

theorem live_concat (hl : l.WellFormed) :
    (l.concat r).live c a =
      l.live c False ∪ behind l r '' r.live (c ∧ [] ∈ l.language) a := by
  ext t
  show _ ∨ _ ∨ a ∧ t = behind l r r.accept ↔ _
  rw [isTarget_concat_iff hl, reads_nil_concat_iff hl]
  constructor
  · rintro ((h | ⟨q, h, rfl⟩) | ⟨hc, h | ⟨hnil, q, h, rfl⟩⟩ | ⟨ha, rfl⟩)
    · exact .inl (.inl h)
    · exact .inr ⟨q, .inl h, rfl⟩
    · exact .inl (.inr (.inl ⟨hc, h⟩))
    · exact .inr ⟨q, .inr (.inl ⟨⟨hc, hnil⟩, h⟩), rfl⟩
    · exact .inr ⟨_, .inr (.inr ⟨ha, rfl⟩), rfl⟩
  · rintro ((h | ⟨hc, h⟩ | ⟨h, -⟩) | ⟨q, h | ⟨⟨hc, hnil⟩, h⟩ | ⟨ha, rfl⟩, rfl⟩)
    · exact .inl (.inl h)
    · exact .inr (.inl ⟨hc, .inl h⟩)
    · exact h.elim
    · exact .inl (.inr ⟨q, h, rfl⟩)
    · exact .inr (.inl ⟨hc, .inr ⟨hnil, q, h, rfl⟩⟩)
    · exact .inr (.inr ⟨ha, rfl⟩)

/-- The joint is counted on both sides if it is entered over epsilon edges. -/
theorem ncard_live_concat (hl : l.WellFormed) (hr : r.WellFormed) :
    ((l.concat r).live c a).ncard + oneIf (c ∧ [] ∈ l.language) =
      (l.live c False).ncard + (r.live (c ∧ [] ∈ l.language) a).ncard := by
  have hinter : l.live c False ∩ behind l r '' r.live (c ∧ [] ∈ l.language) a =
      {t | t = l.accept ∧ c ∧ [] ∈ l.language} := by
    ext t
    constructor
    · rintro ⟨ht, q, hq, rfl⟩
      obtain rfl := lt_size_of_behind (hl.lt_size_of_mem_live ht)
      exact ⟨behind_start, hr.start_mem_live_iff.mp hq⟩
    · rintro ⟨rfl, h⟩
      exact ⟨.inr (.inl ⟨h.1, h.2⟩), r.start, hr.start_mem_live_iff.mpr h, behind_start⟩
  have hinj : Function.Injective (behind l r) := fun p q h => behind_inj hl.accept_lt h
  rw [live_concat hl, ← ncard_setOf_eq_and l.accept, ← hinter,
    Set.ncard_union_add_ncard_inter _ _ hl.finite_live (hr.finite_live.image _),
    Set.ncard_image_of_injective _ hinj]

/-! ## Alternatives -/

theorem isTarget_union_iff (hl : l.WellFormed) (hr : r.WellFormed) :
    (l.union r).IsTarget t ↔ l.IsTarget t ∨ ∃ q, r.IsTarget q ∧ q + l.size = t := by
  have hmem {s e} := mem_edges_union (s := s) (e := e) hl.accept_lt hr.accept_lt
  constructor
  · rintro ⟨s, e, he, hne, rfl⟩
    rcases hmem.mp he with he | ⟨q, d, hd, -, rfl⟩ | ⟨-, rfl⟩ | ⟨-, rfl | rfl⟩
    · exact .inl ⟨s, e, he, hne, rfl⟩
    · exact .inr ⟨d.target, ⟨q, d, hd, hne, rfl⟩, rfl⟩
    all_goals exact absurd rfl hne
  · rintro (⟨s, e, he, hne, rfl⟩ | ⟨_, ⟨s, e, he, hne, rfl⟩, rfl⟩)
    · exact ⟨s, e, hmem.mpr (.inl he), hne, rfl⟩
    · exact ⟨_, _, hmem.mpr (.inr (.inl ⟨_, _, he, rfl, rfl⟩)), hne, rfl⟩

theorem reads_nil_union_iff (hl : l.WellFormed) (hr : r.WellFormed) :
    (l.union r).Reads [] t ↔ t = (l.union r).start ∨ l.Reads [] t ∨
      (∃ q, r.Reads [] q ∧ q + l.size = t) ∨
      t = (l.union r).accept ∧ [] ∈ l.language + r.language := by
  constructor
  · intro h
    have hin := reads_union hl hr h
    generalize hw : ([] : List Label) = w at hin
    cases hin with
    | start => exact .inl rfl
    | left h =>
      subst hw
      exact .inr (.inl h)
    | right h =>
      subst hw
      exact .inr (.inr (.inl ⟨_, h, rfl⟩))
    | accept h =>
      subst hw
      exact .inr (.inr (.inr ⟨rfl, h⟩))
  · rintro (rfl | h | ⟨q, h, rfl⟩ | ⟨rfl, h⟩)
    · exact .refl
    · exact reads_union_left hl hr h
    · exact reads_union_right hl hr h
    · have hlanguage : [] ∈ (l.union r).language := language_union hl hr ▸ h
      exact hlanguage

theorem live_union (hl : l.WellFormed) (hr : r.WellFormed) :
    (l.union r).live c a = l.live c False ∪ (· + l.size) '' r.live c False ∪
      {t | t = (l.union r).start ∧ c} ∪
      {t | t = (l.union r).accept ∧ (a ∨ c ∧ [] ∈ l.language + r.language)} := by
  ext t
  show _ ∨ _ ∨ _ ↔ _
  rw [isTarget_union_iff hl hr, reads_nil_union_iff hl hr]
  constructor
  · rintro ((h | ⟨q, h, rfl⟩) | ⟨hc, rfl | h | ⟨q, h, rfl⟩ | ⟨rfl, h⟩⟩ | ⟨ha, rfl⟩)
    · exact .inl (.inl (.inl (.inl h)))
    · exact .inl (.inl (.inr ⟨q, .inl h, rfl⟩))
    · exact .inl (.inr ⟨rfl, hc⟩)
    · exact .inl (.inl (.inl (.inr (.inl ⟨hc, h⟩))))
    · exact .inl (.inl (.inr ⟨q, .inr (.inl ⟨hc, h⟩), rfl⟩))
    · exact .inr ⟨rfl, .inr ⟨hc, h⟩⟩
    · exact .inr ⟨rfl, .inl ha⟩
  · rintro ((((h | ⟨hc, h⟩ | ⟨h, -⟩) | ⟨q, h | ⟨hc, h⟩ | ⟨h, -⟩, rfl⟩) | ⟨rfl, hc⟩) |
      ⟨rfl, ha | ⟨hc, h⟩⟩)
    · exact .inl (.inl h)
    · exact .inr (.inl ⟨hc, .inr (.inl h)⟩)
    · exact h.elim
    · exact .inl (.inr ⟨q, h, rfl⟩)
    · exact .inr (.inl ⟨hc, .inr (.inr (.inl ⟨q, h, rfl⟩))⟩)
    · exact h.elim
    · exact .inr (.inl ⟨hc, .inl rfl⟩)
    · exact .inr (.inr ⟨ha, rfl⟩)
    · exact .inr (.inl ⟨hc, .inr (.inr (.inr ⟨rfl, h⟩))⟩)

theorem ncard_live_union (hl : l.WellFormed) (hr : r.WellFormed) :
    ((l.union r).live c a).ncard = (l.live c False).ncard + (r.live c False).ncard + oneIf c +
      oneIf (a ∨ c ∧ [] ∈ l.language + r.language) := by
  have hinj : Function.Injective (· + l.size) := add_left_injective l.size
  have hleft : ∀ t ∈ l.live c False, t < l.size := fun t ht => hl.lt_size_of_mem_live ht
  have hright : ∀ t ∈ (· + l.size) '' r.live c False, l.size ≤ t ∧ t < l.size + r.size := by
    rintro _ ⟨q, hq, rfl⟩
    have := hr.lt_size_of_mem_live hq
    show l.size ≤ q + l.size ∧ q + l.size < _
    omega
  have hboth : ∀ t ∈ l.live c False ∪ (· + l.size) '' r.live c False, t < (l.union r).start := by
    rintro t (ht | ht)
    · exact Nat.lt_add_right _ (hleft t ht)
    · exact (hright t ht).2
  have hbegin : ∀ t ∈ l.live c False ∪ (· + l.size) '' r.live c False ∪
      {t | t = (l.union r).start ∧ c}, t < (l.union r).accept := by
    rintro t (ht | ⟨rfl, -⟩)
    · exact Nat.lt_succ_of_lt (hboth t ht)
    · exact Nat.lt_succ_self _
  rw [live_union hl hr,
    ncard_union_of_lt hbegin (fun t ht => ht.1.ge) (finite_setOf_eq_and ..),
    ncard_union_of_lt hboth (fun t ht => ht.1.ge) (finite_setOf_eq_and ..),
    ncard_union_of_lt hleft (fun t ht => (hright t ht).1) (hr.finite_live.image _),
    Set.ncard_image_of_injective _ hinj, ncard_setOf_eq_and, ncard_setOf_eq_and]

theorem isTarget_fastUnion_iff (hl : l.WellFormed) (hr : r.WellFormed)
    (h2 : r.isTwoState = true) :
    (l.fastUnion r).IsTarget t ↔ l.IsTarget t ∨ t = l.accept ∧ ∃ q, r.IsTarget q := by
  constructor
  · rintro ⟨s, e, he, hne, rfl⟩
    rcases (mem_edges_fastUnion hl.start_lt).mp he with he | ⟨rfl, d, hd, rfl⟩
    · exact .inl ⟨s, e, he, hne, rfl⟩
    · exact .inr ⟨rfl, d.target, r.start, d, hd, hne, rfl⟩
  · rintro (⟨s, e, he, hne, rfl⟩ | ⟨rfl, q, s, e, he, hne, rfl⟩)
    · exact ⟨s, e, (mem_edges_fastUnion hl.start_lt).mpr (.inl he), hne, rfl⟩
    · obtain ⟨rfl, -⟩ := hr.edge_of_isTwoState h2 he
      exact ⟨_, _, (mem_edges_fastUnion hl.start_lt).mpr (.inr ⟨rfl, e, he, rfl⟩), hne, rfl⟩

theorem reads_nil_fastUnion_iff (hl : l.WellFormed) (hr : r.WellFormed)
    (h2 : r.isTwoState = true) :
    (l.fastUnion r).Reads [] t ↔ l.Reads [] t ∨ t = l.accept ∧ [] ∈ r.language := by
  constructor
  · exact reads_fastUnion hl hr h2
  · rintro (h | ⟨rfl, h⟩)
    · exact spells_fastUnion hl h
    · have hlanguage : [] ∈ (l.fastUnion r).language := by
        rw [language_fastUnion hl hr h2]
        exact .inr h
      exact hlanguage

/-- Merging a fragment of two states may make the accepting state live. -/
theorem live_fastUnion (hl : l.WellFormed) (hr : r.WellFormed) (h2 : r.isTwoState = true) :
    (l.fastUnion r).live c a =
      l.live c (a ∨ (∃ q, r.IsTarget q) ∨ c ∧ [] ∈ r.language) := by
  ext t
  show _ ∨ _ ∨ _ ↔ _
  rw [isTarget_fastUnion_iff hl hr h2, reads_nil_fastUnion_iff hl hr h2]
  constructor
  · rintro ((h | ⟨rfl, h⟩) | ⟨hc, h | ⟨rfl, h⟩⟩ | ⟨ha, rfl⟩)
    · exact .inl h
    · exact .inr (.inr ⟨.inr (.inl h), rfl⟩)
    · exact .inr (.inl ⟨hc, h⟩)
    · exact .inr (.inr ⟨.inr (.inr ⟨hc, h⟩), rfl⟩)
    · exact .inr (.inr ⟨.inl ha, rfl⟩)
  · rintro (h | ⟨hc, h⟩ | ⟨ha | h | ⟨hc, h⟩, rfl⟩)
    · exact .inl (.inl h)
    · exact .inr (.inl ⟨hc, .inl h⟩)
    · exact .inr (.inr ⟨ha, rfl⟩)
    · exact .inl (.inr ⟨rfl, h⟩)
    · exact .inr (.inl ⟨hc, .inr ⟨rfl, h⟩⟩)

/-! ## Repetition -/

theorem isTarget_star_iff (hf : f.WellFormed) : f.star.IsTarget t ↔ f.IsTarget t := by
  constructor
  · rintro ⟨s, e, he, hne, rfl⟩
    rcases (mem_edges_star hf.accept_lt).mp he with he | ⟨-, rfl | rfl⟩
    · exact ⟨s, e, he, hne, rfl⟩
    all_goals exact absurd rfl hne
  · rintro ⟨s, e, he, hne, rfl⟩
    exact ⟨s, e, (mem_edges_star hf.accept_lt).mpr (.inl he), hne, rfl⟩

theorem reads_nil_star_iff (hf : f.WellFormed) :
    f.star.Reads [] t ↔ t = f.star.start ∨ f.Reads [] t ∨ t = f.star.accept := by
  constructor
  · intro h
    have hin := reads_star hf h
    generalize hw : ([] : List Label) = w at hin
    cases hin with
    | start => exact .inl rfl
    | inside hx hv =>
      obtain ⟨rfl, rfl⟩ := List.append_eq_nil_iff.mp hw.symm
      exact .inr (.inl hv)
    | accept _ => exact .inr (.inr rfl)
  · rintro (rfl | h | rfl)
    · exact .refl
    · exact reads_star_of_reads hf h
    · exact spells_star_accept hf .refl (.inr rfl)

theorem live_star (hf : f.WellFormed) :
    f.star.live c a = f.live c False ∪ {t | t = f.star.start ∧ c} ∪
      {t | t = f.star.accept ∧ (a ∨ c)} := by
  ext t
  show _ ∨ _ ∨ _ ↔ _
  rw [isTarget_star_iff hf, reads_nil_star_iff hf]
  constructor
  · rintro (h | ⟨hc, rfl | h | rfl⟩ | ⟨ha, rfl⟩)
    · exact .inl (.inl (.inl h))
    · exact .inl (.inr ⟨rfl, hc⟩)
    · exact .inl (.inl (.inr (.inl ⟨hc, h⟩)))
    · exact .inr ⟨rfl, .inr hc⟩
    · exact .inr ⟨rfl, .inl ha⟩
  · rintro (((h | ⟨hc, h⟩ | ⟨h, -⟩) | ⟨rfl, hc⟩) | ⟨rfl, ha | hc⟩)
    · exact .inl h
    · exact .inr (.inl ⟨hc, .inr (.inl h)⟩)
    · exact h.elim
    · exact .inr (.inl ⟨hc, .inl rfl⟩)
    · exact .inr (.inr ⟨ha, rfl⟩)
    · exact .inr (.inl ⟨hc, .inr (.inr rfl)⟩)

theorem ncard_live_star (hf : f.WellFormed) :
    (f.star.live c a).ncard = (f.live c False).ncard + oneIf c + oneIf (a ∨ c) := by
  have hinside : ∀ t ∈ f.live c False, t < f.star.start := fun t ht => hf.lt_size_of_mem_live ht
  have hbegin : ∀ t ∈ f.live c False ∪ {t | t = f.star.start ∧ c}, t < f.star.accept := by
    rintro t (ht | ⟨rfl, -⟩)
    · exact Nat.lt_succ_of_lt (hinside t ht)
    · exact Nat.lt_succ_self _
  rw [live_star hf, ncard_union_of_lt hbegin (fun t ht => ht.1.ge) (finite_setOf_eq_and ..),
    ncard_union_of_lt hinside (fun t ht => ht.1.ge) (finite_setOf_eq_and ..), ncard_setOf_eq_and,
    ncard_setOf_eq_and]

theorem isTarget_opt_iff (hf : f.WellFormed) : f.opt.IsTarget t ↔ f.IsTarget t := by
  constructor
  · rintro ⟨s, e, he, hne, rfl⟩
    rcases (mem_edges_opt hf.start_lt).mp he with he | ⟨-, rfl⟩
    · exact ⟨s, e, he, hne, rfl⟩
    · exact absurd rfl hne
  · rintro ⟨s, e, he, hne, rfl⟩
    exact ⟨s, e, (mem_edges_opt hf.start_lt).mpr (.inl he), hne, rfl⟩

theorem reads_nil_opt_iff (hf : f.WellFormed) :
    f.opt.Reads [] t ↔ f.Reads [] t ∨ t = f.accept := by
  constructor
  · intro h
    exact (reads_opt hf h).imp_right And.left
  · rintro (h | rfl)
    · exact spells_opt hf h
    · exact nil_mem_language_opt hf

theorem live_opt (hf : f.WellFormed) : f.opt.live c a = f.live c (a ∨ c) := by
  ext t
  show _ ∨ _ ∨ _ ↔ _
  rw [isTarget_opt_iff hf, reads_nil_opt_iff hf]
  constructor
  · rintro (h | ⟨hc, h | rfl⟩ | ⟨ha, rfl⟩)
    · exact .inl h
    · exact .inr (.inl ⟨hc, h⟩)
    · exact .inr (.inr ⟨.inr hc, rfl⟩)
    · exact .inr (.inr ⟨.inl ha, rfl⟩)
  · rintro (h | ⟨hc, h⟩ | ⟨ha | hc, rfl⟩)
    · exact .inl h
    · exact .inr (.inl ⟨hc, .inl h⟩)
    · exact .inr (.inr ⟨ha, rfl⟩)
    · exact .inr (.inl ⟨hc, .inr rfl⟩)

end ByteRegex.Fragment
