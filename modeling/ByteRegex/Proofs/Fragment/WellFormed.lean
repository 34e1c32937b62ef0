import ByteRegex.Proofs.Fragment.Edges

/-!
# Well-formed fragments

`Fragment.WellFormed` says that the edges of a fragment stay among its states, that no edge enters
the start and that none leaves the accepting state. Each operation on fragments keeps it, so all
fragments that the operations build (`Fragment.Built`) are well formed (`Built.wellFormed`).
-/

namespace ByteRegex.Fragment

/-- Edges lead to states, but not to the start, and not away from the accepting state. -/
structure WellFormed (f : Fragment) : Prop where
  start_lt : f.start < f.size
  accept_lt : f.accept < f.size
  start_ne_accept : f.start ≠ f.accept
  target_lt : ∀ {s e}, e ∈ f.edges s → e.target < f.size
  target_ne_start : ∀ {s e}, e ∈ f.edges s → e.target ≠ f.start
  not_mem_edges_accept : ∀ {e}, e ∉ f.edges f.accept

/-- The fragments that can be built by the operations. What is merged into another fragment by
`fastUnion` has two states. -/
inductive Built : Fragment → Prop where
  | leaf (label : Label) : Built (.leaf label)
  | epsilon : Built .epsilon
  | concat {l r : Fragment} : Built l → Built r → Built (l.concat r)
  | union {l r : Fragment} : Built l → Built r → Built (l.union r)
  | fastUnion {l r : Fragment} : Built l → Built r → r.isTwoState = true → Built (l.fastUnion r)
  | star {f : Fragment} : Built f → Built f.star
  | opt {f : Fragment} : Built f → Built f.opt
  | plus {f : Fragment} : Built f → Built f.plus

variable {f l r : Fragment}

namespace WellFormed

theorem two_le_size (hf : f.WellFormed) : 2 ≤ f.size := by
  have := hf.start_lt
  have := hf.accept_lt
  have := hf.start_ne_accept
  omega

theorem ne_accept_of_mem_edges (hf : f.WellFormed) {s : Nat} {e : Edge} (he : e ∈ f.edges s) :
    s ≠ f.accept := by
  rintro rfl
  exact hf.not_mem_edges_accept he

/-- All edges of a fragment of two states lead from its start to its accepting state. -/
theorem edge_of_isTwoState (hf : f.WellFormed) (h2 : f.isTwoState = true) {s : Nat} {e : Edge}
    (he : e ∈ f.edges s) : s = f.start ∧ e.target = f.accept := by
  have hsize : f.size = 2 := by simpa [isTwoState] using h2
  have hs := lt_size_of_mem_edges he
  have hne := hf.ne_accept_of_mem_edges he
  have ht := hf.target_lt he
  have htne := hf.target_ne_start he
  have := hf.start_lt
  have := hf.accept_lt
  have := hf.start_ne_accept
  omega

theorem leaf (label : Label) : (leaf label).WellFormed where
  start_lt := Nat.zero_lt_two
  accept_lt := Nat.one_lt_two
  start_ne_accept := Nat.zero_ne_one
  target_lt he := by rw [(mem_edges_leaf.mp he).2]; exact Nat.one_lt_two
  target_ne_start he := by rw [(mem_edges_leaf.mp he).2]; exact Nat.one_ne_zero
  not_mem_edges_accept he := absurd (mem_edges_leaf.mp he).1 Nat.one_ne_zero

theorem concat (hl : l.WellFormed) (hr : r.WellFormed) : (l.concat r).WellFormed := by
  have hsize : (l.concat r).size = l.size + r.size - 1 := size_concat hr.start_lt
  have hr2 := hr.two_le_size
  refine ⟨?_, ?_, ?_, ?_, ?_, ?_⟩
  · show l.start < _
    have := hl.start_lt
    omega
  · show behind l r r.accept < _
    rw [hsize]
    exact behind_lt hl.accept_lt hr.start_lt hr.accept_lt
  · show l.start ≠ behind l r r.accept
    intro h
    exact hr.start_ne_accept (lt_size_of_behind (h ▸ hl.start_lt)).symm
  · intro s e he
    rcases (mem_edges_concat hl.accept_lt).mp he with ⟨-, he⟩ | ⟨q, d, hd, -, rfl⟩
    · have := hl.target_lt he
      omega
    · rw [hsize]
      exact behind_lt hl.accept_lt hr.start_lt (hr.target_lt hd)
  · intro s e he
    rcases (mem_edges_concat hl.accept_lt).mp he with ⟨-, he⟩ | ⟨q, d, hd, -, rfl⟩
    · exact hl.target_ne_start he
    · intro h
      have h : behind l r d.target = l.start := h
      exact hr.target_ne_start hd (lt_size_of_behind (h ▸ hl.start_lt))
  · intro e he
    rcases (mem_edges_concat hl.accept_lt).mp he with ⟨-, he⟩ | ⟨q, d, hd, hq, rfl⟩
    · exact hr.start_ne_accept (lt_size_of_behind (lt_size_of_mem_edges he)).symm
    · exact hr.ne_accept_of_mem_edges hd (behind_inj hl.accept_lt hq).symm

theorem union (hl : l.WellFormed) (hr : r.WellFormed) : (l.union r).WellFormed := by
  have hsize : (l.union r).size = l.size + r.size + 2 := size_union
  have hstart : (l.union r).start = l.size + r.size := rfl
  have haccept : (l.union r).accept = l.size + r.size + 1 := rfl
  have := hl.start_lt
  have := hr.start_lt
  have := hl.accept_lt
  have := hr.accept_lt
  refine ⟨by omega, by omega, by omega, ?_, ?_, ?_⟩
  · intro s e he
    rcases (mem_edges_union hl.accept_lt hr.accept_lt).mp he with
      he | ⟨q, d, hd, -, rfl⟩ | ⟨-, rfl⟩ | ⟨-, rfl | rfl⟩
    · have := hl.target_lt he
      omega
    · have := hr.target_lt hd
      show d.target + l.size < _
      omega
    · show (l.union r).accept < _
      omega
    · show l.start < _
      omega
    · show r.start + l.size < _
      omega
  · intro s e he
    rcases (mem_edges_union hl.accept_lt hr.accept_lt).mp he with
      he | ⟨q, d, hd, -, rfl⟩ | ⟨-, rfl⟩ | ⟨-, rfl | rfl⟩
    · have := hl.target_lt he
      omega
    · have := hr.target_lt hd
      show d.target + l.size ≠ _
      omega
    · show (l.union r).accept ≠ _
      omega
    · show l.start ≠ _
      omega
    · show r.start + l.size ≠ _
      omega
  · intro e he
    rcases (mem_edges_union hl.accept_lt hr.accept_lt).mp he with
      he | ⟨q, d, hd, hq, -⟩ | ⟨h | h, -⟩ | ⟨h, -⟩
    · have := lt_size_of_mem_edges he
      omega
    · have := lt_size_of_mem_edges hd
      omega
    · omega
    · omega
    · omega

theorem fastUnion (hl : l.WellFormed) : (l.fastUnion r).WellFormed := by
  have hsize : (l.fastUnion r).size = l.size := size_fastUnion
  refine ⟨hsize ▸ hl.start_lt, hsize ▸ hl.accept_lt, hl.start_ne_accept, ?_, ?_, ?_⟩
  · intro s e he
    rw [hsize]
    rcases (mem_edges_fastUnion hl.start_lt).mp he with he | ⟨-, d, -, rfl⟩
    · exact hl.target_lt he
    · exact hl.accept_lt
  · intro s e he
    rcases (mem_edges_fastUnion hl.start_lt).mp he with he | ⟨-, d, -, rfl⟩
    · exact hl.target_ne_start he
    · exact hl.start_ne_accept.symm
  · intro e he
    rcases (mem_edges_fastUnion hl.start_lt).mp he with he | ⟨h, -⟩
    · exact hl.not_mem_edges_accept he
    · exact hl.start_ne_accept h.symm

theorem star (hf : f.WellFormed) : f.star.WellFormed := by
  have hsize : f.star.size = f.size + 2 := size_star
  have hstart : f.star.start = f.size := rfl
  have haccept : f.star.accept = f.size + 1 := rfl
  have := hf.start_lt
  have := hf.accept_lt
  refine ⟨by omega, by omega, by omega, ?_, ?_, ?_⟩
  · intro s e he
    rcases (mem_edges_star hf.accept_lt).mp he with he | ⟨-, rfl | rfl⟩
    · have := hf.target_lt he
      omega
    · show f.start < _
      omega
    · show f.star.accept < _
      omega
  · intro s e he
    rcases (mem_edges_star hf.accept_lt).mp he with he | ⟨-, rfl | rfl⟩
    · have := hf.target_lt he
      omega
    · show f.start ≠ _
      omega
    · show f.star.accept ≠ _
      omega
  · intro e he
    rcases (mem_edges_star hf.accept_lt).mp he with he | ⟨h | h, -⟩
    · have := lt_size_of_mem_edges he
      omega
    · omega
    · omega

theorem opt (hf : f.WellFormed) : f.opt.WellFormed := by
  have hsize : f.opt.size = f.size := size_opt
  refine ⟨hsize ▸ hf.start_lt, hsize ▸ hf.accept_lt, hf.start_ne_accept, ?_, ?_, ?_⟩
  · intro s e he
    rw [hsize]
    rcases (mem_edges_opt hf.start_lt).mp he with he | ⟨-, rfl⟩
    · exact hf.target_lt he
    · exact hf.accept_lt
  · intro s e he
    rcases (mem_edges_opt hf.start_lt).mp he with he | ⟨-, rfl⟩
    · exact hf.target_ne_start he
    · exact hf.start_ne_accept.symm
  · intro e he
    rcases (mem_edges_opt hf.start_lt).mp he with he | ⟨h, -⟩
    · exact hf.not_mem_edges_accept he
    · exact hf.start_ne_accept h.symm

theorem plus (hf : f.WellFormed) : f.plus.WellFormed := hf.concat hf.star

end WellFormed

/-- **All fragments that the operations build are well formed.** -/
theorem Built.wellFormed (h : f.Built) : f.WellFormed := by
  induction h with
  | leaf label => exact .leaf label
  | epsilon => exact .leaf .epsilon
  | concat _ _ hl hr => exact hl.concat hr
  | union _ _ hl hr => exact hl.union hr
  | fastUnion _ _ _ hl _ => exact hl.fastUnion
  | star _ hf => exact hf.star
  | opt _ hf => exact hf.opt
  | plus _ hf => exact hf.plus

end ByteRegex.Fragment
