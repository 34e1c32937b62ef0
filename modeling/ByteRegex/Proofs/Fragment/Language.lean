import ByteRegex.Proofs.Fragment.WellFormed
import ByteRegex.Proofs.Path

/-!
# The language of a fragment

The language of a fragment is the set of words that its paths from start to accepting state spell.
For each operation the language of the result is given by the languages of the operands:
concatenation is the product, `union` and `fastUnion` are the sum, `star` is the Kleene star, `opt`
adds the empty word.

Each of these has the same proof. A path of an operand is a path of the result, possibly under other
names, and new edges lead to and from its ends; this is one inclusion. For the other, an inductive
predicate (`InConcat`, `InUnion`, `InStar`) says where a path from the start can be and
what it has spelled by then, and one lemma says that every edge keeps it.
-/

open scoped Computability

namespace ByteRegex.Fragment

/-- A path from the start spells `w` and ends in `s`. -/
def Reads (f : Fragment) (w : List Label) (s : Nat) : Prop := Spells f.edges f.start w s

/-- The words that paths from the start to the accepting state spell. -/
def language (f : Fragment) : Language Label := {w | f.Reads w f.accept}

variable {f l r : Fragment} {w v x : List Label} {s t q : Nat} {e : Edge}

theorem WellFormed.lt_size_of_reads (hf : f.WellFormed) (h : f.Reads w s) : s < f.size :=
  h.invariant (P := fun _ s => s < f.size) hf.start_lt fun _ he => hf.target_lt he

theorem WellFormed.eq_nil_of_reads_start (hf : f.WellFormed) (h : f.Reads w f.start) : w = [] :=
  h.eq_nil_of_not_entered fun _ _ he => hf.target_ne_start he

/-! ## One edge -/

theorem language_leaf {label : Label} (h : label ≠ .epsilon) :
    (leaf label).language = {[label]} := by
  have key : ∀ {w s}, (leaf label).Reads w s → s = 0 ∧ w = [] ∨ s = 1 ∧ w = [label] := by
    intro w s hw
    refine hw.invariant (P := fun w s => s = 0 ∧ w = [] ∨ s = 1 ∧ w = [label]) (.inl ⟨rfl, rfl⟩) ?_
    rintro w s e (⟨rfl, rfl⟩ | ⟨rfl, -⟩) he
    · rw [(mem_edges_leaf.mp he).2]
      exact .inr ⟨rfl, by rw [dropEpsilons_of_ne h]; rfl⟩
    · exact absurd (mem_edges_leaf.mp he).1 Nat.one_ne_zero
  ext w
  constructor
  · intro hw
    rcases key hw with ⟨h0, -⟩ | ⟨-, rfl⟩
    · exact absurd h0 Nat.one_ne_zero
    · rfl
  · rintro rfl
    have := (Spells.refl (s := 0)).step (mem_edges_leaf.mpr ⟨rfl, rfl⟩ :
      (⟨1, label⟩ : Edge) ∈ (leaf label).edges 0)
    rwa [dropEpsilons_of_ne h] at this

theorem language_epsilon : epsilon.language = 1 := by
  ext w
  constructor
  · intro hw
    refine hw.invariant (P := fun w _ => w = []) rfl ?_
    rintro w s e rfl he
    rw [(mem_edges_leaf.mp he).2]
    rfl
  · rintro rfl
    exact Spells.refl.epsilon (mem_edges_leaf.mpr ⟨rfl, rfl⟩)

/-! ## Concatenation -/

theorem spells_concat_left (hl : l.WellFormed) (h : Spells l.edges s w t) :
    Spells (l.concat r).edges s w t :=
  h.mono fun he => (mem_edges_concat hl.accept_lt).mpr (.inl ⟨hl.ne_accept_of_mem_edges he, he⟩)

theorem spells_concat_right (hl : l.WellFormed) (h : Spells r.edges s w t) :
    Spells (l.concat r).edges (behind l r s) w (behind l r t) :=
  h.map fun he => (mem_edges_concat hl.accept_lt).mpr (.inr ⟨_, _, he, rfl, rfl⟩)

/-- What the right operand reads follows a word of the left one. -/
theorem reads_concat_of_reads (hl : l.WellFormed) (hx : x ∈ l.language) (h : r.Reads w q) :
    (l.concat r).Reads (x ++ w) (behind l r q) := by
  have hright := spells_concat_right (l := l) hl h
  rw [behind_start] at hright
  exact (spells_concat_left hl hx).trans hright

/-- Where a path through a concatenation can be: before the joint, or in the right operand after a
word of the left one. -/
inductive InConcat (l r : Fragment) : List Label → Nat → Prop where
  | left {w : List Label} {s : Nat} : l.Reads w s → s ≠ l.accept → InConcat l r w s
  | right {x v : List Label} {q : Nat} :
    x ∈ l.language → r.Reads v q → InConcat l r (x ++ v) (behind l r q)

theorem InConcat.edge (hl : l.WellFormed) (h : InConcat l r w s)
    (he : e ∈ (l.concat r).edges s) : InConcat l r (w ++ dropEpsilons [e.label]) e.target := by
  rcases (mem_edges_concat hl.accept_lt).mp he with ⟨hne, he⟩ | ⟨p, d, hd, hp, rfl⟩
  · cases h with
    | left hw _ =>
      have hstep : l.Reads (w ++ dropEpsilons [e.label]) e.target := hw.step he
      by_cases ha : e.target = l.accept
      · have := InConcat.right (l := l) (r := r) (ha ▸ hstep) .refl
        rwa [List.append_nil, behind_start, ← ha] at this
      · exact .left hstep ha
    | right _ _ =>
      -- a state of the right operand has edges of the left one only at the joint
      rw [lt_size_of_behind (lt_size_of_mem_edges he), behind_start] at hne
      exact absurd rfl hne
  · cases h with
    | left hw hne =>
      have hlt : behind l r p < l.size := hp ▸ hl.lt_size_of_reads hw
      rw [lt_size_of_behind hlt, behind_start] at hp
      exact absurd hp hne
    | @right x v q hx hv =>
      obtain rfl := behind_inj hl.accept_lt hp
      rw [List.append_assoc]
      exact .right hx (hv.step hd)

theorem reads_concat (hl : l.WellFormed) (h : (l.concat r).Reads w s) : InConcat l r w s :=
  h.invariant (.left .refl hl.start_ne_accept) fun h he => h.edge hl he

/-- **The language of a concatenation is the product of the languages.** -/
theorem language_concat (hl : l.WellFormed) (hr : r.WellFormed) :
    (l.concat r).language = l.language * r.language := by
  ext w
  constructor
  · intro hw
    have h : InConcat l r w (behind l r r.accept) := reads_concat hl hw
    generalize hs : behind l r r.accept = s at h
    cases h with
    | left hw _ =>
      exact absurd (lt_size_of_behind (hs ▸ hl.lt_size_of_reads hw)).symm hr.start_ne_accept
    | right hx hv =>
      obtain rfl := behind_inj hl.accept_lt hs
      exact ⟨_, hx, _, hv, rfl⟩
  · rintro ⟨x, hx, v, hv, rfl⟩
    exact reads_concat_of_reads hl hx hv

/-! ## Alternatives -/

theorem spells_union_left (hl : l.WellFormed) (hr : r.WellFormed) (h : Spells l.edges s w t) :
    Spells (l.union r).edges s w t :=
  h.mono fun he => (mem_edges_union hl.accept_lt hr.accept_lt).mpr (.inl he)

theorem spells_union_right (hl : l.WellFormed) (hr : r.WellFormed) (h : Spells r.edges s w t) :
    Spells (l.union r).edges (s + l.size) w (t + l.size) :=
  h.map fun he =>
    (mem_edges_union hl.accept_lt hr.accept_lt).mpr (.inr (.inl ⟨_, _, he, rfl, rfl⟩))

theorem reads_union_left (hl : l.WellFormed) (hr : r.WellFormed) (h : l.Reads w s) :
    (l.union r).Reads w s := by
  have hbegin : (l.union r).Reads [] l.start :=
    Spells.refl.epsilon
      ((mem_edges_union hl.accept_lt hr.accept_lt).mpr (.inr (.inr (.inr ⟨rfl, .inl rfl⟩))))
  exact hbegin.trans (spells_union_left hl hr h)

theorem reads_union_right (hl : l.WellFormed) (hr : r.WellFormed) (h : r.Reads w s) :
    (l.union r).Reads w (s + l.size) := by
  have hbegin : (l.union r).Reads [] (r.start + l.size) :=
    Spells.refl.epsilon
      ((mem_edges_union hl.accept_lt hr.accept_lt).mpr (.inr (.inr (.inr ⟨rfl, .inr rfl⟩))))
  exact hbegin.trans (spells_union_right hl hr h)

/-- From where either operand accepts, the union accepts. -/
theorem spells_union_accept (hl : l.WellFormed) (hr : r.WellFormed)
    (h : Spells (l.union r).edges s w t) (ht : t = l.accept ∨ t = r.accept + l.size) :
    Spells (l.union r).edges s w (l.union r).accept :=
  h.epsilon ((mem_edges_union hl.accept_lt hr.accept_lt).mpr (.inr (.inr (.inl ⟨ht, rfl⟩))))

/-- Where a path through a union can be. -/
inductive InUnion (l r : Fragment) : List Label → Nat → Prop where
  | start : InUnion l r [] (l.union r).start
  | left {w : List Label} {s : Nat} : l.Reads w s → InUnion l r w s
  | right {w : List Label} {s : Nat} : r.Reads w s → InUnion l r w (s + l.size)
  | accept {w : List Label} : w ∈ l.language + r.language → InUnion l r w (l.union r).accept

theorem InUnion.edge (hl : l.WellFormed) (hr : r.WellFormed) (h : InUnion l r w s)
    (he : e ∈ (l.union r).edges s) : InUnion l r (w ++ dropEpsilons [e.label]) e.target := by
  have hstart : (l.union r).start = l.size + r.size := rfl
  have haccept : (l.union r).accept = l.size + r.size + 1 := rfl
  have := hl.accept_lt
  have := hr.accept_lt
  -- an edge of either operand, out of an accepting state, or out of the new start; the numbers of
  -- the states tell which of them can leave from where the path is
  rcases (mem_edges_union hl.accept_lt hr.accept_lt).mp he with
    he | ⟨p, d, hd, hp, rfl⟩ | ⟨ha, rfl⟩ | ⟨hs, hnew⟩
  · have hlt := lt_size_of_mem_edges he
    cases h with
    | start => omega
    | left hw => exact .left (hw.step he)
    | right _ => omega
    | accept _ => omega
  · have hlt := lt_size_of_mem_edges hd
    cases h with
    | start => omega
    | left hw =>
      have := hl.lt_size_of_reads hw
      omega
    | right hw =>
      obtain rfl := Nat.add_right_cancel hp
      exact .right (hw.step hd)
    | accept _ => omega
  · rw [dropEpsilons_epsilon, List.append_nil]
    cases h with
    | start => omega
    | left hw =>
      have := hl.lt_size_of_reads hw
      obtain rfl : s = l.accept := by omega
      exact .accept (.inl hw)
    | @right _ q hw =>
      obtain rfl : q = r.accept := by omega
      exact .accept (.inr hw)
    | accept _ => omega
  · cases h with
    | start =>
      rcases hnew with rfl | rfl
      · exact .left .refl
      · exact .right .refl
    | left hw =>
      have := hl.lt_size_of_reads hw
      omega
    | right hw =>
      have := hr.lt_size_of_reads hw
      omega
    | accept _ => omega

theorem reads_union (hl : l.WellFormed) (hr : r.WellFormed) (h : (l.union r).Reads w s) :
    InUnion l r w s :=
  h.invariant .start fun h he => h.edge hl hr he

theorem language_union (hl : l.WellFormed) (hr : r.WellFormed) :
    (l.union r).language = l.language + r.language := by
  ext w
  constructor
  · intro hw
    have h : InUnion l r w (l.union r).accept := reads_union hl hr hw
    generalize hs : (l.union r).accept = s at h
    have haccept : (l.union r).accept = l.size + r.size + 1 := rfl
    cases h with
    | start =>
      have : (l.union r).start = l.size + r.size := rfl
      omega
    | left hw =>
      have := hl.lt_size_of_reads hw
      omega
    | right hw =>
      have := hr.lt_size_of_reads hw
      omega
    | accept h => exact h
  · rintro (hw | hw)
    · exact spells_union_accept hl hr (reads_union_left hl hr hw) (.inl rfl)
    · exact spells_union_accept hl hr (reads_union_right hl hr hw) (.inr rfl)

/-- The words of a fragment of two states are the labels of its edges. -/
theorem mem_language_of_isTwoState (hf : f.WellFormed) (h2 : f.isTwoState = true) :
    w ∈ f.language ↔ ∃ e ∈ f.edges f.start, w = dropEpsilons [e.label] := by
  constructor
  · intro hw
    have key : ∀ {t}, Spells f.edges f.start w t → t = f.start ∧ w = []
        ∨ t = f.accept ∧ ∃ e ∈ f.edges f.start, w = dropEpsilons [e.label] := fun h =>
      h.invariant (P := fun w t => t = f.start ∧ w = []
        ∨ t = f.accept ∧ ∃ e ∈ f.edges f.start, w = dropEpsilons [e.label]) (.inl ⟨rfl, rfl⟩) (by
        rintro w t e (⟨rfl, rfl⟩ | ⟨rfl, -⟩) he
        · exact .inr ⟨(hf.edge_of_isTwoState h2 he).2, e, he, rfl⟩
        · exact absurd he hf.not_mem_edges_accept)
    rcases key hw with ⟨h, -⟩ | ⟨-, h⟩
    · exact absurd h.symm hf.start_ne_accept
    · exact h
  · rintro ⟨e, he, rfl⟩
    have h : f.Reads ([] ++ dropEpsilons [e.label]) e.target := Spells.refl.step he
    rwa [(hf.edge_of_isTwoState h2 he).2] at h

theorem spells_fastUnion (hl : l.WellFormed) (h : Spells l.edges s w t) :
    Spells (l.fastUnion r).edges s w t :=
  h.mono fun he => (mem_edges_fastUnion hl.start_lt).mpr (.inl he)

theorem reads_fastUnion (hl : l.WellFormed) (hr : r.WellFormed) (h2 : r.isTwoState = true)
    (h : (l.fastUnion r).Reads w s) : l.Reads w s ∨ s = l.accept ∧ w ∈ r.language := by
  refine h.invariant (P := fun w s => l.Reads w s ∨ s = l.accept ∧ w ∈ r.language) (.inl .refl) ?_
  intro w s e h he
  rcases (mem_edges_fastUnion hl.start_lt).mp he with he | ⟨rfl, d, hd, rfl⟩
  · rcases h with hw | ⟨rfl, -⟩
    · exact .inl (hw.step he)
    · exact absurd he hl.not_mem_edges_accept
  · rcases h with hw | ⟨h, -⟩
    · -- nothing was read before, because no edge enters the start
      obtain rfl := hl.eq_nil_of_reads_start hw
      exact .inr ⟨rfl, (mem_language_of_isTwoState hr h2).mpr ⟨d, hd, rfl⟩⟩
    · exact absurd h hl.start_ne_accept

/-- **Merging a fragment of two states is taking the sum.** The new edges leave a start that no
edge enters, so they are taken first or never. -/
theorem language_fastUnion (hl : l.WellFormed) (hr : r.WellFormed) (h2 : r.isTwoState = true) :
    (l.fastUnion r).language = l.language + r.language := by
  ext w
  constructor
  · intro hw
    rcases reads_fastUnion hl hr h2 hw with h | ⟨-, h⟩
    · exact .inl h
    · exact .inr h
  · rintro (hw | hw)
    · exact spells_fastUnion hl hw
    · obtain ⟨d, hd, rfl⟩ := (mem_language_of_isTwoState hr h2).mp hw
      have h : (l.fastUnion r).Reads ([] ++ dropEpsilons [d.label]) l.accept :=
        Spells.refl.step ((mem_edges_fastUnion hl.start_lt).mpr (.inr ⟨rfl, d, hd, rfl⟩))
      exact h

/-! ## Repetition -/

theorem spells_star (hf : f.WellFormed) (h : Spells f.edges s w t) : Spells f.star.edges s w t :=
  h.mono fun he => (mem_edges_star hf.accept_lt).mpr (.inl he)

/-- From where a pass can begin or has ended, a path leads to the start of a pass. -/
theorem spells_star_again (hf : f.WellFormed) (h : Spells f.star.edges s w t)
    (ht : t = f.accept ∨ t = f.star.start) : Spells f.star.edges s w f.start :=
  h.epsilon ((mem_edges_star hf.accept_lt).mpr (.inr ⟨ht, .inl rfl⟩))

theorem spells_star_accept (hf : f.WellFormed) (h : Spells f.star.edges s w t)
    (ht : t = f.accept ∨ t = f.star.start) : Spells f.star.edges s w f.star.accept :=
  h.epsilon ((mem_edges_star hf.accept_lt).mpr (.inr ⟨ht, .inr rfl⟩))

theorem reads_star_of_reads (hf : f.WellFormed) (h : f.Reads w s) : f.star.Reads w s :=
  (spells_star_again hf .refl (.inr rfl)).trans (spells_star hf h)

/-- Where a path through a star can be. -/
inductive InStar (f : Fragment) : List Label → Nat → Prop where
  | start : InStar f [] f.star.start
  | inside {x v : List Label} {s : Nat} :
    x ∈ f.language∗ → f.Reads v s → InStar f (x ++ v) s
  | accept {w : List Label} : w ∈ f.language∗ → InStar f w f.star.accept

theorem append_mem_kstar {L : Language Label} (hx : x ∈ L∗) (hv : v ∈ L) : x ++ v ∈ L∗ := by
  have h : x ++ v ∈ L∗ * L := ⟨x, hx, v, hv, rfl⟩
  rw [← Language.one_add_kstar_mul_self_eq_kstar]
  exact .inr h

theorem InStar.edge (hf : f.WellFormed) (h : InStar f w s) (he : e ∈ f.star.edges s) :
    InStar f (w ++ dropEpsilons [e.label]) e.target := by
  have hstart : f.star.start = f.size := rfl
  have haccept : f.star.accept = f.size + 1 := rfl
  have := hf.accept_lt
  rcases (mem_edges_star hf.accept_lt).mp he with he | ⟨hs, hnew⟩
  · have := lt_size_of_mem_edges he
    cases h with
    | start => omega
    | inside hx hv =>
      rw [List.append_assoc]
      exact .inside hx (hv.step he)
    | accept _ => omega
  · -- the four new edges go from where a pass can begin or has ended
    have hw : w ∈ f.language∗ := by
      cases h with
      | start => exact Language.nil_mem_kstar _
      | inside hx hv =>
        have := hf.lt_size_of_reads hv
        obtain rfl : s = f.accept := by omega
        exact append_mem_kstar hx hv
      | accept hw => exact hw
    rcases hnew with rfl | rfl
    · exact .inside hw .refl
    · rw [dropEpsilons_epsilon, List.append_nil]
      exact .accept hw

theorem reads_star (hf : f.WellFormed) (h : f.star.Reads w s) : InStar f w s :=
  h.invariant .start fun h he => h.edge hf he

/-- After any number of words of `f`, a path can be at the new start or behind the last word. -/
theorem star_reads_flatten (hf : f.WellFormed) {L : List (List Label)}
    (h : ∀ y ∈ L, y ∈ f.language) :
    ∃ t, (t = f.accept ∨ t = f.star.start) ∧ f.star.Reads L.flatten t := by
  -- on the end of the list, since paths grow at their ends
  induction L using List.reverseRecOn with
  | nil => exact ⟨_, .inr rfl, .refl⟩
  | append_singleton L y ih =>
    obtain ⟨t, ht, hL⟩ := ih fun z hz => h z (List.mem_append_left _ hz)
    have hbegin := spells_star_again hf hL ht
    have hy := spells_star hf (h y (List.mem_append_right _ (List.mem_singleton_self y)))
    rw [List.flatten_append, List.flatten_singleton]
    exact ⟨_, .inl rfl, hbegin.trans hy⟩

theorem language_star (hf : f.WellFormed) : f.star.language = f.language∗ := by
  ext w
  constructor
  · intro hw
    have h : InStar f w f.star.accept := reads_star hf hw
    generalize hs : f.star.accept = s at h
    have haccept : f.star.accept = f.size + 1 := rfl
    cases h with
    | start =>
      have : f.star.start = f.size := rfl
      omega
    | inside _ hv =>
      have := hf.lt_size_of_reads hv
      omega
    | accept h => exact h
  · rintro ⟨L, rfl, hL⟩
    obtain ⟨t, ht, h⟩ := star_reads_flatten hf hL
    exact spells_star_accept hf h ht

theorem spells_opt (hf : f.WellFormed) (h : Spells f.edges s w t) : Spells f.opt.edges s w t :=
  h.mono fun he => (mem_edges_opt hf.start_lt).mpr (.inl he)

theorem nil_mem_language_opt (hf : f.WellFormed) : [] ∈ f.opt.language :=
  Spells.refl.epsilon ((mem_edges_opt hf.start_lt).mpr (.inr ⟨rfl, rfl⟩))

theorem reads_opt (hf : f.WellFormed) (h : f.opt.Reads w s) :
    f.Reads w s ∨ s = f.accept ∧ w = [] := by
  refine h.invariant (P := fun w s => f.Reads w s ∨ s = f.accept ∧ w = []) (.inl .refl) ?_
  intro w s e h he
  rcases (mem_edges_opt hf.start_lt).mp he with he | ⟨rfl, rfl⟩
  · rcases h with hw | ⟨rfl, -⟩
    · exact .inl (hw.step he)
    · exact absurd he hf.not_mem_edges_accept
  · rcases h with hw | ⟨h, -⟩
    · obtain rfl := hf.eq_nil_of_reads_start hw
      exact .inr ⟨rfl, rfl⟩
    · exact absurd h hf.start_ne_accept

theorem language_opt (hf : f.WellFormed) : f.opt.language = 1 + f.language := by
  ext w
  constructor
  · intro hw
    rcases reads_opt hf hw with h | ⟨-, rfl⟩
    · exact .inr h
    · exact .inl rfl
  · rintro (rfl | hw)
    · exact nil_mem_language_opt hf
    · exact spells_opt hf hw

theorem language_plus (hf : f.WellFormed) : f.plus.language = f.language * f.language∗ := by
  rw [plus, language_concat hf hf.star, language_star hf]

end ByteRegex.Fragment
