import ByteRegex.Proofs.Thompson.Failure

/-!
# How large the fragment of a tree is

How many states a combination of fragments has follows from how many its operands have, so each node
of a tree has a size (`TokenTree.states`) that is known before anything is built.

The budget is checked at every node, and within a repetition count also copy by copy. None of these
checks is stricter than that of the node, because what is built on the way is no larger than what
comes of it. `Needs` says what a computation has to be given: a computation that needs `n` states
succeeds, or `n` is beyond the budget. A part of a computation may need less (`Needs.bind`), and a
tree needs what its largest node does (`TokenTree.needs_compile`).
-/

namespace ByteRegex

open Fragment Thompson

/-! ## Sizes -/

namespace Token

/-- How many states a token makes of an operand with `n` states. -/
def unaryStates : Token → Nat → Nat
  | op .star, n => n + 2
  | op .opt, n => n
  | op .plus, n => 2 * n + 1
  | count min none, n => min * (n - 1) + n + 2
  | count min (some max), n =>
    if min < max then max * (n - 1) + 1
    else if min = 0 then 2
    else min * (n - 1) + 1
  | _, _ => 0

section Count

variable {min max : Nat}

/-! Each copy but the first adds all states of the operand but one. -/

theorem unaryStates_count_none (d : Nat) :
    (count min none).unaryStates (d + 1) = 1 + min * d + (d + 2) := by
  rw [unaryStates, Nat.add_sub_cancel]
  omega

theorem unaryStates_count_some (k d : Nat) :
    (count min (some (min + k + 1))).unaryStates (d + 1) = 1 + min * d + (k + 1) * d := by
  rw [unaryStates, if_pos (by omega), Nat.add_sub_cancel]
  ring

theorem unaryStates_count_of_le (h : max ≤ min) (d : Nat) :
    (count min (some max)).unaryStates (d + 1) = if min = 0 then 2 else min * d + 1 := by
  rw [unaryStates, if_neg (Nat.not_lt_of_le h), Nat.add_sub_cancel]

end Count

/-- How many states a token makes of operands with `l` and `r` states. -/
def binaryStates (fastUnion : Bool) : Token → Nat → Nat → Nat
  | op .concat, l, r => l + r - 1
  | _, l, r =>
    if fastUnion && r == 2 then l
    else if fastUnion && l == 2 then r
    else l + r + 2

end Token

namespace TokenTree

/-- How many states the fragment of a token tree has, if the budget allows it. -/
def states (fastUnion : Bool) : TokenTree → Nat
  | leaf _ _ => 2
  | unary t _ s => t.unaryStates (s.states fastUnion)
  | binary t _ a b => t.binaryStates fastUnion (a.states fastUnion) (b.states fastUnion)

/-- How many states the largest fragment of a node has. -/
def peak (fastUnion : Bool) : TokenTree → Nat
  | leaf _ _ => 2
  | unary t _ s => max (s.peak fastUnion) (t.unaryStates (s.states fastUnion))
  | binary t _ a b => max (max (a.peak fastUnion) (b.peak fastUnion))
      (t.binaryStates fastUnion (a.states fastUnion) (b.states fastUnion))

end TokenTree

/-- A well-formed fragment with `n` states. -/
structure Fragment.Measures (f : Fragment) (n : Nat) : Prop where
  wellFormed : f.WellFormed
  size : f.size = n

variable {budget d k m n w : Nat} {cfg : Settings} {t : Token}
  {f left right piece tail : Fragment} {whole : Option Fragment}

namespace Fragment.Measures

theorem leaf (label : Label) : (Fragment.leaf label).Measures 2 := ⟨.leaf label, rfl⟩

theorem concat (hl : left.Measures m) (hr : right.Measures n) :
    (left.concat right).Measures (m + n - 1) :=
  ⟨hl.wellFormed.concat hr.wellFormed, by
    rw [size_concat hr.wellFormed.start_lt, hl.size, hr.size]⟩

theorem star (hf : f.Measures n) : f.star.Measures (n + 2) :=
  ⟨hf.wellFormed.star, by rw [size_star, hf.size]⟩

theorem opt (hf : f.Measures n) : f.opt.Measures n := ⟨hf.wellFormed.opt, by rw [size_opt, hf.size]⟩

theorem plus (hf : f.Measures n) : f.plus.Measures (2 * n + 1) := by
  have h := hf.concat hf.star
  rwa [show n + (n + 2) - 1 = 2 * n + 1 by omega] at h

theorem alternate (fastUnion : Bool) (hl : left.Measures m) (hr : right.Measures n) :
    (Thompson.alternate fastUnion left right).Measures
      (if fastUnion && n == 2 then m else if fastUnion && m == 2 then n else m + n + 2) := by
  unfold Thompson.alternate isTwoState
  rw [hl.size, hr.size]
  split
  · exact ⟨hl.wellFormed.fastUnion, by rw [size_fastUnion, hl.size]⟩
  · split
    · exact ⟨hr.wellFormed.fastUnion, by rw [size_fastUnion, hr.size]⟩
    · exact ⟨hl.wellFormed.union hr.wellFormed, by rw [size_union, hl.size, hr.size]⟩

theorem binaryFragment (hl : left.Measures m) (hr : right.Measures n) :
    (t.binaryFragment cfg left right).Measures (t.binaryStates cfg.fastUnion m n) := by
  cases t with
  | op o =>
    cases o with
    | concat => exact hl.concat hr
    | _ => exact alternate cfg.fastUnion hl hr
  | _ => exact alternate cfg.fastUnion hl hr

end Fragment.Measures

/-! ## What a computation needs -/

namespace Thompson

variable {α β : Type} {P P' : α → Prop} {Q : β → Prop}

/-- A computation yields a value with a property, or fails because `n` states are too many. -/
inductive Needs (budget n : Nat) (P : α → Prop) : Except CompileError α → Prop where
  | ok {a : α} : P a → Needs budget n P (.ok a)
  | error : budget < n → Needs budget n P (.error (.budgetExceeded budget))

/-- What comes first must not need more than the whole. -/
theorem Needs.bind {x : Except CompileError α} {f : α → Except CompileError β}
    (hx : Needs budget m P x) (hle : m ≤ n) (hf : ∀ a, P a → Needs budget n Q (f a)) :
    Needs budget n Q (x >>= f) := by
  cases hx with
  | ok h => exact hf _ h
  | error h => exact .error (Nat.lt_of_lt_of_le h hle)

theorem Needs.map {x : Except CompileError α} (f : α → β) (hx : Needs budget n P x)
    (h : ∀ a, P a → Q (f a)) : Needs budget n Q (x.map f) := by
  cases hx with
  | ok hP => exact .ok (h _ hP)
  | error hlt => exact .error hlt

theorem Needs.mono {x : Except CompileError α} (hx : Needs budget n P x) (h : ∀ a, P a → P' a) :
    Needs budget n P' x := by
  cases hx with
  | ok hP => exact .ok (h _ hP)
  | error hlt => exact .error hlt

theorem Needs.exists_ok {x : Except CompileError α} (hx : Needs budget n P x) (hle : n ≤ budget) :
    ∃ a, x = .ok a ∧ P a := by
  cases hx with
  | ok hP => exact ⟨_, rfl, hP⟩
  | error hlt => exact absurd hle (Nat.not_le_of_lt hlt)

theorem Needs.eq_error_iff {x : Except CompileError α} (hx : Needs budget n P x)
    (hle : ∀ a, P a → n ≤ budget) : x = .error (.budgetExceeded budget) ↔ budget < n := by
  cases hx with
  | ok hP => exact iff_of_false (fun h => nomatch h) (Nat.not_lt_of_le (hle _ hP))
  | error hlt => exact iff_of_true rfl hlt

theorem needs_withinBudget (hf : f.Measures n) :
    Needs budget n (fun g => g.Measures n ∧ n ≤ budget) (withinBudget budget f) := by
  unfold withinBudget
  rw [hf.size]
  split
  · next hle => exact .ok ⟨hf, hle⟩
  · next hgt => exact .error (Nat.lt_of_not_le hgt)

/-! ### Repetition counts -/

/-- What was built so far has `n` states. Nothing counts as one state, because concatenation saves
one. -/
def WholeMeasures : Option Fragment → Nat → Prop
  | none, n => n = 1
  | some f, n => f.Measures n

theorem needs_append (hw : WholeMeasures whole w) (hp : piece.Measures (m + 1)) :
    Needs budget (w + m) (·.Measures (w + m)) (append budget whole piece) := by
  cases whole with
  | none =>
    obtain rfl := hw
    rw [Nat.add_comm]
    exact (needs_withinBudget hp).mono fun g hg => hg.1
  | some f => exact (needs_withinBudget (Measures.concat hw hp)).mono fun g hg => hg.1

theorem needs_appendCopies (hw : WholeMeasures whole w) (hp : piece.Measures (d + 1)) :
    Needs budget (w + k * d) (WholeMeasures · (w + k * d)) (appendCopies budget piece k whole) := by
  induction k generalizing whole w with
  | zero => exact .ok (by rwa [Nat.zero_mul])
  | succ k ih =>
    rw [show w + (k + 1) * d = w + d + k * d by ring]
    refine (needs_append hw hp).bind (Nat.le_add_right _ _) fun g hg => ?_
    have hw' : WholeMeasures (some g) (w + d) := hg
    exact ih hw'

theorem needs_nestOptional (ht : tail.Measures m) (hp : piece.Measures (d + 1)) :
    Needs budget (m + k * d) (·.Measures (m + k * d)) (nestOptional budget piece k tail) := by
  induction k generalizing tail m with
  | zero => exact .ok (by rwa [Nat.zero_mul])
  | succ k ih =>
    have hhead : (piece.concat tail).opt.Measures (m + d) := by
      rw [show m + d = d + 1 + m - 1 by omega]
      exact (hp.concat ht).opt
    rw [show m + (k + 1) * d = m + d + k * d by ring]
    exact (needs_withinBudget hhead).bind (Nat.le_add_right _ _) fun g hg => ih hg.1

/-- Nothing at all becomes the fragment of the empty text. -/
theorem WholeMeasures.getD (hd : 0 < d) (h : WholeMeasures whole (1 + m * d)) :
    (whole.getD .epsilon).Measures (if m = 0 then 2 else m * d + 1) := by
  cases whole with
  | none =>
    have hm : m * d = 0 := Nat.add_left_cancel (h : 1 + m * d = 1 + 0)
    rw [if_pos ((Nat.mul_eq_zero.mp hm).resolve_right (Nat.ne_of_gt hd))]
    exact .leaf .epsilon
  | some f =>
    have hf : f.Measures (1 + m * d) := h
    have hm : m ≠ 0 := by
      rintro rfl
      have := hf.wellFormed.two_le_size
      have := hf.size
      omega
    rw [if_neg hm, Nat.add_comm]
    exact hf

/-- **A repetition count needs no more states on the way than it has in the end.** -/
theorem needs_repeated {min : Nat} {max : Option Nat} (hp : piece.Measures n) :
    Needs budget ((Token.count min max).unaryStates n)
      (·.Measures ((Token.count min max).unaryStates n)) (repeated budget piece min max) := by
  have htwo := hp.wellFormed.two_le_size
  rw [hp.size] at htwo
  obtain ⟨d, rfl⟩ := Nat.exists_eq_add_of_le' (Nat.le_of_succ_le htwo)
  have hcopies : Needs budget _ _ (appendCopies budget piece min none) :=
    needs_appendCopies (w := 1) rfl hp
  cases max with
  | none =>
    rw [Token.unaryStates_count_none]
    exact hcopies.bind (Nat.le_add_right _ _) fun whole hwhole => needs_append hwhole hp.star
  | some max =>
    by_cases hlt : min < max
    · obtain ⟨k, rfl⟩ := Nat.exists_eq_add_of_lt hlt
      rw [Token.unaryStates_count_some]
      refine hcopies.bind (Nat.le_add_right _ _) fun whole hwhole => ?_
      dsimp only
      rw [if_pos hlt, show min + k + 1 - min - 1 = k by omega]
      have htail : Needs budget _ _ (nestOptional budget piece k piece.opt) :=
        needs_nestOptional hp.opt hp
      rw [show d + 1 + k * d = (k + 1) * d + 1 by ring] at htail
      exact htail.bind (by omega) fun tail htail => needs_append hwhole htail
    · rw [Token.unaryStates_count_of_le (Nat.le_of_not_lt hlt)]
      refine hcopies.bind ?_ fun whole hwhole => ?_
      · split
        · next h => rw [h, Nat.zero_mul]; decide
        · omega
      · dsimp only
        rw [if_neg hlt]
        exact .ok (hwhole.getD (Nat.le_of_succ_le_succ htwo))

end Thompson

/-! ## Trees -/

theorem Token.needs_unaryFragment (ht : t.role = .unary) (hf : f.Measures n) :
    Needs cfg.budget (t.unaryStates n) (·.Measures (t.unaryStates n)) (t.unaryFragment cfg f) := by
  cases t with
  | op o =>
    cases o with
    | plus => exact .ok hf.plus
    | star => exact .ok hf.star
    | opt => exact .ok hf.opt
    | concat | alternation | bracketAlternation => cases ht
  | count min max => exact needs_repeated hf
  | _ => cases ht

/-- **A token tree needs what its largest node needs.** -/
theorem TokenTree.needs_compile (s : TokenTree) (classes : Array ByteClass) :
    Needs cfg.budget (s.peak cfg.fastUnion)
      (fun p => p.1.Measures (s.states cfg.fastUnion) ∧ s.peak cfg.fastUnion ≤ cfg.budget)
      (s.compile cfg classes) := by
  induction s generalizing classes with
  | leaf t ht =>
    exact (needs_withinBudget (.leaf _)).bind (Nat.le_refl 2) fun f hf => .ok hf
  | unary t ht s ih =>
    refine (ih classes).bind (Nat.le_max_left _ _) fun p hp => ?_
    refine (Token.needs_unaryFragment ht hp.1).bind (Nat.le_max_right _ _) fun g hg => ?_
    refine (needs_withinBudget hg).bind (Nat.le_max_right _ _) fun k hk => ?_
    exact .ok ⟨hk.1, Nat.max_le.mpr ⟨hp.2, hk.2⟩⟩
  | binary t ht a b iha ihb =>
    have hpeak := Nat.le_max_left (max (a.peak cfg.fastUnion) (b.peak cfg.fastUnion))
      (t.binaryStates cfg.fastUnion (a.states cfg.fastUnion) (b.states cfg.fastUnion))
    obtain ⟨ha, hb⟩ := Nat.max_le.mp hpeak
    refine (iha classes).bind ha fun p hp => ?_
    refine (ihb p.2).bind hb fun q hq => ?_
    have hnode : (t.binaryFragment cfg p.1 q.1).Measures _ := hp.1.binaryFragment hq.1
    refine (needs_withinBudget hnode).bind (Nat.le_max_right _ _) fun k hk => ?_
    exact .ok ⟨hk.1, Nat.max_le.mpr ⟨Nat.max_le.mpr ⟨hp.2, hq.2⟩, hk.2⟩⟩

namespace Tree

variable {nodes : Array Node} {id root : Nat} {s : TokenTree} {ids : List Nat} {tree : Tree}
  {fastUnion : Bool}

theorem Holds.exists_iff {R : TokenTree → Prop} (h : Holds nodes id s) :
    (∃ u, Holds nodes id u ∧ R u) ↔ R s := by
  constructor
  · rintro ⟨u, hu, hR⟩
    exact h.unique hu ▸ hR
  · exact fun hR => ⟨s, h, hR⟩

/-- The budget is below the peak where it is below the size of some node. -/
theorem Laid.lt_peak_iff (h : Laid nodes id s ids) :
    budget < s.peak fastUnion ↔
      ∃ i ∈ ids, ∃ u, Holds nodes i u ∧ budget < u.states fastUnion := by
  induction h with
  | leaf ht hn =>
    simp only [List.mem_singleton, exists_eq_left, (Holds.leaf ht hn).exists_iff]
    rfl
  | unary ht hn hs ih =>
    have hid := (Holds.unary ht hn hs.holds).exists_iff (R := fun u => budget < u.states fastUnion)
    simp only [List.mem_append, List.mem_singleton, or_and_right, exists_or, exists_eq_left, hid,
      ← ih]
    exact lt_max_iff
  | binary ht hn ha hb iha ihb =>
    have hid := (Holds.binary ht hn ha.holds hb.holds).exists_iff
      (R := fun u => budget < u.states fastUnion)
    simp only [List.mem_append, List.mem_singleton, or_and_right, exists_or, exists_eq_left, hid,
      ← iha, ← ihb]
    exact lt_max_iff.trans (or_congr_left lt_max_iff)

end Tree

namespace Nfa

variable {tree : Tree} {root : Nat} {s : TokenTree} {ids : List Nat}

/-- **The fragment of an arena has as many states as its token tree, unless some node has too
many.** -/
theorem needs_ofTree (hroot : tree.root = some root) (h : Tree.Laid tree.nodes root s ids)
    (hnodup : ids.Nodup) (cfg : Settings) :
    Needs cfg.budget (s.peak cfg.fastUnion)
      (fun nfa => nfa.fragment.size = s.states cfg.fastUnion ∧ s.peak cfg.fastUnion ≤ cfg.budget)
      (ofTree cfg tree) := by
  rw [ofTree_eq hroot h hnodup]
  exact (s.needs_compile #[]).map _ fun p hp => ⟨hp.1.size, hp.2⟩

end Nfa

end ByteRegex
