import ByteRegex.Proofs.Thompson.Built

/-!
# What compiling leaves in the slots

The tree of a pattern gives each operator the operands that it asks for, but other arenas need not:
children may be shared, or there for operands that have none. Whatever the arena, compiling a node
makes a fragment of one edge or combines fragments that it takes from slots
(`Thompson.compileNode_cases`). So if all fragments in slots were built by the operations, they
still are after any number of nodes, in whichever order the nodes come.

Main statement: the six facts that the operations rely on hold of every fragment that the
operations build, and of that of any arena (`Fragment.built_invariant`).
-/

namespace ByteRegex

open Fragment Thompson

namespace Thompson

variable {cfg : Settings} {nodes : Array Node} {node : Node} {w w' : Workshop} {id : Nat}
  {slots slots' : Array (Option Fragment)} {child : Option Nat} {t : Token} {f : Fragment}

/-! ## One node -/

/-- A node with one operand takes it and applies what its token stands for. -/
theorem compileNode_of_unary {left right : Option Nat} {classes : Array ByteClass}
    (ht : t.role = .unary) : compileNode cfg ⟨classes, slots⟩ ⟨t, left, right⟩ = (do
      let (f, slots) ← take slots left t
      return (← t.unaryFragment cfg f, ⟨classes, slots⟩)) := by
  cases t with
  | op o => cases o <;> first | rfl | cases ht
  | count min max => rfl
  | _ => cases ht

/-- A node with two operands takes both, and combines them. -/
theorem compileNode_of_binary {left right : Option Nat} {classes : Array ByteClass}
    (ht : t.role = .binary) : compileNode cfg ⟨classes, slots⟩ ⟨t, left, right⟩ = (do
      let (f, slots) ← take slots left t
      let (g, slots) ← take slots right t
      return (t.binaryFragment cfg f g, ⟨classes, slots⟩)) := by
  cases t with
  | op o => cases o <;> first | rfl | cases ht
  | _ => cases ht

/-- **What compiling a node can do**: make a fragment of one edge, or take the fragments of one or
two operands and combine them. -/
theorem compileNode_cases (h : compileNode cfg w node = .ok (f, w')) :
    (∃ label, f = .leaf label ∧ w'.slots = w.slots) ∨
    (∃ g, take w.slots node.left node.token = .ok (g, w'.slots) ∧
      node.token.unaryFragment cfg g = .ok f) ∨
    (∃ l r slots₁, take w.slots node.left node.token = .ok (l, slots₁) ∧
      take slots₁ node.right node.token = .ok (r, w'.slots) ∧
      f = node.token.binaryFragment cfg l r) := by
  obtain ⟨token, left, right⟩ := node
  cases token with
  | byte _ | wildcard _ | anchor _ | byteClass _ =>
    obtain ⟨rfl, rfl⟩ := Prod.mk.inj (Except.ok.inj h)
    exact .inl ⟨_, rfl, rfl⟩
  | count min max =>
    obtain ⟨⟨g, slots'⟩, hg, h⟩ := bind_eq_ok h
    obtain ⟨k, hk, h⟩ := bind_eq_ok h
    obtain ⟨rfl, rfl⟩ := Prod.mk.inj (Except.ok.inj h)
    exact .inr (.inl ⟨g, hg, hk⟩)
  | op o =>
    cases o with
    | plus | star | opt =>
      obtain ⟨⟨g, slots'⟩, hg, h⟩ := bind_eq_ok h
      obtain ⟨rfl, rfl⟩ := Prod.mk.inj (Except.ok.inj h)
      exact .inr (.inl ⟨g, hg, rfl⟩)
    | concat | alternation | bracketAlternation =>
      obtain ⟨⟨l, slots₁⟩, hl, h⟩ := bind_eq_ok h
      obtain ⟨⟨r, slots₂⟩, hr, h⟩ := bind_eq_ok h
      obtain ⟨rfl, rfl⟩ := Prod.mk.inj (Except.ok.inj h)
      exact .inr (.inr ⟨l, r, slots₁, hl, hr, rfl⟩)
  | openGroup | closeGroup => cases h

/-! ## All nodes -/

/-- All fragments in slots were built by the operations. -/
def AllBuilt (slots : Array (Option Fragment)) : Prop :=
  ∀ f, some f ∈ slots → f.Built

theorem allBuilt_start (t : Tree) : AllBuilt (Workshop.start t).slots := by
  intro f hf
  cases Array.eq_of_mem_replicate hf

theorem AllBuilt.put (h : AllBuilt slots) (hf : f.Built) :
    AllBuilt (slots.setIfInBounds id (some f)) := by
  intro g hg
  rcases Array.mem_or_eq_of_mem_setIfInBounds hg with hg | hg
  · exact h g hg
  · exact Option.some.inj hg ▸ hf

/-- What is taken was in a slot, and so is whatever is left. -/
theorem mem_of_take (h : take slots child t = .ok (f, slots')) :
    some f ∈ slots ∧ ∀ g, some g ∈ slots' → some g ∈ slots := by
  unfold take at h
  split at h
  · next g hg =>
    obtain ⟨rfl, rfl⟩ := Prod.mk.inj (Except.ok.inj h)
    obtain ⟨c, -, hc⟩ := Option.bind_eq_some_iff.mp hg
    refine ⟨Array.mem_of_getElem? (Option.join_eq_some_iff.mp hc), fun k hk => ?_⟩
    rcases Array.mem_or_eq_of_mem_setIfInBounds hk with hk | hk
    · exact hk
    · cases hk
  · cases h

theorem allBuilt_of_take (h : AllBuilt slots) (htake : take slots child t = .ok (f, slots')) :
    f.Built ∧ AllBuilt slots' := by
  obtain ⟨hf, hslots⟩ := mem_of_take htake
  exact ⟨h f hf, fun k hk => h k (hslots k hk)⟩

theorem allBuilt_of_compileNode (hw : AllBuilt w.slots)
    (h : compileNode cfg w node = .ok (f, w')) : f.Built ∧ AllBuilt w'.slots := by
  rcases compileNode_cases h with ⟨label, rfl, hslots⟩ | ⟨g, hg, hf⟩ | ⟨l, r, slots₁, hl, hr, rfl⟩
  · exact ⟨.leaf label, hslots ▸ hw⟩
  · obtain ⟨hg, hw'⟩ := allBuilt_of_take hw hg
    exact ⟨Token.built_unaryFragment hg hf, hw'⟩
  · obtain ⟨hl, hw₁⟩ := allBuilt_of_take hw hl
    obtain ⟨hr, hw'⟩ := allBuilt_of_take hw₁ hr
    exact ⟨Token.built_binaryFragment hl hr, hw'⟩

/-- **Nothing but the operations fills slots.** -/
theorem allBuilt_of_compileAt (hw : AllBuilt w.slots) (h : compileAt cfg nodes w id = .ok w') :
    AllBuilt w'.slots := by
  unfold compileAt at h
  split at h
  · exact Except.ok.inj h ▸ hw
  · obtain ⟨⟨f, w₁⟩, hf, h⟩ := bind_eq_ok h
    obtain ⟨g, hg, hw'⟩ := bind_eq_ok h
    obtain rfl := eq_of_withinBudget hg
    obtain rfl := Except.ok.inj hw'
    obtain ⟨hf, hw₁⟩ := allBuilt_of_compileNode hw hf
    exact hw₁.put hf

end Thompson

/-! ## Arenas -/

variable {cfg : Settings} {t : Tree} {nfa : Nfa} {f : Fragment}

/-- **The fragment of any arena is built by the operations.** -/
theorem Nfa.built_of_ofTree (h : ofTree cfg t = .ok nfa) : nfa.fragment.Built := by
  unfold ofTree at h
  split at h
  · exact Except.ok.inj h ▸ .epsilon
  · obtain ⟨w, hw, h⟩ := bind_eq_ok h
    have hbuilt := foldlM_invariant allBuilt_of_compileAt (allBuilt_start t) hw
    split at h
    · exact Except.ok.inj h ▸ .epsilon
    · obtain ⟨⟨f, slots⟩, hf, h⟩ := bind_eq_ok h
      exact Except.ok.inj h ▸ (allBuilt_of_take hbuilt hf).1

/-- **What the operations on fragments rely on holds of all that they build**, and of the fragment
of any arena, well formed or not: the start is not the accepting state; edges lead to states, but
not to the start, and not away from the accepting state; every state is reached from the start and
reaches the accepting state; and with two states, every edge leads from the one to the other. -/
theorem Fragment.built_invariant
    (h : f.Built ∨ ∃ cfg t nfa, Nfa.ofTree cfg t = .ok nfa ∧ nfa.fragment = f) :
    f.start < f.size ∧ f.accept < f.size ∧ f.start ≠ f.accept ∧
    (∀ s, ∀ e ∈ f.edges s, e.target < f.size ∧ e.target ≠ f.start ∧ s ≠ f.accept) ∧
    (∀ s < f.size, (∃ w, f.Reads w s) ∧ ∃ w, Spells f.edges s w f.accept) ∧
    (f.isTwoState = true → ∀ s, ∀ e ∈ f.edges s, s = f.start ∧ e.target = f.accept) := by
  have hbuilt : f.Built := by
    rcases h with h | ⟨cfg, t, nfa, h, rfl⟩
    · exact h
    · exact Nfa.built_of_ofTree h
  have hwf := hbuilt.wellFormed
  have htrim := hbuilt.trim
  refine ⟨hwf.start_lt, hwf.accept_lt, hwf.start_ne_accept, fun s e he => ?_, fun s hs => ?_,
    fun h2 s e he => hwf.edge_of_isTwoState h2 he⟩
  · exact ⟨hwf.target_lt he, hwf.target_ne_start he, hwf.ne_accept_of_mem_edges he⟩
  · exact ⟨htrim.reached hs, htrim.finishes hs⟩

/-- A star whose operand is there once more as a right child, which a star does not ask for. -/
theorem Fragment.built_invariant_surplus_child :
    ∃ t : Tree, t = ⟨#[⟨.byte 0x61, none, none⟩, ⟨.op .star, some 0, some 0⟩], some 1⟩ ∧
      ∃ nfa, Nfa.ofTree {} t = .ok nfa ∧ nfa.fragment.size = 4 ∧
        (∀ s, ∀ e ∈ nfa.fragment.edges s, e.target < 4 ∧ e.target ≠ 2 ∧ s ≠ 3) ∧
        ∀ s < 4, (∃ w, nfa.fragment.Reads w s) ∧ ∃ w, Spells nfa.fragment.edges s w 3 := by
  have h : Nfa.ofTree {} ⟨#[⟨.byte 0x61, none, none⟩, ⟨.op .star, some 0, some 0⟩], some 1⟩ =
      .ok ⟨(leaf (.byte 0x61)).star, #[]⟩ := rfl
  obtain ⟨-, -, -, hedges, hpaths, -⟩ := Fragment.built_invariant (.inr ⟨_, _, _, h, rfl⟩)
  exact ⟨_, rfl, _, h, rfl, hedges, hpaths⟩

end ByteRegex
