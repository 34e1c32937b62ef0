import ByteRegex.Proofs.Pattern.Build
import ByteRegex.Proofs.Thompson

/-!
# The fragment of a tree by recursion

Compiling the places of a tree one by one, with slots for what a parent has yet to take, comes to
the same as compiling the operands of a token and combining their fragments (`TokenTree.compile`).
The reason is that each slot is empty again when the parent has taken what is in it, so that a whole
subtree leaves nothing behind but the fragment of its root (`Thompson.foldlM_compileAt_eq`).

Main statement: the fragment of an arena is that of its token tree (`Nfa.ofTree_eq`).
-/

namespace ByteRegex

open Thompson

/-! ## Recursion -/

namespace Token

/-- The label of an operand, and the pool with its class. -/
def label (classes : Array ByteClass) : Token → Label × Array ByteClass
  | byte b => (.byte b, classes)
  | wildcard w => (.wildcard w, classes)
  | anchor a => (.anchor a, classes)
  | byteClass c => (.classRef (intern classes c).2, (intern classes c).1)
  | _ => (.epsilon, classes)

/-- What a token makes of the fragment of its operand. -/
def unaryFragment (cfg : Settings) : Token → Fragment → Except CompileError Fragment
  | op .plus, f => .ok f.plus
  | op .star, f => .ok f.star
  | op .opt, f => .ok f.opt
  | count min max, f => repeated cfg.budget f min max
  | t, _ => .error (.groupMark t)

/-- What a token makes of the fragments of its operands. -/
def binaryFragment (cfg : Settings) : Token → Fragment → Fragment → Fragment
  | op .concat, f, g => f.concat g
  | _, f, g => alternate cfg.fastUnion f g

end Token

/-- The fragment of a token tree, and the pool with its classes. -/
def TokenTree.compile (cfg : Settings) :
    TokenTree → Array ByteClass → Except CompileError (Fragment × Array ByteClass)
  | leaf t _, classes => do
    let f ← withinBudget cfg.budget (.leaf (t.label classes).1)
    return (f, (t.label classes).2)
  | unary t _ s, classes => do
    let (f, classes) ← s.compile cfg classes
    let g ← withinBudget cfg.budget (← t.unaryFragment cfg f)
    return (g, classes)
  | binary t _ a b, classes => do
    let (f, classes) ← a.compile cfg classes
    let (g, classes) ← b.compile cfg classes
    let h ← withinBudget cfg.budget (t.binaryFragment cfg f g)
    return (h, classes)

namespace TokenTree

variable {cfg : Settings} {t : Token} {s a b : TokenTree} {classes classes' : Array ByteClass}
  {f : Fragment}

theorem compile_leaf_eq_ok_iff {ht : t.role = .operand} :
    (leaf t ht).compile cfg classes = .ok (f, classes') ↔
      f = .leaf (t.label classes).1 ∧ classes' = (t.label classes).2 ∧ f.size ≤ cfg.budget := by
  constructor
  · intro h
    obtain ⟨g, hg, hpair⟩ := bind_eq_ok h
    obtain ⟨rfl, hsize⟩ := withinBudget_eq_ok_iff.mp hg
    obtain ⟨rfl, rfl⟩ := Prod.mk.inj (Except.ok.inj hpair)
    exact ⟨rfl, rfl, hsize⟩
  · rintro ⟨rfl, rfl, hsize⟩
    exact bind_of_eq_ok (withinBudget_eq_ok_iff.mpr ⟨rfl, hsize⟩)

theorem compile_unary_eq_ok_iff {ht : t.role = .unary} :
    (unary t ht s).compile cfg classes = .ok (f, classes') ↔
      ∃ g, s.compile cfg classes = .ok (g, classes') ∧ t.unaryFragment cfg g = .ok f ∧
        f.size ≤ cfg.budget := by
  constructor
  · intro h
    obtain ⟨⟨g, classes₁⟩, hg, h⟩ := bind_eq_ok h
    obtain ⟨k, hk, h⟩ := bind_eq_ok h
    obtain ⟨k', hk', hpair⟩ := bind_eq_ok h
    obtain ⟨rfl, hsize⟩ := withinBudget_eq_ok_iff.mp hk'
    obtain ⟨rfl, rfl⟩ := Prod.mk.inj (Except.ok.inj hpair)
    exact ⟨g, hg, hk, hsize⟩
  · rintro ⟨g, hg, hf, hsize⟩
    rw [compile, bind_of_eq_ok hg]
    dsimp only
    rw [bind_of_eq_ok hf, bind_of_eq_ok (withinBudget_eq_ok_iff.mpr ⟨rfl, hsize⟩)]
    rfl

theorem compile_binary_eq_ok_iff {ht : t.role = .binary} :
    (binary t ht a b).compile cfg classes = .ok (f, classes') ↔
      ∃ l r classes₁, a.compile cfg classes = .ok (l, classes₁) ∧
        b.compile cfg classes₁ = .ok (r, classes') ∧ f = t.binaryFragment cfg l r ∧
        f.size ≤ cfg.budget := by
  constructor
  · intro h
    obtain ⟨⟨l, classes₁⟩, hl, h⟩ := bind_eq_ok h
    obtain ⟨⟨r, classes₂⟩, hr, h⟩ := bind_eq_ok h
    obtain ⟨k, hk, hpair⟩ := bind_eq_ok h
    obtain ⟨rfl, hsize⟩ := withinBudget_eq_ok_iff.mp hk
    obtain ⟨rfl, rfl⟩ := Prod.mk.inj (Except.ok.inj hpair)
    exact ⟨l, r, classes₁, hl, hr, rfl, hsize⟩
  · rintro ⟨l, r, classes₁, hl, hr, rfl, hsize⟩
    rw [compile, bind_of_eq_ok hl]
    dsimp only
    rw [bind_of_eq_ok hr]
    dsimp only
    rw [bind_of_eq_ok (withinBudget_eq_ok_iff.mpr ⟨rfl, hsize⟩)]
    rfl

end TokenTree

namespace Thompson

variable {cfg : Settings} {nodes : Array Node} {classes : Array ByteClass} {id : Nat} {t : Token}
  {slots : Array (Option Fragment)} {f g : Fragment}

/-! ## Slots -/

/-- A slot that was empty is empty again when its fragment is taken. -/
theorem take_set (h : slots[id]? = some none) :
    take (slots.setIfInBounds id (some f)) (some id) t = .ok (f, slots) := by
  obtain ⟨hid, hnone⟩ := Array.getElem?_eq_some_iff.mp h
  have hself : slots.setIfInBounds id none = slots := by
    rw [← hnone, Array.setIfInBounds_def, dif_pos hid, Array.set_getElem_self]
  have hfound : (some id).bind ((slots.setIfInBounds id (some f))[·]?.join) = some f := by
    rw [Option.bind_some, Array.getElem?_setIfInBounds_self_of_lt hid, Option.join_some]
  rw [take, hfound]
  show Except.ok (f, (slots.setIfInBounds id (some f)).setIfInBounds id none) = _
  rw [Array.setIfInBounds_setIfInBounds, hself]

/-! ## One node -/

section Node

variable {x : Except CompileError Fragment} {w : Workshop} {node : Node}

theorem foldlM_compileAt_singleton (hn : nodes[id]? = some node)
    (h : compileNode cfg w node = x.map (·, ⟨classes, slots⟩)) :
    [id].foldlM (compileAt cfg nodes) w = (x >>= withinBudget cfg.budget).map fun f =>
      ⟨classes, slots.setIfInBounds id (some f)⟩ := by
  simp only [List.foldlM_cons, List.foldlM_nil, bind_pure]
  rw [compileAt, hn]
  show (compileNode cfg w node >>= _) = _
  rw [h]
  cases x with
  | error e => rfl
  | ok f =>
    show (withinBudget cfg.budget f >>= _) = (withinBudget cfg.budget f).map _
    cases withinBudget cfg.budget f <;> rfl

theorem compileNode_leaf (ht : t.role = .operand) :
    compileNode cfg ⟨classes, slots⟩ ⟨t, none, none⟩ =
      (Except.ok (Fragment.leaf (t.label classes).1)).map (·, ⟨(t.label classes).2, slots⟩) := by
  cases t with
  | op o => cases o <;> cases ht
  | count _ _ | openGroup | closeGroup => cases ht
  | _ => rfl

theorem compileNode_unary {c : Nat} (ht : t.role = .unary) (hc : slots[c]? = some none) :
    compileNode cfg ⟨classes, slots.setIfInBounds c (some f)⟩ ⟨t, some c, none⟩ =
      (t.unaryFragment cfg f).map (·, ⟨classes, slots⟩) := by
  have htake := take_set (t := t) (f := f) hc
  cases t with
  | op o =>
    cases o with
    | plus | star | opt =>
      simp only [compileNode, htake]
      rfl
    | concat | alternation | bracketAlternation => cases ht
  | count min max =>
    simp only [compileNode, htake]
    show (repeated cfg.budget f min max >>= _) = (repeated cfg.budget f min max).map _
    cases repeated cfg.budget f min max <;> rfl
  | _ => cases ht

theorem compileNode_binary {l r : Nat} (ht : t.role = .binary) (hl : slots[l]? = some none)
    (hr : slots[r]? = some none) (hlr : l ≠ r) :
    compileNode cfg ⟨classes, (slots.setIfInBounds l (some f)).setIfInBounds r (some g)⟩
        ⟨t, some l, some r⟩ =
      (Except.ok (t.binaryFragment cfg f g)).map (·, ⟨classes, slots⟩) := by
  have hleft : (slots.setIfInBounds r (some g))[l]? = some none := by
    rw [Array.getElem?_setIfInBounds_ne hlr.symm, hl]
  have htakel := take_set (t := t) (f := f) hleft
  have htaker := take_set (t := t) (f := g) hr
  rw [Array.setIfInBounds_comm _ _ hlr]
  cases t with
  | op o =>
    cases o with
    | concat | alternation | bracketAlternation =>
      simp only [compileNode, htakel]
      show (take (slots.setIfInBounds r (some g)) (some r) _ >>= _) = _
      rw [htaker]
      rfl
    | plus | star | opt => cases ht
  | _ => cases ht

end Node

/-! ## All nodes -/

/-- **Compiling the places of a tree leaves the fragment of its root in its slot**, and the slots
as they were otherwise. -/
theorem foldlM_compileAt_eq {s : TokenTree} {ids : List Nat} (h : Tree.Laid nodes id s ids)
    (hnodup : ids.Nodup) (hslots : ∀ i ∈ ids, slots[i]? = some none) :
    ids.foldlM (compileAt cfg nodes) ⟨classes, slots⟩ =
      (s.compile cfg classes).map fun p => ⟨p.2, slots.setIfInBounds id (some p.1)⟩ := by
  induction h generalizing classes slots with
  | @leaf id t ht hn =>
    rw [foldlM_compileAt_singleton hn (compileNode_leaf ht)]
    show (withinBudget cfg.budget _).map _ = Except.map _ (withinBudget cfg.budget _ >>= _)
    cases withinBudget cfg.budget (.leaf (t.label classes).1) <;> rfl
  | @unary id c t s ids ht hn hs ih =>
    obtain ⟨hids, -, -⟩ := List.nodup_append.mp hnodup
    have hslots' := fun i hi => hslots i (List.mem_append_left _ hi)
    rw [List.foldlM_append, ih hids hslots', TokenTree.compile]
    cases s.compile cfg classes with
    | error e => rfl
    | ok p =>
      obtain ⟨f, classes'⟩ := p
      show [id].foldlM _ _ = Except.map _ (t.unaryFragment cfg f >>= _)
      rw [foldlM_compileAt_singleton hn (compileNode_unary ht (hslots' c hs.root_mem))]
      cases t.unaryFragment cfg f with
      | error e => rfl
      | ok g =>
        show (withinBudget cfg.budget g).map _ = Except.map _ (withinBudget cfg.budget g >>= _)
        cases withinBudget cfg.budget g <;> rfl
  | @binary id l r t a b is js ht hn ha hb iha ihb =>
    obtain ⟨hisjs, -, -⟩ := List.nodup_append.mp hnodup
    obtain ⟨his, hjs, hdisjoint⟩ := List.nodup_append.mp hisjs
    have hleft := fun i hi => hslots i (List.mem_append_left _ (List.mem_append_left _ hi))
    have hright := fun i hi => hslots i (List.mem_append_left _ (List.mem_append_right _ hi))
    rw [List.foldlM_append, List.foldlM_append, iha his hleft, TokenTree.compile]
    cases a.compile cfg classes with
    | error e => rfl
    | ok p =>
      obtain ⟨f, classes₁⟩ := p
      -- the slot of the left operand is none of the right one's
      have hright' : ∀ j ∈ js, (slots.setIfInBounds l (some f))[j]? = some none := by
        intro j hj
        rw [Array.getElem?_setIfInBounds_ne (hdisjoint l ha.root_mem j hj), hright j hj]
      show (js.foldlM _ _ >>= _) = Except.map _ (b.compile cfg classes₁ >>= _)
      rw [ihb hjs hright']
      cases b.compile cfg classes₁ with
      | error e => rfl
      | ok p =>
        obtain ⟨g, classes₂⟩ := p
        show [id].foldlM _ _ = Except.map _ (withinBudget cfg.budget _ >>= _)
        rw [foldlM_compileAt_singleton hn (compileNode_binary ht (hleft l ha.root_mem)
          (hright r hb.root_mem) (hdisjoint l ha.root_mem r hb.root_mem))]
        show (withinBudget cfg.budget _).map _ = _
        cases withinBudget cfg.budget (t.binaryFragment cfg f g) <;> rfl

end Thompson

/-! ## Arenas -/

/-- **The fragment of an arena is that of its token tree.** -/
theorem Nfa.ofTree_eq {cfg : Settings} {tree : Tree} {root : Nat} {s : TokenTree} {ids : List Nat}
    (hroot : tree.root = some root) (h : Tree.Laid tree.nodes root s ids) (hnodup : ids.Nodup) :
    Nfa.ofTree cfg tree = (s.compile cfg #[]).map fun p => ⟨p.1, p.2⟩ := by
  have hempty : ∀ i ∈ ids,
      (Array.replicate tree.size (none : Option Fragment))[i]? = some none := by
    intro i hi
    exact Array.getElem?_replicate.trans (if_pos (h.lt_size i hi))
  have hlt := h.lt_size root h.root_mem
  rw [Nfa.ofTree, hroot, h.postorder_eq hroot]
  show (ids.foldlM (compileAt cfg tree.nodes) ⟨#[], Array.replicate tree.size none⟩ >>= _) = _
  rw [foldlM_compileAt_eq h hnodup hempty, Array.getElem?_eq_getElem hlt]
  cases s.compile cfg #[] with
  | error e => rfl
  | ok p =>
    obtain ⟨f, classes⟩ := p
    show (take _ (some root) _ >>= _) = _
    rw [take_set (hempty root h.root_mem)]
    rfl

/-- **A token tree that is built into an arena has the fragment of that arena.** -/
theorem Nfa.ofTree_eq_of_ofOrdered {cfg : Settings} {tree : Tree} {s : TokenTree}
    (h : Tree.ofOrdered s.ordered = .ok tree) :
    Nfa.ofTree cfg tree = (s.compile cfg #[]).map fun p => ⟨p.1, p.2⟩ := by
  obtain ⟨root, hroot, hlaid⟩ := Tree.laid_of_ofOrdered h
  exact ofTree_eq hroot hlaid List.nodup_range

end ByteRegex
