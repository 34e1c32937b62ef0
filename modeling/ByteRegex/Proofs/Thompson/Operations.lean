import ByteRegex.Proofs.Thompson.Size
import ByteRegex.Proofs.Thompson.Slots

/-!
# The operations that a construction performs

A fragment is checked against the budget after it was built, so some fragments are larger than the
budget allows, if only for a moment. How much larger is a question about the operations that are
performed on the way, also of those whose results are refused. `Recorded` computations keep a record
of them, and the recorded construction comes to the result of the other one
(`Nfa.result_recorded`).

The invariant is `Recorded.Keeps`. Slots hold fragments that were checked, and no operation is
applied to more than one unchecked fragment, which is a star of a checked one; that bounds every
operation, on any arena. The record is complete: the fragment of the tree is made by the recorded
operations of fragments of one edge (`Made`), and so is a fragment that is refused.

Main statement: the budget is exact (`Nfa.budget_exact`).
-/

namespace ByteRegex

open Fragment Thompson

namespace Thompson

/-! ## Records -/

/-- An operation on fragments, with its operands. -/
inductive Operation where
  | concat (left right : Fragment)
  | union (left right : Fragment)
  | fastUnion (left right : Fragment)
  | star (f : Fragment)
  | opt (f : Fragment)
  | plus (f : Fragment)
deriving DecidableEq

/-- What an operation makes of its operands. -/
def Operation.result : Operation → Fragment
  | concat left right => left.concat right
  | union left right => left.union right
  | fastUnion left right => left.fastUnion right
  | star f => f.star
  | opt f => f.opt
  | plus f => f.plus

/-- The operands of an operation. -/
def Operation.operands : Operation → List Fragment
  | concat left right | union left right | fastUnion left right => [left, right]
  | star f | opt f | plus f => [f]

/-- A fragment that some operations make of fragments of one edge. -/
inductive Made (ops : List Operation) : Fragment → Prop where
  | leaf (label : Label) : Made ops (.leaf label)
  | result {op : Operation} : op ∈ ops → (∀ f ∈ op.operands, Made ops f) → Made ops op.result

/-- A computation that may fail, and the operations that it performs before it ends. -/
structure Recorded (α : Type) where
  result : Except CompileError α
  performed : List Operation

namespace Recorded

variable {α β : Type} {budget bound n : Nat} {P : α → Prop} {Q : β → Prop} {x : Recorded α}
  {f : α → Recorded β}

/-- What follows a failure is not performed. -/
protected def bind (x : Recorded α) (f : α → Recorded β) : Recorded β :=
  match x.result with
  | .ok a => ⟨(f a).result, x.performed ++ (f a).performed⟩
  | .error e => ⟨.error e, x.performed⟩

instance : Monad Recorded where
  pure a := ⟨.ok a, []⟩
  bind := Recorded.bind

/-- Perform an operation. -/
def perform (op : Operation) : Recorded Fragment := ⟨.ok op.result, [op]⟩

/-- A computation that performs no operation. -/
def ofExcept (x : Except CompileError α) : Recorded α := ⟨x, []⟩

@[simp] theorem result_pure (a : α) : (pure a : Recorded α).result = .ok a := rfl

@[simp] theorem result_perform (op : Operation) : (perform op).result = .ok op.result := rfl

@[simp] theorem result_ofExcept (x : Except CompileError α) : (ofExcept x).result = x := rfl

@[simp] theorem result_bind (x : Recorded α) (f : α → Recorded β) :
    (x >>= f).result = x.result >>= fun a => (f a).result := by
  obtain ⟨r, performed⟩ := x
  cases r <;> rfl

theorem result_foldlM (step : β → α → Recorded β) (l : List α) (b : β) :
    (l.foldlM step b).result = l.foldlM (fun b a => (step b a).result) b := by
  induction l generalizing b with
  | nil => rfl
  | cons a l ih =>
    rw [List.foldlM_cons, List.foldlM_cons, result_bind]
    exact congrArg _ (funext ih)

/-! ### Combinations -/

/-- Passing through a fragment once or more is a concatenation with its star. -/
def plus (f : Fragment) : Recorded Fragment := do
  let tail ← perform (.star f)
  let _ ← perform (.concat f tail)
  perform (.plus f)

/-- Either of two fragments. -/
def alternate (fastUnion : Bool) (left right : Fragment) : Recorded Fragment :=
  if fastUnion && right.isTwoState then perform (.fastUnion left right)
  else if fastUnion && left.isTwoState then perform (.fastUnion right left)
  else perform (.union left right)

/-- A piece behind what there is already, if anything. -/
def append (budget : Nat) (whole : Option Fragment) (piece : Fragment) : Recorded Fragment := do
  let whole ← match whole with
    | none => pure piece
    | some whole => perform (.concat whole piece)
  ofExcept (withinBudget budget whole)

/-- A number of copies behind what there is already. -/
def appendCopies (budget : Nat) (piece : Fragment) :
    Nat → Option Fragment → Recorded (Option Fragment)
  | 0, whole => pure whole
  | n + 1, whole => do
    let whole ← append budget whole piece
    appendCopies budget piece n (some whole)

/-- A number of optional copies in front, each around all that follows. -/
def nestOptional (budget : Nat) (piece : Fragment) : Nat → Fragment → Recorded Fragment
  | 0, tail => pure tail
  | n + 1, tail => do
    let head ← perform (.concat piece tail)
    let head ← perform (.opt head)
    let tail ← ofExcept (withinBudget budget head)
    nestOptional budget piece n tail

/-- From `min` to `max` copies of a fragment; without `max`, any number from `min` on. -/
def repeated (budget : Nat) (piece : Fragment) (min : Nat) (max : Option Nat) :
    Recorded Fragment := do
  let whole ← appendCopies budget piece min none
  match max with
  | none => append budget whole (← perform (.star piece))
  | some max =>
    if min < max then
      let tail ← perform (.opt piece)
      append budget whole (← nestOptional budget piece (max - min - 1) tail)
    else return whole.getD .epsilon

/-! ### Nodes -/

/-- What a token makes of the fragment of its operand. -/
def unaryFragment (cfg : Settings) : Token → Fragment → Recorded Fragment
  | .op .plus, f => plus f
  | .op .star, f => perform (.star f)
  | .op .opt, f => perform (.opt f)
  | .count min max, f => repeated cfg.budget f min max
  | t, _ => ofExcept (.error (.groupMark t))

/-- What a token makes of the fragments of its operands. -/
def binaryFragment (cfg : Settings) : Token → Fragment → Fragment → Recorded Fragment
  | .op .concat, f, g => perform (.concat f g)
  | _, f, g => alternate cfg.fastUnion f g

/-- The fragment of a node whose children have been compiled. A node without operands takes no
operation. -/
def compileNode (cfg : Settings) (w : Workshop) (node : Node) : Recorded (Fragment × Workshop) :=
  match node.token.role with
  | .unary => do
    let (f, slots) ← ofExcept (take w.slots node.left node.token)
    return (← unaryFragment cfg node.token f, ⟨w.classes, slots⟩)
  | .binary => do
    let (left, slots) ← ofExcept (take w.slots node.left node.token)
    let (right, slots) ← ofExcept (take slots node.right node.token)
    return (← binaryFragment cfg node.token left right, ⟨w.classes, slots⟩)
  | .operand | .groupMark => ofExcept (Thompson.compileNode cfg w node)

/-- Compile the node at a place, and put its fragment into its slot. -/
def compileAt (cfg : Settings) (nodes : Array Node) (w : Workshop) (id : Nat) : Recorded Workshop :=
  match nodes[id]? with
  | none => pure w
  | some node => do
    let (f, w) ← compileNode cfg w node
    let f ← ofExcept (withinBudget cfg.budget f)
    return { w with slots := w.slots.setIfInBounds id (some f) }

end Recorded

end Thompson

open Recorded in
/-- The construction of the fragment of a tree, with a record. -/
def Nfa.recorded (cfg : Settings) (t : Tree) : Recorded Nfa :=
  match t.root with
  | none => pure ⟨.epsilon, #[]⟩
  | some root => do
    let w ← t.postorder.foldlM (compileAt cfg t.nodes) (.start t)
    match t.nodes[root]? with
    | none => return ⟨.epsilon, w.classes⟩
    | some node =>
      let (f, _) ← ofExcept (take w.slots (some root) node.token)
      return ⟨f, w.classes⟩

/-! ## The record changes nothing -/

namespace Thompson.Recorded

variable {budget : Nat} {cfg : Settings} {piece : Fragment}

theorem result_alternate (fastUnion : Bool) (left right : Fragment) :
    (alternate fastUnion left right).result = .ok (Thompson.alternate fastUnion left right) := by
  unfold alternate Thompson.alternate
  split
  · rfl
  · split <;> rfl

@[simp] theorem result_append (whole : Option Fragment) :
    (append budget whole piece).result = Thompson.append budget whole piece := by
  cases whole <;> rfl

@[simp] theorem result_appendCopies (n : Nat) (whole : Option Fragment) :
    (appendCopies budget piece n whole).result = Thompson.appendCopies budget piece n whole := by
  induction n generalizing whole with
  | zero => rfl
  | succ n ih => simp only [appendCopies, Thompson.appendCopies, result_bind, result_append, ih]

@[simp] theorem result_nestOptional (n : Nat) (tail : Fragment) :
    (nestOptional budget piece n tail).result = Thompson.nestOptional budget piece n tail := by
  induction n generalizing tail with
  | zero => rfl
  | succ n ih =>
    simp only [nestOptional, Thompson.nestOptional, result_bind, result_ofExcept, ih]
    rfl

theorem result_repeated (min : Nat) (max : Option Nat) :
    (repeated budget piece min max).result = Thompson.repeated budget piece min max := by
  rw [repeated, Thompson.repeated, result_bind, result_appendCopies]
  refine congrArg _ (funext fun whole => ?_)
  cases max with
  | none => exact result_append whole
  | some max =>
    dsimp only
    split
    · show (nestOptional budget piece (max - min - 1) piece.opt >>= append budget whole).result = _
      simp only [result_bind, result_nestOptional, result_append]
    · rfl

theorem result_unaryFragment (t : Token) (f : Fragment) :
    (unaryFragment cfg t f).result = t.unaryFragment cfg f := by
  cases t with
  | op o => cases o <;> rfl
  | count min max => exact result_repeated min max
  | _ => rfl

theorem result_binaryFragment (t : Token) (f g : Fragment) :
    (binaryFragment cfg t f g).result = .ok (t.binaryFragment cfg f g) := by
  cases t with
  | op o =>
    cases o with
    | concat => rfl
    | _ => exact result_alternate _ f g
  | _ => exact result_alternate _ f g

theorem result_compileNode (w : Workshop) (node : Node) :
    (compileNode cfg w node).result = Thompson.compileNode cfg w node := by
  obtain ⟨classes, slots⟩ := w
  obtain ⟨t, left, right⟩ := node
  unfold compileNode
  dsimp only
  split
  · next ht =>
    simp only [result_bind, result_ofExcept, result_unaryFragment, compileNode_of_unary ht]
    rfl
  · next ht =>
    simp only [result_bind, result_ofExcept, result_binaryFragment, compileNode_of_binary ht]
    rfl
  · rfl
  · rfl

theorem result_compileAt (nodes : Array Node) (w : Workshop) (id : Nat) :
    (compileAt cfg nodes w id).result = Thompson.compileAt cfg nodes w id := by
  unfold compileAt Thompson.compileAt
  cases nodes[id]? with
  | none => rfl
  | some node =>
    simp only [result_bind, result_compileNode, result_ofExcept]
    rfl

end Thompson.Recorded

open Recorded in
/-- **A record changes no result.** -/
theorem Nfa.result_recorded (cfg : Settings) (t : Tree) :
    (recorded cfg t).result = ofTree cfg t := by
  unfold recorded ofTree
  cases t.root with
  | none => rfl
  | some root =>
    simp only [result_bind, result_foldlM, result_compileAt]
    refine congrArg _ (funext fun w => ?_)
    cases t.nodes[root]? with
    | none => rfl
    | some node =>
      simp only [result_bind, result_ofExcept]
      rfl

/-! ## What a record contains -/

namespace Thompson

variable {ops ops' : List Operation} {f : Fragment}

theorem Made.mono (h : Made ops f) (hsub : ops ⊆ ops') : Made ops' f := by
  induction h with
  | leaf label => exact .leaf label
  | result hop _ ih => exact .result (hsub hop) ih

theorem Made.pair {l r : Fragment} (hl : Made ops l) (hr : Made ops r) :
    ∀ f ∈ [l, r], Made ops f :=
  List.forall_mem_cons.mpr ⟨hl, List.forall_mem_singleton.mpr hr⟩

theorem Operation.wellFormed_result {op : Operation} (h : ∀ f ∈ op.operands, f.WellFormed) :
    op.result.WellFormed := by
  cases op with
  | concat l r =>
    obtain ⟨hl, hr⟩ := List.forall_mem_cons.mp h
    exact hl.concat (List.forall_mem_singleton.mp hr)
  | union l r =>
    obtain ⟨hl, hr⟩ := List.forall_mem_cons.mp h
    exact hl.union (List.forall_mem_singleton.mp hr)
  | fastUnion l r =>
    obtain ⟨hl, -⟩ := List.forall_mem_cons.mp h
    exact hl.fastUnion
  | star f => exact (List.forall_mem_singleton.mp h).star
  | opt f => exact (List.forall_mem_singleton.mp h).opt
  | plus f => exact (List.forall_mem_singleton.mp h).plus

theorem Made.wellFormed (h : Made ops f) : f.WellFormed := by
  induction h with
  | leaf label => exact .leaf label
  | result _ _ ih => exact Operation.wellFormed_result ih

/-- A fragment that was made and then checked against the budget. -/
structure Checked (budget : Nat) (ops : List Operation) (f : Fragment) : Prop where
  made : Made ops f
  size_le : f.size ≤ budget

theorem Checked.mono {budget : Nat} (h : Checked budget ops f) (hsub : ops ⊆ ops') :
    Checked budget ops' f :=
  ⟨h.made.mono hsub, h.size_le⟩

/-- All fragments in slots were checked. -/
def AllChecked (budget : Nat) (ops : List Operation) (slots : Array (Option Fragment)) : Prop :=
  ∀ f, some f ∈ slots → Checked budget ops f

theorem AllChecked.mono {budget : Nat} {slots : Array (Option Fragment)}
    (h : AllChecked budget ops slots) (hsub : ops ⊆ ops') : AllChecked budget ops' slots :=
  fun f hf => (h f hf).mono hsub

namespace Recorded

variable {α β : Type} {budget n id : Nat} {P : List Operation → α → Prop}
  {Q : List Operation → β → Prop} {x : Recorded α} {cfg : Settings}
  {l r piece tail : Fragment} {whole : Option Fragment} {t : Token}
  {slots : Array (Option Fragment)} {child : Option Nat} {w : Workshop} {node : Node}
  {nodes : Array Node} {e : CompileError}

/-- What a computation does to a record. -/
structure Keeps (budget : Nat) (ops : List Operation) (P : List Operation → α → Prop)
    (x : Recorded α) : Prop where
  /-- No operation that is performed makes more than twice the budget and two states. -/
  size_le : ∀ op ∈ x.performed, op.result.size ≤ 2 * budget + 2
  /-- What is yielded has a property that may depend on the operations before. -/
  yields : ∀ a, x.result = .ok a → P (ops ++ x.performed) a
  /-- What is too large for the budget is in the record, unless one edge is too large. -/
  refused : x.result = .error (.budgetExceeded budget) →
    budget < 2 ∨ ∃ op ∈ ops ++ x.performed, budget < op.result.size

namespace Keeps

theorem pure {a : α} (h : P ops a) : (Pure.pure a : Recorded α).Keeps budget ops P where
  size_le _ hop := nomatch hop
  yields b hb := by
    obtain rfl := Except.ok.inj hb
    exact (List.append_nil ops).symm ▸ h
  refused h := nomatch h

theorem error (h : e ≠ .budgetExceeded budget) :
    (ofExcept (.error e) : Recorded α).Keeps budget ops P where
  size_le _ hop := nomatch hop
  yields _ h := nomatch h
  refused he := absurd (Except.error.inj he) h

theorem bind {f : α → Recorded β} (hx : x.Keeps budget ops P)
    (hf : ∀ ops' a, ops ⊆ ops' → P ops' a → (f a).Keeps budget ops' Q) :
    (x >>= f).Keeps budget ops Q := by
  obtain ⟨r, performed⟩ := x
  cases r with
  | error e =>
    refine ⟨hx.size_le, fun _ h => (nomatch h), fun he => ?_⟩
    obtain rfl := Except.error.inj he
    exact hx.refused rfl
  | ok a =>
    have ha := hf _ a (List.subset_append_left ops performed) (hx.yields a rfl)
    refine ⟨fun op hop => ?_, fun b hb => ?_, fun he => ?_⟩
    · exact (List.mem_append.mp hop).elim (hx.size_le op) (ha.size_le op)
    · have hQ := ha.yields b hb
      rwa [List.append_assoc] at hQ
    · have hrefused := ha.refused he
      rwa [List.append_assoc] at hrefused

theorem foldlM {step : β → α → Recorded β} {l : List α} {b : β}
    (hstep : ∀ ops b a, Q ops b → (step b a).Keeps budget ops Q) (hb : Q ops b) :
    (l.foldlM step b).Keeps budget ops Q := by
  induction l generalizing ops b with
  | nil => exact .pure hb
  | cons a l ih => exact (hstep ops b a hb).bind fun ops' b' _ hb' => ih hb'

/-- An operation on fragments that were made makes one more. -/
theorem perform (op : Operation) (hoperands : ∀ f ∈ op.operands, Made ops f)
    (hsize : op.result.size ≤ 2 * budget + 2) :
    (Recorded.perform op).Keeps budget ops fun ops f => f = op.result ∧ Made ops f where
  size_le _ hop := List.mem_singleton.mp hop ▸ hsize
  yields f hf := by
    obtain rfl := Except.ok.inj hf
    have hop : op ∈ ops ++ [op] := List.mem_append_right ops List.mem_cons_self
    exact ⟨rfl, .result hop fun f hf => (hoperands f hf).mono (List.subset_append_left ops [op])⟩
  refused h := nomatch h

theorem made {x : Recorded Fragment} (hx : x.Keeps budget ops fun ops f => f = l ∧ Made ops f) :
    x.Keeps budget ops Made :=
  ⟨hx.size_le, fun a ha => (hx.yields a ha).2, hx.refused⟩

end Keeps

/-- A fragment that is refused is one edge or was made by an operation of the record. -/
theorem keeps_withinBudget (hf : Made ops f) :
    (ofExcept (withinBudget budget f)).Keeps budget ops (Checked budget) := by
  unfold withinBudget
  split
  · next hle => exact .pure ⟨hf, hle⟩
  · next hgt =>
    refine ⟨fun _ hop => (nomatch hop), fun _ h => (nomatch h), fun _ => ?_⟩
    have hlt := Nat.lt_of_not_le hgt
    cases hf with
    | leaf label => exact .inl hlt
    | result hop _ => exact .inr ⟨_, List.mem_append_left _ hop, hlt⟩

/-! ### Combinations -/

theorem keeps_concat (hl : Made ops l) (hr : Made ops r)
    (hsize : l.size + r.size - 1 ≤ 2 * budget + 2) :
    (perform (.concat l r)).Keeps budget ops fun ops f => f = l.concat r ∧ Made ops f := by
  refine Keeps.perform (.concat l r) (hl.pair hr) ?_
  rwa [Operation.result, size_concat hr.wellFormed.start_lt]

theorem keeps_union (hl : Made ops l) (hr : Made ops r)
    (hsize : l.size + r.size + 2 ≤ 2 * budget + 2) :
    (perform (.union l r)).Keeps budget ops fun ops f => f = l.union r ∧ Made ops f := by
  refine Keeps.perform (.union l r) (hl.pair hr) ?_
  rwa [Operation.result, size_union]

theorem keeps_fastUnion (hl : Made ops l) (hr : Made ops r) (hsize : l.size ≤ 2 * budget + 2) :
    (perform (.fastUnion l r)).Keeps budget ops fun ops f => f = l.fastUnion r ∧ Made ops f := by
  refine Keeps.perform (.fastUnion l r) (hl.pair hr) ?_
  rwa [Operation.result, size_fastUnion]

theorem keeps_star (hf : Made ops f) (hsize : f.size + 2 ≤ 2 * budget + 2) :
    (perform (.star f)).Keeps budget ops fun ops g => g = f.star ∧ Made ops g := by
  refine Keeps.perform (.star f) (List.forall_mem_singleton.mpr hf) ?_
  rwa [Operation.result, size_star]

theorem keeps_opt (hf : Made ops f) (hsize : f.size ≤ 2 * budget + 2) :
    (perform (.opt f)).Keeps budget ops fun ops g => g = f.opt ∧ Made ops g := by
  refine Keeps.perform (.opt f) (List.forall_mem_singleton.mpr hf) ?_
  rwa [Operation.result, size_opt]

theorem keeps_plus (hf : Checked budget ops f) : (plus f).Keeps budget ops Made := by
  have hsize := hf.size_le
  refine (keeps_star hf.made (by omega)).bind ?_
  rintro ops' _ hsub ⟨rfl, hstar⟩
  have hplus : f.plus.size = f.size + (f.size + 2) - 1 := by
    rw [Fragment.plus, size_concat hstar.wellFormed.start_lt, size_star]
  refine (keeps_concat (hf.made.mono hsub) hstar (by rw [size_star]; omega)).bind ?_
  rintro ops'' _ hsub' -
  have hmade := (hf.made.mono hsub).mono hsub'
  refine (Keeps.perform (.plus f) (List.forall_mem_singleton.mpr hmade) ?_).made
  rw [Operation.result, hplus]
  omega

theorem keeps_alternate (fastUnion : Bool) (hl : Checked budget ops l)
    (hr : Checked budget ops r) : (alternate fastUnion l r).Keeps budget ops Made := by
  have hlsize := hl.size_le
  have hrsize := hr.size_le
  unfold alternate
  split
  · exact (keeps_fastUnion hl.made hr.made (by omega)).made
  · split
    · exact (keeps_fastUnion hr.made hl.made (by omega)).made
    · exact (keeps_union hl.made hr.made (by omega)).made

/-- A piece may be a star, which has two states more than what was checked. -/
theorem keeps_append (hw : ∀ f ∈ whole, Checked budget ops f) (hp : Made ops piece)
    (hsize : piece.size ≤ budget + 2) :
    (append budget whole piece).Keeps budget ops (Checked budget) := by
  cases whole with
  | none =>
    refine Keeps.bind (P := Made) (.pure hp) ?_
    intro ops' g _ hg
    exact keeps_withinBudget hg
  | some f =>
    have hf := hw f rfl
    have hfsize := hf.size_le
    refine (keeps_concat hf.made hp (by omega)).bind ?_
    rintro ops' g _ ⟨-, hg⟩
    exact keeps_withinBudget hg

theorem keeps_appendCopies (hw : ∀ f ∈ whole, Checked budget ops f)
    (hp : Checked budget ops piece) :
    (appendCopies budget piece n whole).Keeps budget ops fun ops whole =>
      ∀ f ∈ whole, Checked budget ops f := by
  induction n generalizing ops whole with
  | zero => exact .pure hw
  | succ n ih =>
    refine (keeps_append hw hp.made (Nat.le_add_right_of_le hp.size_le)).bind ?_
    intro ops' g hsub hg
    exact ih (fun f hf => Option.some.inj hf ▸ hg) (hp.mono hsub)

theorem keeps_nestOptional (hp : Checked budget ops piece) (ht : Checked budget ops tail) :
    (nestOptional budget piece n tail).Keeps budget ops (Checked budget) := by
  induction n generalizing ops tail with
  | zero => exact .pure ht
  | succ n ih =>
    have hpsize := hp.size_le
    have htsize := ht.size_le
    refine (keeps_concat hp.made ht.made (by omega)).bind ?_
    rintro ops₁ _ hsub₁ ⟨rfl, hhead⟩
    have hsize : (piece.concat tail).size ≤ 2 * budget + 2 := by
      rw [size_concat ht.made.wellFormed.start_lt]
      omega
    refine (keeps_opt hhead hsize).bind ?_
    rintro ops₂ head hsub₂ ⟨-, hhead⟩
    refine (keeps_withinBudget hhead).bind ?_
    intro ops₃ tail hsub₃ htail
    exact ih (((hp.mono hsub₁).mono hsub₂).mono hsub₃) htail

theorem keeps_repeated {min : Nat} {max : Option Nat} (hp : Checked budget ops piece) :
    (repeated budget piece min max).Keeps budget ops Made := by
  have hsize := hp.size_le
  have hmade : ∀ {x : Recorded Fragment} {ops : List Operation},
      x.Keeps budget ops (Checked budget) → x.Keeps budget ops Made :=
    fun h => ⟨h.size_le, fun a ha => (h.yields a ha).made, h.refused⟩
  have hnone : ∀ f ∈ (none : Option Fragment), Checked budget ops f := fun _ h => nomatch h
  refine (keeps_appendCopies hnone hp).bind ?_
  intro ops₁ whole hsub₁ hw
  have hp₁ := hp.mono hsub₁
  cases max with
  | none =>
    refine (keeps_star hp₁.made (by omega)).bind ?_
    rintro ops₂ _ hsub₂ ⟨rfl, hstar⟩
    have hw₂ := fun f hf => (hw f hf).mono hsub₂
    exact hmade (keeps_append hw₂ hstar (by rw [size_star]; omega))
  | some max =>
    dsimp only
    split
    · refine (keeps_opt hp₁.made (by omega)).bind ?_
      rintro ops₂ _ hsub₂ ⟨rfl, hopt⟩
      refine (keeps_nestOptional (hp₁.mono hsub₂) ⟨hopt, by rwa [size_opt]⟩).bind ?_
      intro ops₃ tail hsub₃ ht
      have hw₃ := fun f hf => ((hw f hf).mono hsub₂).mono hsub₃
      exact hmade (keeps_append hw₃ ht.made (Nat.le_add_right_of_le ht.size_le))
    · refine .pure ?_
      cases whole with
      | none => exact .leaf .epsilon
      | some f => exact (hw f rfl).made

/-! ### Nodes -/

theorem keeps_unaryFragment (hf : Checked cfg.budget ops f) :
    (unaryFragment cfg t f).Keeps cfg.budget ops Made := by
  have hsize := hf.size_le
  unfold unaryFragment
  split
  · exact keeps_plus hf
  · exact (keeps_star hf.made (by omega)).made
  · exact (keeps_opt hf.made (by omega)).made
  · exact keeps_repeated hf
  · exact .error CompileError.noConfusion

theorem keeps_binaryFragment (hl : Checked cfg.budget ops l) (hr : Checked cfg.budget ops r) :
    (binaryFragment cfg t l r).Keeps cfg.budget ops Made := by
  have hlsize := hl.size_le
  have hrsize := hr.size_le
  unfold binaryFragment
  split
  · exact (keeps_concat hl.made hr.made (by omega)).made
  · exact keeps_alternate _ hl hr

theorem keeps_take (h : AllChecked budget ops slots) :
    (ofExcept (take slots child t)).Keeps budget ops fun ops p =>
      Checked budget ops p.1 ∧ AllChecked budget ops p.2 := by
  cases htake : take slots child t with
  | ok p =>
    obtain ⟨hf, hslots⟩ := mem_of_take htake
    exact .pure ⟨h _ hf, fun g hg => h g (hslots g hg)⟩
  | error e =>
    refine .error ?_
    rintro rfl
    unfold take at htake
    split at htake <;> cases htake

theorem keeps_compileNode (hw : AllChecked cfg.budget ops w.slots) :
    (compileNode cfg w node).Keeps cfg.budget ops fun ops p =>
      Made ops p.1 ∧ AllChecked cfg.budget ops p.2.slots := by
  obtain ⟨classes, slots⟩ := w
  obtain ⟨t, left, right⟩ := node
  unfold compileNode
  dsimp only
  split
  · refine (keeps_take hw).bind ?_
    intro ops₁ p _ hp
    refine (keeps_unaryFragment hp.1).bind ?_
    intro ops₂ g hsub hg
    exact .pure ⟨hg, hp.2.mono hsub⟩
  · refine (keeps_take hw).bind ?_
    intro ops₁ p _ hp
    refine (keeps_take hp.2).bind ?_
    intro ops₂ q hsub₂ hq
    refine (keeps_binaryFragment (hp.1.mono hsub₂) hq.1).bind ?_
    intro ops₃ g hsub₃ hg
    exact .pure ⟨hg, hq.2.mono hsub₃⟩
  · next ht =>
    cases t with
    | byte _ | wildcard _ | anchor _ | byteClass _ => exact .pure ⟨.leaf _, hw⟩
    | op o => cases o <;> cases ht
    | _ => cases ht
  · next ht =>
    cases t with
    | openGroup | closeGroup => exact .error CompileError.noConfusion
    | op o => cases o <;> cases ht
    | _ => cases ht

/-- **Compiling a node leaves checked fragments in all slots.** -/
theorem keeps_compileAt (hw : AllChecked cfg.budget ops w.slots) :
    (compileAt cfg nodes w id).Keeps cfg.budget ops fun ops w =>
      AllChecked cfg.budget ops w.slots := by
  unfold compileAt
  split
  · exact .pure hw
  · refine (keeps_compileNode hw).bind ?_
    intro ops₁ p _ hp
    refine (keeps_withinBudget hp.1).bind ?_
    intro ops₂ f hsub hf
    refine .pure fun g hg => ?_
    rcases Array.mem_or_eq_of_mem_setIfInBounds hg with hg | hg
    · exact (hp.2 g hg).mono hsub
    · exact Option.some.inj hg ▸ hf

end Recorded

end Thompson

open Recorded in
/-- **The record of any arena is complete, and bounded by the budget.** -/
theorem Nfa.keeps_recorded (cfg : Settings) (t : Tree) :
    (recorded cfg t).Keeps cfg.budget [] fun ops nfa => Made ops nfa.fragment := by
  have hstart : AllChecked cfg.budget [] (Workshop.start t).slots := by
    intro f hf
    cases Array.eq_of_mem_replicate hf
  unfold recorded
  split
  · exact .pure (.leaf .epsilon)
  · refine (Keeps.foldlM (fun ops w id hw => keeps_compileAt hw) hstart).bind ?_
    intro ops₁ w _ hw
    split
    · exact .pure (.leaf .epsilon)
    · refine (keeps_take hw).bind ?_
      intro ops₂ p _ hp
      exact .pure hp.1.made

/-- **The budget is exact.** The construction fails if some node of a tree would have more states
than the budget allows, and only then; otherwise the fragment has as many states as the root.

The operations that are performed on the way make no more than twice the budget and two states each,
also where the result is refused. Their record is complete: they make the fragment of the tree of
fragments of one edge, and one of them made what is refused, unless the budget is too small for any
edge. -/
theorem Nfa.budget_exact {tree : Tree} {root : Nat} {s : TokenTree} {ids : List Nat}
    (hroot : tree.root = some root) (h : Tree.Laid tree.nodes root s ids) (hnodup : ids.Nodup)
    (cfg : Settings) :
    (ofTree cfg tree = .error (.budgetExceeded cfg.budget) ↔
      ∃ id ∈ tree.postorder, ∃ u, Tree.Holds tree.nodes id u ∧
        cfg.budget < u.states cfg.fastUnion) ∧
    ((∀ id ∈ tree.postorder, ∀ u, Tree.Holds tree.nodes id u →
        u.states cfg.fastUnion ≤ cfg.budget) →
      ∃ nfa, ofTree cfg tree = .ok nfa ∧ nfa.fragment.size = s.states cfg.fastUnion ∧
        Made (recorded cfg tree).performed nfa.fragment) ∧
    (recorded cfg tree).result = ofTree cfg tree ∧
    (∀ op ∈ (recorded cfg tree).performed, op.result.size ≤ 2 * cfg.budget + 2) ∧
    (ofTree cfg tree = .error (.budgetExceeded cfg.budget) →
      cfg.budget < 2 ∨
        ∃ op ∈ (recorded cfg tree).performed, cfg.budget < op.result.size) := by
  have hneeds := needs_ofTree hroot h hnodup cfg
  have hkeeps := keeps_recorded cfg tree
  have hresult := result_recorded cfg tree
  rw [h.postorder_eq hroot]
  refine ⟨?_, ?_, hresult, hkeeps.size_le, ?_⟩
  · exact (hneeds.eq_error_iff fun nfa hnfa => hnfa.2).trans h.lt_peak_iff
  · intro hsmall
    have hpeak : s.peak cfg.fastUnion ≤ cfg.budget := by
      refine Nat.le_of_not_lt fun hlt => ?_
      obtain ⟨id, hid, u, hu, hlarge⟩ := h.lt_peak_iff.mp hlt
      exact Nat.not_lt_of_le (hsmall id hid u hu) hlarge
    obtain ⟨nfa, hnfa, hsize, -⟩ := hneeds.exists_ok hpeak
    exact ⟨nfa, hnfa, hsize, hkeeps.yields nfa (hresult.trans hnfa)⟩
  · intro herror
    exact hkeeps.refused (hresult.trans herror)

/-- The tree of `a{2,3}`, for which three states are one too few. -/
theorem Nfa.budget_exact_count :
    ∃ t : Tree, t = ⟨#[⟨.byte 0x61, none, none⟩, ⟨.count 2 (some 3), some 0, none⟩], some 1⟩ ∧
      ofTree ⟨3, true⟩ t = .error (.budgetExceeded 3) ∧
      (recorded ⟨3, true⟩ t).performed.map (·.result.size) = [3, 2, 4] ∧
      (∀ op ∈ (recorded ⟨3, true⟩ t).performed, op.result.size ≤ 8) ∧
      ∃ nfa, ofTree ⟨4, true⟩ t = .ok nfa ∧ nfa.fragment.size = 4 ∧
        Made (recorded ⟨4, true⟩ t).performed nfa.fragment := by
  let t : Tree := ⟨#[⟨.byte 0x61, none, none⟩, ⟨.count 2 (some 3), some 0, none⟩], some 1⟩
  have hleaf : Tree.Laid t.nodes 0 (.leaf (.byte 0x61) rfl) [0] := .leaf rfl rfl
  have hlaid : Tree.Laid t.nodes 1 (.unary (.count 2 (some 3)) rfl (.leaf (.byte 0x61) rfl))
      [0, 1] := .unary rfl rfl hleaf
  obtain ⟨hfails, -, -, hbound, -⟩ := Nfa.budget_exact rfl hlaid (by decide) ⟨3, true⟩
  obtain ⟨-, hfits, -, -, -⟩ := Nfa.budget_exact rfl hlaid (by decide) ⟨4, true⟩
  refine ⟨t, rfl, ?_, by cbv, hbound, ?_⟩
  · exact hfails.mpr ⟨1, by decide, _, hlaid.holds, by decide⟩
  · refine hfits fun id hid u hu => ?_
    have hid : id ∈ [0, 1] := hid
    rcases List.mem_pair.mp hid with rfl | rfl
    · exact hu.unique hleaf.holds ▸ (by decide)
    · exact hu.unique hlaid.holds ▸ (by decide)

end ByteRegex
