import ByteRegex.Proofs.Basic
import ByteRegex.Proofs.Pattern.Layout
import Mathlib.Algebra.BigOperators.Group.List.Basic
import Mathlib.Algebra.Order.Ring.Int

/-!
# Building a tree from ordered tokens

Each token takes its operands from a stack and puts its own node there. So the tokens of a tree,
each after its operands, put one place on the stack, below which the tree lies, whatever was on the
stack before and whatever follows (`Tree.exists_build_laid`).

The weight of a token is what it adds to the length of the stack. Whatever the tokens are, a tree
is only built if their weights sum up to one (`Tree.balance_of_build`), and its root is one of its
nodes (`Tree.root_lt_of_build`).
-/

namespace ByteRegex

/-! ## Weights -/

namespace Token

/-- How many operands without a parent a token adds: it takes its own and adds itself. -/
def weight (t : Token) : Int :=
  match t.role with
  | .operand => 1
  | .unary | .groupMark => 0
  | .binary => -1

/-- How many operands without a parent the tokens of a list add. -/
def balance (ts : List Token) : Int := (ts.map weight).sum

variable {t : Token} {ts us : List Token}

theorem balance_nil : balance [] = 0 := rfl

theorem balance_cons : balance (t :: ts) = t.weight + balance ts := List.sum_cons

theorem balance_eq_of_perm (h : ts.Perm us) : balance ts = balance us := (h.map weight).sum_eq

theorem balance_filter_marks : balance (ts.filter (·.role ≠ .groupMark)) = balance ts := by
  induction ts with
  | nil => rfl
  | cons t ts ih =>
    by_cases hmark : t.role = .groupMark
    · rw [List.filter_cons_of_neg (by simp [hmark]), ih, balance_cons, weight, hmark, Int.zero_add]
    · rw [List.filter_cons_of_pos (by simp [hmark]), balance_cons, balance_cons, ih]

end Token

/-! ## Stacks -/

namespace Tree

variable {nodes : Array Node} {stack : List Nat} {ts : List Token} {tree : Tree}

/-- **The tokens of a tree put its root on the stack**, and add its nodes, one for each token and in
this order, at the end of the arena. -/
theorem exists_build_laid (s : TokenTree) (nodes : Array Node) (stack : List Nat) :
    ∃ more root, Laid (nodes ++ more) root s (List.range' nodes.size more.size) ∧
      ∀ rest, build nodes stack (s.ordered ++ rest) =
        build (nodes ++ more) (root :: stack) rest := by
  induction s generalizing nodes stack with
  | leaf t ht =>
    refine ⟨#[⟨t, none, none⟩], nodes.size, .leaf ht (by simp), ?_⟩
    intro rest
    simp [TokenTree.ordered, build, ht]
  | unary t ht operand ih =>
    obtain ⟨more, root, hs, hbuild⟩ := ih nodes stack
    refine ⟨more ++ #[⟨t, some root, none⟩], (nodes ++ more).size, ?_, ?_⟩
    · have hids : List.range' nodes.size (more ++ #[Node.mk t (some root) none]).size =
          List.range' nodes.size more.size ++ [(nodes ++ more).size] := by
        simp [List.range'_1_concat]
      rw [hids, ← Array.append_assoc]
      exact .unary ht (by simp) hs.append
    · intro rest
      rw [TokenTree.ordered, List.append_assoc, hbuild]
      simp [build, ht]
  | binary t ht left right ihl ihr =>
    obtain ⟨more, l, hl, hbuildl⟩ := ihl nodes stack
    obtain ⟨more', r, hr, hbuildr⟩ := ihr (nodes ++ more) (l :: stack)
    refine ⟨more ++ more' ++ #[⟨t, some l, some r⟩], (nodes ++ more ++ more').size, ?_, ?_⟩
    · have hids : List.range' nodes.size (more ++ more' ++ #[Node.mk t (some l) (some r)]).size =
          List.range' nodes.size more.size ++ List.range' (nodes ++ more).size more'.size ++
            [(nodes ++ more ++ more').size] := by
        simp [List.range'_1_concat, ← List.range'_append_1, Nat.add_assoc]
      rw [hids, ← Array.append_assoc, ← Array.append_assoc]
      exact .binary ht (by simp) hl.append.append hr.append
    · intro rest
      rw [TokenTree.ordered, List.append_assoc, List.append_assoc, hbuildl, hbuildr]
      simp [build, ht, Array.append_assoc]

theorem exists_build_ordered (s : TokenTree) (nodes : Array Node) (stack : List Nat) :
    ∃ more root, Holds (nodes ++ more) root s ∧
      ∀ rest, build nodes stack (s.ordered ++ rest) =
        build (nodes ++ more) (root :: stack) rest := by
  obtain ⟨more, root, hs, hbuild⟩ := exists_build_laid s nodes stack
  exact ⟨more, root, hs.holds, hbuild⟩

/-- The arena that is built for a tree has its nodes and no others, in their order. -/
theorem laid_of_ofOrdered {s : TokenTree} (h : ofOrdered s.ordered = .ok tree) :
    ∃ root, tree.root = some root ∧ Laid tree.nodes root s (List.range tree.size) := by
  obtain ⟨more, root, hs, hbuild⟩ := exists_build_laid s #[] []
  have hfinal := hbuild []
  rw [List.append_nil] at hfinal
  obtain rfl := Except.ok.inj (h.symm.trans hfinal)
  refine ⟨root, rfl, ?_⟩
  rw [List.range_eq_range', size, Array.empty_append]
  rwa [Array.empty_append] at hs

/-- **A tree that is built uses all its operands but the root.** -/
theorem balance_of_build (h : build nodes stack ts = .ok tree) :
    stack.length + Token.balance ts = 1 := by
  fun_induction build nodes stack ts with
  | case1 nodes root => simp [Token.balance_nil]
  | case2 | case3 => cases h
  | case4 nodes t ts stack hrole ih =>
    have hlength := ih h
    rw [Token.balance_cons, Token.weight, hrole]
    push_cast [List.length_cons] at hlength ⊢
    omega
  | case5 nodes t ts operand stack hrole ih =>
    have hlength := ih h
    rw [Token.balance_cons, Token.weight, hrole]
    push_cast [List.length_cons] at hlength ⊢
    omega
  | case6 nodes t ts right left stack hrole ih =>
    have hlength := ih h
    rw [Token.balance_cons, Token.weight, hrole]
    push_cast [List.length_cons] at hlength ⊢
    omega
  | case7 | case8 => cases h

/-! ## The root -/

theorem lt_size_push {node : Node} (h : ∀ id ∈ stack, id < nodes.size) :
    ∀ id ∈ nodes.size :: stack, id < (nodes.push node).size := by
  rw [Array.size_push]
  exact List.forall_mem_cons.mpr
    ⟨Nat.lt_succ_self _, fun id hid => Nat.lt_succ_of_lt (h id hid)⟩

theorem root_lt_of_build (hstack : ∀ id ∈ stack, id < nodes.size)
    (h : build nodes stack ts = .ok tree) : ∀ r ∈ tree.root, r < tree.size := by
  fun_induction build nodes stack ts with
  | case1 nodes root =>
    obtain rfl := Except.ok.inj h
    intro r hr
    obtain rfl := Option.some.inj hr
    exact hstack root List.mem_cons_self
  | case2 | case3 => cases h
  | case4 nodes t ts stack _ ih => exact ih (lt_size_push hstack) h
  | case5 nodes t ts operand stack _ ih =>
    exact ih (lt_size_push (List.forall_mem_cons.mp hstack).2) h
  | case6 nodes t ts right left stack _ ih =>
    refine ih (lt_size_push fun id hid => hstack id ?_) h
    exact List.mem_cons_of_mem _ (List.mem_cons_of_mem _ hid)
  | case7 | case8 => cases h

/-- The root of the tree of a pattern is one of its nodes. -/
theorem root_lt_of_parse {pattern : List Byte} (h : parse pattern = .ok tree) :
    ∀ r ∈ tree.root, r < tree.size := by
  obtain ⟨ts, -, h⟩ := bind_eq_ok h
  unfold ofTokens at h
  split at h
  · obtain rfl := Except.ok.inj h
    exact fun r hr => nomatch hr
  · obtain ⟨us, -, h⟩ := bind_eq_ok h
    exact root_lt_of_build (fun _ h => absurd h List.not_mem_nil) h

end Tree

end ByteRegex
