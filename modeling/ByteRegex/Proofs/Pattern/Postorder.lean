import ByteRegex.Proofs.Pattern.Build
import Mathlib.Data.List.Nodup
import Mathlib.Data.List.Pairwise

/-!
# Arenas in postorder

Building a tree from ordered tokens and listing the places of the tree undo each other. No grammar
is assumed of the tokens: a tree is built exactly if no group mark is among them, each finds the
operands that it takes, and one operand is left (`Tree.build_isOk_iff`). The tokens are then those
of a token tree (`Tree.exists_ordered_of_build`), which lies in the arena place by place. So each
place but the last is a child of one later place (`Tree.Laid.perm_children`).

Main statement: `Tree.ofOrdered_lists`.
-/

namespace ByteRegex

/-! ## Operands -/

namespace Token

/-- How many operands a token takes. -/
def arity (t : Token) : Nat :=
  match t.role with
  | .operand | .groupMark => 0
  | .unary => 1
  | .binary => 2

/-- Each token finds the operands that it takes, and one operand is left at the end, given how many
there are at the start. The balance of what was read is what it adds to them. -/
structure Feeds (given : Int) (ts : List Token) : Prop where
  role_ne : ∀ t ∈ ts, t.role ≠ .groupMark
  arity_le : ∀ us t vs, ts = us ++ t :: vs → t.arity ≤ given + balance us
  balance_eq : given + balance ts = 1

variable {t : Token} {ts : List Token} {given : Int}

theorem feeds_nil_iff : Feeds given [] ↔ given = 1 := by
  constructor
  · intro h
    simpa [balance_nil] using h.balance_eq
  · rintro rfl
    exact ⟨by simp, fun us t vs h => by simp at h, by simp [balance_nil]⟩

theorem feeds_cons_iff : Feeds given (t :: ts) ↔
    t.role ≠ .groupMark ∧ t.arity ≤ given ∧ Feeds (given + t.weight) ts := by
  constructor
  · rintro ⟨hroles, harity, hbalance⟩
    obtain ⟨hrole, hroles⟩ := List.forall_mem_cons.mp hroles
    refine ⟨hrole, ?_, hroles, ?_, ?_⟩
    · simpa [balance_nil] using harity [] t ts rfl
    · rintro us u vs rfl
      rw [Int.add_assoc, ← balance_cons]
      exact harity (t :: us) u vs rfl
    · rw [Int.add_assoc, ← balance_cons, hbalance]
  · rintro ⟨hrole, hgiven, hroles, harity, hbalance⟩
    refine ⟨List.forall_mem_cons.mpr ⟨hrole, hroles⟩, ?_, ?_⟩
    · intro us u vs h
      rcases List.cons_eq_append_iff.mp h with ⟨rfl, h⟩ | ⟨us, rfl, h⟩
      · obtain ⟨rfl, -⟩ := List.cons.inj h
        simpa [balance_nil] using hgiven
      · rw [balance_cons, ← Int.add_assoc]
        exact harity us u vs (List.cons.inj h).2
    · rw [balance_cons, ← Int.add_assoc, hbalance]

/-- A token takes its operands and is one. -/
theorem feeds_cons_of_le {n : Nat} (hrole : t.role ≠ .groupMark) :
    Feeds ↑(n + t.arity) (t :: ts) ↔ Feeds ↑(n + 1) ts := by
  have hweight : (↑(n + t.arity) : Int) + t.weight = ↑(n + 1) := by
    unfold arity weight
    cases h : t.role with
    | groupMark => exact absurd h hrole
    | operand | unary => rfl
    | binary =>
      dsimp only
      omega
  rw [feeds_cons_iff, hweight]
  constructor
  · rintro ⟨-, -, h⟩
    exact h
  · intro h
    exact ⟨hrole, by omega, h⟩

end Token

/-! ## Nodes -/

/-- The children of a node. -/
def Node.children (n : Node) : List Nat := n.left.toList ++ n.right.toList

/-- A node has the children that its token takes, and no others. -/
def Node.Fits (n : Node) : Prop :=
  match n.token.role with
  | .operand => n.left = none ∧ n.right = none
  | .unary => n.left.isSome ∧ n.right = none
  | .binary => n.left.isSome ∧ n.right.isSome
  | .groupMark => False

/-- The children of the node at a place. -/
def childrenAt (nodes : Array Node) (i : Nat) : List Nat := (nodes[i]?.map Node.children).getD []

namespace Tree

variable {nodes : Array Node} {stack : List Nat} {t : Token} {ts : List Token} {tree : Tree}

/-! ## Building -/

/-- **A tree is built exactly if each token finds its operands**, and one operand is left. -/
theorem build_isOk_iff :
    (∃ tree, build nodes stack ts = .ok tree) ↔ Token.Feeds stack.length ts := by
  fun_induction build nodes stack ts with
  | case1 nodes root => simp [Token.feeds_nil_iff]
  | case2 => simp [Token.feeds_nil_iff]
  | case3 nodes stack hone hnone =>
    refine iff_of_false (by simp) fun h => ?_
    have hlength := Token.feeds_nil_iff.mp h
    obtain ⟨root, rfl⟩ := List.length_eq_one_iff.mp (Int.ofNat.inj hlength)
    exact hone root rfl
  | case4 nodes t ts stack hrole ih =>
    have hmark : t.role ≠ .groupMark := by simp [hrole]
    have harity : t.arity = 0 := by rw [Token.arity, hrole]
    rw [ih, List.length_cons, ← Token.feeds_cons_of_le hmark, harity, Nat.add_zero]
  | case5 nodes t ts operand stack hrole ih =>
    have hmark : t.role ≠ .groupMark := by simp [hrole]
    have harity : t.arity = 1 := by rw [Token.arity, hrole]
    rw [ih, List.length_cons, ← Token.feeds_cons_of_le hmark, harity, List.length_cons]
  | case6 nodes t ts right left stack hrole ih =>
    have hmark : t.role ≠ .groupMark := by simp [hrole]
    have harity : t.arity = 2 := by rw [Token.arity, hrole]
    rw [ih, List.length_cons, ← Token.feeds_cons_of_le hmark, harity, List.length_cons,
      List.length_cons]
  | case7 nodes stack t ts hrole =>
    exact iff_of_false (by simp) fun h => (Token.feeds_cons_iff.mp h).1 hrole
  | case8 nodes stack t ts hoperand hmark hunary hbinary =>
    -- the stack is too short for the token
    refine iff_of_false (by simp) fun h => ?_
    have harity := (Token.feeds_cons_iff.mp h).2.1
    cases hrole : t.role with
    | operand => exact hoperand hrole
    | groupMark => exact hmark hrole
    | unary =>
      rcases stack with _ | ⟨operand, stack⟩
      · simp [Token.arity, hrole] at harity
      · exact hunary operand stack hrole rfl
    | binary =>
      rcases stack with _ | ⟨right, _ | ⟨left, stack⟩⟩
      · simp [Token.arity, hrole] at harity
      · simp [Token.arity, hrole] at harity
      · exact hbinary right left stack hrole rfl

/-- The tokens from which a tree is built, behind those of the trees that wait for a parent, are
those of one token tree. -/
theorem exists_ordered_of_build (h : build nodes stack ts = .ok tree) (trees : List TokenTree)
    (hlength : trees.length = stack.length) :
    ∃ s : TokenTree, trees.reverse.flatMap TokenTree.ordered ++ ts = s.ordered := by
  fun_induction build nodes stack ts generalizing trees with
  | case1 nodes root =>
    obtain ⟨s, rfl⟩ := List.length_eq_one_iff.mp hlength
    exact ⟨s, by simp⟩
  | case2 | case3 | case7 | case8 => cases h
  | case4 nodes t ts stack hrole ih =>
    obtain ⟨s, hs⟩ := ih h (.leaf t hrole :: trees) (congrArg (· + 1) hlength)
    exact ⟨s, by simpa [TokenTree.ordered] using hs⟩
  | case5 nodes t ts operand stack hrole ih =>
    obtain ⟨a, trees, rfl⟩ := List.exists_cons_of_length_eq_add_one hlength
    obtain ⟨s, hs⟩ := ih h (.unary t hrole a :: trees) hlength
    exact ⟨s, by simpa [TokenTree.ordered] using hs⟩
  | case6 nodes t ts right left stack hrole ih =>
    obtain ⟨b, trees, rfl⟩ := List.exists_cons_of_length_eq_add_one hlength
    obtain ⟨a, trees, rfl⟩ := List.exists_cons_of_length_eq_add_one (Nat.succ.inj hlength)
    obtain ⟨s, hs⟩ := ih h (.binary t hrole a b :: trees) (Nat.succ.inj hlength)
    exact ⟨s, by simpa [TokenTree.ordered] using hs⟩

/-! ## Places -/

namespace Laid

variable {id i j : Nat} {s : TokenTree} {ids : List Nat}

/-- The tokens at the places of a tree are its tokens in order. -/
theorem tokens_eq (h : Laid nodes id s ids) :
    ids.map (nodes[·]?.map Node.token) = s.ordered.map some := by
  induction h with
  | leaf ht hn => simp [TokenTree.ordered, hn]
  | unary ht hn _ ih => simp [TokenTree.ordered, hn, ih]
  | binary ht hn _ _ iha ihb => simp [TokenTree.ordered, hn, iha, ihb]

theorem getLast?_eq (h : Laid nodes id s ids) : ids.getLast? = some id := by
  cases h with
  | leaf => rfl
  | unary | binary => exact List.getLast?_concat

theorem childrenAt_eq {n : Node} (hn : nodes[i]? = some n) : childrenAt nodes i = n.children := by
  rw [childrenAt, hn, Option.map_some, Option.getD_some]

theorem lt_size_of_mem_childrenAt (h : i ∈ childrenAt nodes j) : j < nodes.size := by
  unfold childrenAt at h
  refine Nat.lt_of_not_le fun hle => ?_
  rw [Array.getElem?_eq_none hle] at h
  cases h

/-- What holds of the places of the operands and of the root holds of all places. -/
theorem forall_mem_concat {P : Nat → Prop} (hids : ∀ i ∈ ids, P i) (hid : P id) :
    ∀ i ∈ ids ++ [id], P i :=
  List.forall_mem_append.mpr ⟨hids, List.forall_mem_singleton.mpr hid⟩

theorem fits (h : Laid nodes id s ids) : ∀ i ∈ ids, ∀ n ∈ nodes[i]?, n.Fits := by
  -- the node at the root has the children of its rule
  have root : ∀ {i : Nat} {m : Node}, nodes[i]? = some m → m.Fits → ∀ n ∈ nodes[i]?, n.Fits := by
    rintro i m hm hfits n hn
    exact Option.some.inj (hm.symm.trans hn) ▸ hfits
  induction h with
  | leaf ht hn => exact List.forall_mem_singleton.mpr (root hn (by simp [Node.Fits, ht]))
  | unary ht hn _ ih => exact forall_mem_concat ih (root hn (by simp [Node.Fits, ht]))
  | binary ht hn _ _ iha ihb =>
    refine forall_mem_concat (List.forall_mem_append.mpr ⟨iha, ihb⟩) (root hn ?_)
    simp [Node.Fits, ht]

/-- **The places of a tree are its root and the children of its places**, each once. -/
theorem perm_children (h : Laid nodes id s ids) :
    (ids.flatMap (childrenAt nodes) ++ [id]).Perm ids := by
  induction h with
  | leaf ht hn => simp [childrenAt_eq hn, Node.children]
  | unary ht hn _ ih =>
    simp only [List.flatMap_append, List.flatMap_singleton, childrenAt_eq hn]
    exact ih.append_right _
  | binary ht hn _ _ iha ihb =>
    simp only [List.flatMap_append, List.flatMap_singleton, childrenAt_eq hn]
    refine List.Perm.append_right _ (List.Perm.trans ?_ (iha.append ihb))
    simp only [List.append_assoc]
    exact List.Perm.append_left _ List.perm_middle

/-- Each place but that of the root is a child of one place. -/
theorem exists_parent (h : Laid nodes id s ids) (hids : ids.Nodup) (hi : i ∈ ids) (hne : i ≠ id) :
    ∃ j ∈ ids, (childrenAt nodes j).count i = 1 ∧ ∀ k ∈ ids, i ∈ childrenAt nodes k → k = j := by
  have hperm := h.perm_children
  have hmem : i ∈ ids.flatMap (childrenAt nodes) :=
    (List.mem_append.mp (hperm.mem_iff.mpr hi)).resolve_right fun hid =>
      hne (List.mem_singleton.mp hid)
  have hnodup : (ids.flatMap (childrenAt nodes)).Nodup :=
    (List.nodup_append.mp (hperm.nodup_iff.mpr hids)).1
  obtain ⟨j, hj, hij⟩ := List.mem_flatMap.mp hmem
  obtain ⟨honce, hdisjoint⟩ := List.nodup_flatMap.mp hnodup
  refine ⟨j, hj, List.count_eq_one_of_mem (honce j hj) hij, fun k hk hik => ?_⟩
  by_contra hkj
  have : Std.Symm (Function.onFun List.Disjoint (childrenAt nodes)) :=
    ⟨fun _ _ h _ hb ha => h ha hb⟩
  exact hdisjoint.forall hk hj hkj hik hij

/-- In ascending order, children lie before their parents. -/
theorem lt_of_mem_childrenAt (h : Laid nodes id s ids) (hids : ids.Pairwise (· < ·)) :
    ∀ j ∈ ids, ∀ i ∈ childrenAt nodes j, i < j := by
  induction h with
  | leaf ht hn => simp [childrenAt_eq hn, Node.children]
  | unary ht hn hs ih =>
    obtain ⟨hids, -, hroot⟩ := List.pairwise_append.mp hids
    refine forall_mem_concat (ih hids) ?_
    rw [childrenAt_eq hn]
    exact List.forall_mem_singleton.mpr (hroot _ hs.root_mem _ List.mem_cons_self)
  | binary ht hn ha hb iha ihb =>
    obtain ⟨hids, -, hroot⟩ := List.pairwise_append.mp hids
    obtain ⟨his, hjs, -⟩ := List.pairwise_append.mp hids
    refine forall_mem_concat (List.forall_mem_append.mpr ⟨iha his, ihb hjs⟩) ?_
    have hl := hroot _ (List.mem_append_left _ ha.root_mem) _ List.mem_cons_self
    have hr := hroot _ (List.mem_append_right _ hb.root_mem) _ List.mem_cons_self
    rw [childrenAt_eq hn]
    exact List.forall_mem_cons.mpr ⟨hl, List.forall_mem_singleton.mpr hr⟩

end Laid

/-! ## Trees -/

/-- An arena lists tokens if they are those of its nodes, each with the children that it takes, and
its nodes are in postorder: the root is the last, and each other one is once the child of one later
node. -/
structure Lists (tree : Tree) (ts : List Token) : Prop where
  tokens_eq : tree.nodes.toList.map Node.token = ts
  fits : ∀ n ∈ tree.nodes, n.Fits
  root_eq : ∃ last, ts.length = last + 1 ∧ tree.root = some last
  parent : ∀ i, i + 1 < ts.length → ∃ j, i < j ∧ (childrenAt tree.nodes j).count i = 1 ∧
    ∀ k, i ∈ childrenAt tree.nodes k → k = j
  postorder_eq : tree.postorder = List.range ts.length
  read_eq : tree.postorder.map (tree.nodes[·]?.map Node.token) = ts.map some

theorem Laid.lists {root : Nat} {s : TokenTree} (hroot : tree.root = some root)
    (h : Laid tree.nodes root s (List.range tree.size)) : tree.Lists s.ordered := by
  have hlength : tree.size = s.ordered.length := by
    simpa using congrArg List.length h.tokens_eq
  have hlast : s.ordered.length = root + 1 := by
    have hroot := h.getLast?_eq
    rw [List.getLast?_range] at hroot
    split at hroot
    · cases hroot
    · have := Option.some.inj hroot
      omega
  have hpostorder : tree.postorder = List.range tree.size := h.postorder_eq hroot
  refine ⟨?_, fun n hn => ?_, ⟨root, hlast, hroot⟩, fun i hi => ?_, hlength ▸ hpostorder, ?_⟩
  · refine List.map_injective_iff.mpr (Option.some_injective Token) ?_
    rw [← h.tokens_eq]
    refine List.ext_getElem (by simp [size]) fun i hi _ => ?_
    have hlt : i < tree.nodes.size := by simpa using hi
    simp [hlt]
  · obtain ⟨i, hi, hn⟩ := Array.mem_iff_getElem.mp hn
    exact h.fits i (List.mem_range.mpr hi) n (by rw [Array.getElem?_eq_getElem hi, hn]; rfl)
  · have hmem : i ∈ List.range tree.size := List.mem_range.mpr (by omega)
    have hne : i ≠ root := by omega
    obtain ⟨j, hj, hcount, hunique⟩ := h.exists_parent List.nodup_range hmem hne
    have hij : i ∈ childrenAt tree.nodes j := List.count_pos_iff.mp (by omega)
    refine ⟨j, h.lt_of_mem_childrenAt List.pairwise_lt_range j hj i hij, hcount, fun k hk => ?_⟩
    exact hunique k (List.mem_range.mpr (lt_size_of_mem_childrenAt hk)) hk
  · rw [hpostorder]
    exact h.tokens_eq

/-- **In a tree that was built, the loop with a stack ends**, and lists its places in postorder. -/
theorem leads_of_ofOrdered (h : ofOrdered ts = .ok tree) :
    StackWalk.Leads tree.nodes (.start tree.root) ⟨[], tree.postorder⟩ := by
  obtain ⟨s, hs⟩ := exists_ordered_of_build h [] rfl
  obtain rfl : ts = s.ordered := hs
  obtain ⟨root, hroot, hlaid⟩ := laid_of_ofOrdered h
  exact hlaid.leads hroot

/-- **Building a tree and listing its places undo each other.** A tree is built exactly if no group
mark is among the tokens, each of them finds the operands that it takes, and one operand is left.
The nodes of the tree are then those of the tokens, in their order, which is the postorder of the
tree. -/
theorem ofOrdered_lists (ts : List Token) :
    ((∃ tree, ofOrdered ts = .ok tree) ↔ Token.Feeds 0 ts) ∧
      ∀ tree, ofOrdered ts = .ok tree → tree.Lists ts := by
  refine ⟨build_isOk_iff, fun tree h => ?_⟩
  obtain ⟨s, hs⟩ := exists_ordered_of_build h [] rfl
  obtain rfl : ts = s.ordered := hs
  obtain ⟨root, hroot, hlaid⟩ := laid_of_ofOrdered h
  exact hlaid.lists hroot

/-- The second operand of the concatenation is repeated. -/
theorem ofOrdered_lists_repeated :
    let ts : List Token := [.byte 0x61, .byte 0x62, .count 2 none, .op .concat]
    let tree : Tree := ⟨#[⟨.byte 0x61, none, none⟩, ⟨.byte 0x62, none, none⟩,
      ⟨.count 2 none, some 1, none⟩, ⟨.op .concat, some 0, some 2⟩], some 3⟩
    ofOrdered ts = .ok tree ∧ Token.Feeds 0 ts ∧ tree.postorder = [0, 1, 2, 3] ∧ tree.Lists ts := by
  intro ts tree
  have h : ofOrdered ts = .ok tree := by rfl
  obtain ⟨hfeeds, hlists⟩ := ofOrdered_lists ts
  exact ⟨h, hfeeds.mp ⟨tree, h⟩, (hlists tree h).postorder_eq, hlists tree h⟩

end Tree

end ByteRegex
